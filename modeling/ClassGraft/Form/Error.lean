import ClassGraft.Form.Value

namespace ClassGraft

instance : ToForm VerifyFault where
  toForm
    | .emptyStack => .text "EmptyStack"
    | .invalidWidth found => Form.tagged "InvalidWidth" [toForm found]
    | .notArray => .text "NotArrayType"
    | .invalidIndex slot => Form.tagged "InvalidIndex" [toForm slot]
    | .invalidType => .text "InvalidType"
    | .incompatible => .text "IncompatibleFrames"
    | .unreachableTarget l => Form.tagged "UnreachableBranchTarget" [toForm l]

/-- The kind of an error with what belongs to it. -/
structure ErrorForm where
  kind : String
  details : List (String × Form)

def ErrorForm.fields (e : ErrorForm) : List (String × Form) := ("error", .text e.kind) :: e.details

instance : ToForm ErrorForm := ⟨fun e => .fields e.fields⟩

def ErrorForm.said (kind message : String) : ErrorForm := ⟨kind, [("message", .text message)]⟩

/-- What cannot be read or parsed, with the kind of failure of the input. -/
def ErrorForm.ofInput (kind message : String) : ErrorForm :=
  ⟨"IoError", [("kind", .text kind), ("message", .text message)]⟩

def ClassError.report : ClassError → ErrorForm
  | .unreadable e => .ofInput (if e = .truncated then "UnexpectedEof" else "InvalidData") e.message
  | .unparsable e =>
    .ofInput (if e.isTruncation then "UnexpectedEof" else "InvalidInput") e.message
  | .badMagic magic => ⟨"BadMagic", [("magic", toForm magic.toNat)]⟩
  | .unsupportedVersion v => ⟨"UnsupportedClassVersion", [("version", toForm v)]⟩
  | .malformedClass fault => .said "MalformedClass" fault.message
  | .invalidIndex i => ⟨"InvalidConstantIndex", [("index", toForm i)]⟩
  | .unexpectedConstant i expected =>
    ⟨"UnexpectedConstant", [("index", toForm i), ("expected", toForm expected.text)]⟩
  | .poolOverflow c offset =>
    ⟨"ConstantPoolOverflow", [("constant", toForm c), ("offset", toForm offset)]⟩
  | .malformedName e => .said "MalformedName" e.message
  | .badDescriptor r => .said "BadDescriptor" r.message
  | .malformedAttribute k fault =>
    ⟨"MalformedAttribute", [("name", toForm k), ("message", toForm fault.message)]⟩
  | .invalidOpcode offset op => ⟨"InvalidOpcode", [("offset", toForm offset), ("opcode", toForm op)]⟩
  | .invalidTarget offset target =>
    ⟨"InvalidBranchTarget", [("offset", toForm offset), ("target", toForm target)]⟩
  | .codeTooLong size => ⟨"MethodCodeOverflow", [("size", toForm size)]⟩
  | .stackTooDeep size => ⟨"MethodCodeMaxStackOverflow", [("size", toForm size)]⟩
  | .tooManyLocals size => ⟨"MethodCodeMaxLocalsOverflow", [("size", toForm size)]⟩
  | .jumpTooFar l offset => ⟨"JumpOffsetOverflow", [("label", toForm l), ("offset", toForm offset)]⟩
  | .duplicateLabel l => ⟨"DuplicateLabel", [("label", toForm l)]⟩
  | .danglingLabel l => ⟨"DanglingLabel", [("label", toForm l)]⟩
  | .missingNode id => ⟨"MissingNode", [("node", toForm id)]⟩
  | .operandMismatch id => ⟨"OperandMismatch", [("node", toForm id)]⟩
  | .unbalanced anchor effect =>
    ⟨"UnbalancedInsertion", [("anchor", toForm anchor), ("net_effect", toForm effect)]⟩
  | .unreachable id => ⟨"UnreachableInstruction", [("node", toForm id)]⟩
  | .depthMismatch id expected found => ⟨"StackHeightMismatch",
    [("node", toForm id), ("expected", toForm expected), ("found", toForm found)]⟩
  | .underflow n => ⟨"StackUnderflow", [("instruction", toForm n.mnemonic)]⟩
  | .unverifiable site fault =>
    ⟨"VerifierError", [("instruction", toForm site.text), ("kind", toForm fault)]⟩
  | .conflictingFrames offset => ⟨"ConflictingFrames", [("offset", toForm offset)]⟩
  | .flow fault => .said "FrameInference" fault.message

def PatchError.report (e : PatchError) : ErrorForm :=
  match e with
  | .invariantViolation className rule method cause => ⟨"InvariantViolation",
    [("class", toForm className), ("rule", toForm rule), ("method", toForm method),
      ("cause", toForm cause.report)]⟩
  | .classFormat className cause =>
    ⟨"ClassFormat", [("class", toForm className), ("cause", toForm cause.report)]⟩
  | .unknownSymbol _ => .said "UnknownSymbol" e.message
  | .targetMissing _ _ _ => .said "PatchTargetMissing" e.message
  | .unsupportedVersion _ _ => .said "UnsupportedClassVersion" e.message
  | .malformedName _ => .said "MalformedName" e.message
  | .malformedMappings _ _ => .said "MalformedMappings" e.message
  | .unknownEnhancement _ => .said "UnknownEnhancement" e.message

def FormError.report : FormError → ErrorForm
  | .shape => ⟨"BadInput", []⟩
  | .patch (.edit e) => e.report
  | .patch (.symbol e) => e.report
  | .patch (.targetMissing what) => .said "TargetMissing" what
  | .verify fault => ⟨"VerifierErrorKind", [("kind", toForm fault)]⟩
  | .halted => ⟨"Panic", []⟩

instance : ToForm PatchError := ⟨fun e => toForm e.report⟩

end ClassGraft
