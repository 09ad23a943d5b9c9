import ClassGraft.ClassFile
import ClassGraft.Code.CheckedAssembly
import ClassGraft.Code.Disassembly
import ClassGraft.Flow.Depth
import ClassGraft.Flow.Inference

namespace ClassGraft

/-- The body of a method with its limits. Once editing has begun it is known what could be reached
before. -/
structure MethodCode where
  body : Body
  maxStack : UInt16
  maxLocals : UInt16
  reachableBefore : Option (List NodeId)

/-- A field with its descriptor read. -/
structure Field where
  flags : UInt16
  name : MemberName
  type : FieldType
  deriving DecidableEq

/-- A method with its descriptor and its body read. An abstract or native method has no body, and a
method of a class too old for frames has no entry frame. -/
structure Method where
  /-- The position in the file that the method was read from. -/
  index : Nat
  flags : UInt16
  name : MemberName
  canonicalName : Option MemberName
  type : MethodType
  owner : BinaryName
  entry : Option Frame
  code : Option MethodCode

namespace Field

def read (pool : Pool) (raw : RawMember) : Except ClassError Field := do
  let name ← (MemberName.ofString (← pool.utf8 raw.name)).mapError .malformedName
  let descriptor ← pool.utf8 raw.descriptor
  let type ← (FieldType.parse descriptor).mapError fun _ => .badDescriptor (.text descriptor)
  return ⟨raw.flags, name, type⟩

end Field

/-- The first attribute with a name. Names are only looked up as far as that one. -/
def Pool.findAttribute (pool : Pool) (name : String) :
    List Attribute → Except ClassError (Option Attribute)
  | [] => .ok none
  | a :: as => do
    if (← pool.utf8 a.name) = name then return some a else pool.findAttribute name as

namespace MethodCode

def read (pool : Pool) (entry : Option Frame) (a : Attribute) : Except ClassError MethodCode := do
  let c ← a.decode .code
  return ⟨← Body.ofCode pool entry c, c.maxStack, c.maxLocals, none⟩

/-- Checks the edits of a body: the depth is kept behind each of them and consistent everywhere, no
label is missing, and nothing has become unreachable. -/
def check (c : MethodCode) (parameterSlots : Nat) : Except ClassError StackAnalysis := do
  c.body.checkNeutral
  c.body.checkLabels
  let a ← c.body.analyzeStack parameterSlots
  match c.reachableBefore with
  | some before => c.body.checkReachable before a
  | none => pure ()
  return a

/-- Checks a body and brings its limits and its frames up to date. The limits never become smaller. -/
def validate (c : MethodCode) (parameterSlots : Nat) (entry : Option Frame) (owner : BinaryName) :
    Except ClassError MethodCode := do
  let a ← c.check parameterSlots
  let maxStack := max a.maxStack c.maxStack.toNat
  if 65535 < maxStack then throw (.stackTooDeep maxStack)
  let maxLocals := max a.maxLocals c.maxLocals.toNat
  if 65535 < maxLocals then throw (.tooManyLocals maxLocals)
  let body ←
    match entry with
    | none => pure c.body
    | some entry => do
      let (_, body) ← c.body.inferFrames entry owner
      pure body
  return { c with body, maxStack := maxStack.toUInt16, maxLocals := maxLocals.toUInt16 }

end MethodCode

namespace Method

def read (pool : Pool) (owner : BinaryName) (hasFrames : Bool) (raw : RawMember) (index : Nat) :
    Except ClassError Method := do
  let name ← (MemberName.ofString (← pool.utf8 raw.name)).mapError .malformedName
  let descriptor ← pool.utf8 raw.descriptor
  let type ← (MethodType.parse descriptor).mapError fun _ => .badDescriptor (.text descriptor)
  let entry :=
    if hasFrames then
      some (Frame.entry owner (Flags.isStatic raw.flags) (decide (name = MemberName.init)) type)
    else none
  let code ←
    match ← pool.findAttribute AttributeKind.code.name raw.attributes with
    | none => pure none
    | some a => do pure (some (← MethodCode.read pool entry a))
  return { index, flags := raw.flags, name, canonicalName := none, type, owner, entry, code }

def isStatic (m : Method) : Bool := Flags.isStatic m.flags

/-- The name to use in messages. -/
def displayName (m : Method) : String := (m.canonicalName.getD m.name).text

/-- The local slots that the parameters take, the receiver included. -/
def parameterSlots (m : Method) : Nat := m.type.parameterSlots !m.isStatic

def body? (m : Method) : Option Body := m.code.map MethodCode.body

def isModified (m : Method) : Bool := (m.body?.map Body.isModified).getD false

/-- Before the first edit it is recorded what can be reached. -/
def beginEdit (m : Method) : Except ClassError Method :=
  match m.code with
  | some ⟨body, maxStack, maxLocals, none⟩ => do
    let a ← body.analyzeStack m.parameterSlots
    return { m with code := some ⟨body, maxStack, maxLocals, some (body.reachable a)⟩ }
  | _ => .ok m

/-- Puts an edited body in place of the one there is. -/
def withBody (m : Method) (b : Body) : Method :=
  { m with code := m.code.map fun c => { c with body := b } }

/-- Checks an edited body and leaves it as it is. -/
def check (m : Method) : Except ClassError Unit :=
  match m.code with
  | some c =>
    if c.body.isModified then do
      let _ ← c.check m.parameterSlots
    else .ok ()
  | none => .ok ()

/-- Brings the limits and frames of an edited body up to date. What was not edited is left alone. -/
def validate (m : Method) : Except ClassError Method :=
  match m.code with
  | some c =>
    if c.body.isModified then do
      return { m with code := some (← c.validate m.parameterSlots m.entry m.owner) }
    else .ok m
  | none => .ok m

def encode (m : Method) : HaltingM (Option CodeAttribute) :=
  match m.code with
  | none => return none
  | some c => do return some (← c.body.encodeChecked c.maxStack c.maxLocals m.entry)

end Method

end ClassGraft
