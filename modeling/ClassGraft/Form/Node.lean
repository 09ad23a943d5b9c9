import ClassGraft.Form.Value

namespace ClassGraft

instance : ToForm FieldRef := ⟨fun f => .list [toForm f.owner, toForm f.name, toForm f.type]⟩

instance : ToForm MethodRef :=
  ⟨fun m => .list [toForm m.owner, toForm m.name, toForm m.type, toForm m.isInterface]⟩

def Instruction.operands : Instruction → List Form
  | .bipush n => [toForm n]
  | .sipush n => [toForm n]
  | .ldc l => [toForm l]
  | .load _ slot | .store _ slot => [toForm slot]
  | .increment slot amount => [toForm slot, toForm amount]
  | .shift op _ => [toForm op]
  | .compareFloat m | .compareDouble m => [toForm m]
  | .field _ f => [toForm f.owner, toForm f.name, toForm f.type]
  | .invoke k m =>
    [toForm k, toForm m.owner, toForm m.name, toForm m.type, toForm m.isInterface]
  | .invokeDynamic c => [toForm c.bootstrap, toForm c.name, toForm c.type]
  | .new c => [toForm c]
  | .newArray t => [toForm t]
  | .newRefArray t | .checkCast t | .instanceOf t => [toForm t]
  | .newMultiArray t dimensions => [toForm t, toForm dimensions]
  | _ => []

def Branch.operands : Branch Label → List Form
  | .ifZero c l | .ifInt c l => [toForm c, toForm l]
  | .ifRef c l | .ifNull c l => [toForm c, toForm l]
  | .goto l | .gotoWide l | .jsr l | .jsrWide l => [toForm l]
  | .ret slot => [toForm slot]
  | .tableSwitch default low targets => [toForm default, toForm low, toForm targets]
  | .lookupSwitch default cases => [toForm default, toForm cases]
  | .leave _ | .athrow => []

def Node.operands : Node → List Form
  | .insn i => i.operands
  | .branch b => b.operands
  | .label l => [toForm l]
  | .line n => [toForm n]
  | .frame f => [toForm f]

instance : ToForm Node where
  toForm n :=
    match n.operands with
    | [] => .text n.mnemonic
    | xs => Form.tagged n.mnemonic xs

def ValueKind.all : List ValueKind := [.int, .long, .float, .double, .ref]

def NumberKind.all : List NumberKind := [.int, .long, .float, .double]

def ElementKind.all : List ElementKind :=
  [.int, .long, .float, .double, .ref, .byte, .char, .short]

/-- The instructions without operands. -/
def Instruction.plain : List Instruction :=
  [.nop, .constNull, .compareLong, .arrayLength, .monitorEnter, .monitorExit] ++
  (List.finRange 7).map .constInt ++ (List.finRange 2).map .constLong ++
  (List.finRange 3).map .constFloat ++ (List.finRange 2).map .constDouble ++
  ElementKind.all.map .arrayLoad ++ ElementKind.all.map .arrayStore ++
  [StackOp.pop, .pop2, .dup, .dupX1, .dupX2, .dup2, .dup2X1, .dup2X2, .swap].map .stack ++
  ([ArithmeticOp.add, .sub, .mul, .div, .rem, .neg].flatMap fun op =>
    NumberKind.all.map (.arithmetic op)) ++
  ([BitOp.and, .or, .xor].flatMap fun op => [.bitwise op false, .bitwise op true]) ++
  [Conversion.i2l, .i2f, .i2d, .l2i, .l2f, .l2d, .f2i, .f2l, .f2d, .d2i, .d2l, .d2f, .i2b, .i2c,
    .i2s].map .convert

def Branch.plain : List (Branch Label) :=
  [.athrow, .leave none] ++ ValueKind.all.map fun k => .leave (some k)

/-- The nodes without operands by their names. -/
def Node.plain : List (String × Node) :=
  (Instruction.plain.map Node.insn ++ Branch.plain.map Node.branch).map fun n => (n.mnemonic, n)

/-- The field that the items of a form from a position on name. -/
def FieldRef.ofItems (f : Form) (i : Nat) : FormM FieldRef :=
  return ⟨← f.get i, ← f.get (i + 1), ← f.get (i + 2)⟩

/-- The method that the items of a form from a position on name. Unless it is said to be one of an
interface, it is one of a class. -/
def MethodRef.ofItems (f : Form) (i : Nat) : FormM MethodRef :=
  return ⟨← f.get i, ← f.get (i + 1), ← f.get (i + 2), ← f.get (i + 3)⟩

/-- The load or store of a local variable by its name. -/
def Instruction.ofSlotWord (word : String) (slot : UInt16) : FormM Instruction :=
  .ofOption <| (ValueKind.all.flatMap fun k => [Instruction.load k slot, .store k slot]).find?
    fun i => i.mnemonic == word

def Instruction.ofWord (word : String) (f : Form) : FormM Instruction := do
  match word with
  | "BiPush" => return .bipush (← f.get 1)
  | "SiPush" => return .sipush (← f.get 1)
  | "Ldc" => return .ldc (← f.get 1)
  | "IInc" => return .increment (← f.get 1) (← f.get 2)
  | "ISh" => return .shift (← f.get 1) false
  | "LSh" => return .shift (← f.get 1) true
  | "FCmp" => return .compareFloat (← f.get 1)
  | "DCmp" => return .compareDouble (← f.get 1)
  | "Invoke" => return .invoke (← f.get 1) (← MethodRef.ofItems f 2)
  | "InvokeDynamic" => return .invokeDynamic ⟨← f.get 1, ← f.get 2, ← f.get 3⟩
  | "New" => return .new (← f.get 1)
  | "NewArray" => return .newArray (← f.get 1)
  | "ANewArray" => return .newRefArray (← f.get 1)
  | "CheckCast" => return .checkCast (← f.get 1)
  | "InstanceOf" => return .instanceOf (← f.get 1)
  | "MultiANewArray" => return .newMultiArray (← f.get 1) (← f.get 2)
  | _ =>
    match (Worded.words (α := FieldAccess)).lookup word with
    | some a => return .field a (← FieldRef.ofItems f 1)
    | none => ofSlotWord word (← f.get 1)

def Branch.ofWord? (word : String) (f : Form) : FormM (Option (Branch Label)) := do
  match word with
  | "If" => return some (.ifZero (← f.get 1) (← f.get 2))
  | "IfICmp" => return some (.ifInt (← f.get 1) (← f.get 2))
  | "IfACmp" => return some (.ifRef (← f.get 1) (← f.get 2))
  | "IfNull" => return some (.ifNull (← f.get 1) (← f.get 2))
  | "Goto" => return some (.goto (← f.get 1))
  | "GotoW" => return some (.gotoWide (← f.get 1))
  | "Jsr" => return some (.jsr (← f.get 1))
  | "JsrW" => return some (.jsrWide (← f.get 1))
  | "Ret" => return some (.ret (← f.get 1))
  | "TableSwitch" => return some (.tableSwitch (← f.get 1) (← f.get 2) (← f.get 3))
  | "LookupSwitch" => return some (.lookupSwitch (← f.get 1) (← f.get 2))
  | _ => return none

def Node.ofWord (word : String) (f : Form) : FormM Node := do
  match word with
  | "Label" => return .label (← f.get 1)
  | "LineNumber" => return .line (← f.get 1)
  | "Frame" => return .frame (← f.get 1)
  | _ =>
    match ← Branch.ofWord? word f with
    | some b => return .branch b
    | none => return .insn (← Instruction.ofWord word f)

instance : OfForm Node where
  ofForm
    | .text word => .ofOption (Node.plain.lookup word)
    | f => do Node.ofWord (← .ofOption f.word?) f

instance : OfForm Operand where
  ofForm f := do
    match f.word? with
    | some "Literal" => return .literal (← f.get 1)
    | some "Local" => return .slot (← f.get 1)
    | some "Field" => return .field (← FieldRef.ofItems f 1)
    | some "Method" => return .method (← MethodRef.ofItems f 1)
    | some "Type" => return .type (← f.get 1)
    | some "Target" => return .target (← f.get 1)
    | _ => .shape

end ClassGraft
