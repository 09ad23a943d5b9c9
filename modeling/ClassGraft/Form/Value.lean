import ClassGraft.Form.Words

namespace ClassGraft

open Form (tagged)

/-- A type by its parts, where it is not meant as a class name. -/
def RefType.parts : RefType → Form
  | .object c => tagged "Object" [toForm c]
  | .objectArray extra c => tagged "ObjectArray" [toForm (extra + 1), toForm c]
  | .primitiveArray extra t => tagged "PrimitiveArray" [toForm (extra + 1), toForm t]

def FieldType.parts : FieldType → Form
  | .base t => toForm t
  | .ref t => t.parts

instance : ToForm Literal where
  toForm
    | .int n => tagged "Integer" [toForm n]
    | .float bits => tagged "Float" [.bytes (Write.u32 bits)]
    | .long n => tagged "Long" [toForm n]
    | .double bits => tagged "Double" [.bytes (Write.u64 bits)]
    | .string s => tagged "String" [toForm s]
    | .classRef t => tagged "Class" [toForm t]
    | .methodType t => tagged "MethodType" [toForm t]
    | .methodHandle i => tagged "MethodHandle" [toForm i]
    | .dynamic i t => tagged "Dynamic" [toForm i, toForm t]

instance : OfForm Literal where
  ofForm f := do
    match f.word? with
    | some "Integer" => return .int (← f.get 1)
    | some "Float" => return .float (← (f.item 1).toWord).toUInt32
    | some "Long" => return .long (← f.get 1)
    | some "Double" => return .double (← (f.item 1).toWord).toUInt64
    | some "String" => return .string (← f.get 1)
    | some "Class" => return .classRef (← f.get 1)
    | some "MethodType" => return .methodType (← f.get 1)
    | some "MethodHandle" => return .methodHandle (← f.get 1)
    | some "Dynamic" => return .dynamic (← f.get 1) (← f.get 2)
    | _ => .shape

instance : ToForm Constant where
  toForm
    | .utf8 s => tagged "Utf8" [toForm s]
    | .integer n => tagged "Integer" [toForm n]
    | .float bits => tagged "Float" [.bytes (Write.u32 bits)]
    | .long n => tagged "Long" [toForm n]
    | .double bits => tagged "Double" [.bytes (Write.u64 bits)]
    | .classRef i => tagged "Class" [toForm i]
    | .string i => tagged "String" [toForm i]
    | .fieldRef c nt => tagged "FieldRef" [toForm c, toForm nt]
    | .methodRef c nt isInterface => tagged "MethodRef" [toForm c, toForm nt, toForm isInterface]
    | .nameAndType a b => tagged "NameAndType" [toForm a, toForm b]
    | .methodHandle k i => tagged "MethodHandle" [toForm k, toForm i]
    | .methodType i => tagged "MethodType" [toForm i]
    | .dynamic b nt => tagged "Dynamic" [toForm b, toForm nt]
    | .invokeDynamic b nt => tagged "InvokeDynamic" [toForm b, toForm nt]
    | .moduleName i => tagged "Module" [toForm i]
    | .packageName i => tagged "Package" [toForm i]

/-- The constants from an index on, each with its index. -/
def Pool.entriesFrom (p : Pool) (start : Nat) : Form :=
  toForm ((p.slots.toList.zipIdx.drop start).filterMap fun (c, i) => c.map fun c => (i, c))

namespace SlotType

variable {C U : Type}

/-- The types that have no parts. -/
def plain : List (String × SlotType C U) := [("Top", .top), ("Integer", .integer),
  ("Float", .float), ("Double", .double), ("Long", .long), ("Null", .null),
  ("UninitializedThis", .uninitializedThis)]

def form (c : C → Form) (u : U → List Form) : SlotType C U → Form
  | .top => .text "Top"
  | .integer => .text "Integer"
  | .float => .text "Float"
  | .double => .text "Double"
  | .long => .text "Long"
  | .null => .text "Null"
  | .uninitializedThis => .text "UninitializedThis"
  | .object a => tagged "Object" [c a]
  | .uninitialized a => tagged "Uninitialized" (u a)

end SlotType

instance : ToForm RawType := ⟨SlotType.form toForm fun offset => [toForm offset]⟩

instance : ToForm VerifyType := ⟨SlotType.form toForm fun u => [toForm u.type, toForm u.label]⟩

/-- A type without parts by its word, and any other one by what it starts with. -/
def SlotType.ofForm {C U : Type} (c u : Form → FormM (SlotType C U)) (f : Form) :
    FormM (SlotType C U) :=
  match f, f.word? with
  | .text word, _ => .ofOption (SlotType.plain.lookup word)
  | f, some "Object" => c f
  | f, some "Uninitialized" => u f
  | _, _ => .shape

instance : OfForm RawType :=
  ⟨SlotType.ofForm (fun f => return .object (← f.get 1)) fun f => return .uninitialized (← f.get 1)⟩

instance : OfForm VerifyType :=
  ⟨SlotType.ofForm (fun f => return .object (← f.get 1)) fun f =>
    return .uninitialized ⟨← f.get 1, ← f.get 2⟩⟩

section

variable {C U : Type}

/-- The top of a stack is written last. -/
instance [ToForm (SlotType C U)] : ToForm (FrameOf C U) where
  toForm f := .fields [("locals", toForm f.locals), ("stack", toForm f.stack.reverse)]

instance [OfForm (SlotType C U)] : OfForm (FrameOf C U) where
  ofForm f := do
    let stack : List (SlotType C U) ← ofForm (f.field "stack")
    return ⟨← ofForm (f.field "locals"), stack.reverse⟩

end

/-- A frame, or the frame at the start of a method with a descriptor. -/
def Frame.ofEntry? (f : Form) : FormM (Option Frame) := do
  match f.field "descriptor" with
  | .absent => ofForm f
  | d =>
    let owner ← ofForm (f.field "owner")
    return some (Frame.entry owner (← ofForm (f.field "static")) (← ofForm (f.field "constructor"))
      (← ofForm d))

instance : ToForm StackMapFrame where
  toForm
    | .same d => tagged "Same" [toForm d]
    | .sameOne d t => tagged "SameOne" [toForm d, toForm t]
    | .chop d count => tagged "Chop" [toForm d, toForm count]
    | .append d ts => tagged "Append" [toForm d, toForm ts]
    | .full d locals stack => tagged "Full" [toForm d, toForm locals, toForm stack]

instance : OfForm StackMapFrame where
  ofForm f := do
    match f.word? with
    | some "Same" => return .same (← f.get 1)
    | some "SameOne" => return .sameOne (← f.get 1) (← f.get 2)
    | some "Chop" => return .chop (← f.get 1) (← f.get 2)
    | some "Append" => return .append (← f.get 1) (← f.get 2)
    | some "Full" => return .full (← f.get 1) (← f.get 2) (← f.get 3)
    | _ => .shape

end ClassGraft
