import ClassGraft.Code.Encoding

namespace ClassGraft

/-- An instruction as it is read, with offsets for jump targets. -/
abbrev CodeItem := Instruction ⊕ Branch Nat

/-- What is left of a code array, and the offset at which it starts. -/
structure Cursor where
  offset : Nat
  rest : Bytes

abbrev CodeReader := StateT Cursor (Except ClassError)

/-- Where an instruction stands: its pool, the length of the code and its offset. -/
structure CodeSite where
  pool : Pool
  length : Nat
  offset : Nat

namespace Pool

def parsed {α : Type} (parse : String → Except DescriptorError α) (s : String) :
    Except ClassError α :=
  (parse s).mapError fun e => .badDescriptor (.both s e)

def memberName (s : String) : Except ClassError MemberName :=
  (MemberName.ofString s).mapError .malformedName

def plainClass (p : Pool) (i : PoolIndex) : Except ClassError BinaryName := do
  match ← p.classType i with
  | .object n => return n
  | _ => throw (.unexpectedConstant i .plainClass)

def fieldRef (p : Pool) (i : PoolIndex) : Except ClassError FieldRef := do
  let m ← p.member i
  let owner ← (BinaryName.ofString m.owner).mapError .malformedName
  return ⟨owner, ← memberName m.name, ← parsed FieldType.parse m.descriptor⟩

def methodRef (p : Pool) (i : PoolIndex) : Except ClassError MethodRef := do
  let m ← p.member i
  let owner ← (RefType.ofClassName m.owner).mapError fun e => .badDescriptor (.cause e)
  return ⟨owner, ← memberName m.name, ← parsed MethodType.parse m.descriptor, m.isInterface⟩

def callSite (p : Pool) (i : PoolIndex) : Except ClassError CallSite := do
  match ← p.constant i with
  | .invokeDynamic bootstrap nt =>
    let (name, descriptor) ← p.nameAndType nt
    return ⟨bootstrap, ← memberName name, ← parsed MethodType.parse descriptor⟩
  | _ => throw (.unexpectedConstant i .invokeDynamic)

/-- The constant that an index stands for where a constant is loaded. -/
def literal (p : Pool) (i : PoolIndex) : Except ClassError Literal := do
  match ← p.constant i with
  | .integer n => return .int n
  | .float bits => return .float bits
  | .long n => return .long n
  | .double bits => return .double bits
  | .string s => return .string (← p.utf8 s)
  | .classRef _ => return .classRef (← p.classType i)
  | .methodType d => return .methodType (← parsed MethodType.parse (← p.utf8 d))
  | .methodHandle _ _ => return .methodHandle i
  | .dynamic _ nt => return .dynamic i (← parsed FieldType.parse (← p.nameAndType nt).2)
  | _ => throw (.unexpectedConstant i .loadable)

end Pool

namespace CodeSite

def fail {α : Type} (e : ClassError) : CodeReader α := fun _ => .error e

def malformed {α : Type} (fault : AttributeFault) : CodeReader α :=
  fail (.malformedAttribute .code fault)

/-- Reads the next `n` bytes of the instruction. -/
def fetch {α : Type} (c : CodeSite) (n : Nat) (r : Reader α) : CodeReader α := fun s =>
  match r s.rest with
  | .ok (a, rest) => .ok (a, ⟨s.offset + n, rest⟩)
  | .error e => .error (.malformedAttribute .code (.truncatedInstruction c.offset e))

/-- Looks something up without reading. -/
def look {α : Type} (x : Except ClassError α) : CodeReader α := fun s => x.map fun a => (a, s)

def u8 (c : CodeSite) : CodeReader UInt8 := c.fetch 1 Reader.u8
def i8 (c : CodeSite) : CodeReader Int8 := c.fetch 1 Reader.i8
def u16 (c : CodeSite) : CodeReader UInt16 := c.fetch 2 Reader.u16
def i16 (c : CodeSite) : CodeReader Int16 := c.fetch 2 Reader.i16
def i32 (c : CodeSite) : CodeReader Int32 := c.fetch 4 Reader.i32
def skip (c : CodeSite) (n : Nat) : CodeReader Bytes := c.fetch n (Reader.raw n)

/-- The offset at a distance, which has to be inside the code. -/
def jump (c : CodeSite) (relative : Int) : Except ClassError Nat :=
  let target : Int := c.offset + relative
  if target < 0 ∨ c.length ≤ target then .error (.invalidTarget c.offset target)
  else .ok target.toNat

def byteSlot (c : CodeSite) : CodeReader UInt16 := return (← c.u8).toUInt16

def near (c : CodeSite) : CodeReader Nat := do
  look (c.jump (← c.i16).toInt)

def far (c : CodeSite) : CodeReader Nat := do
  look (c.jump (← c.i32).toInt)

def classAt (c : CodeSite) : CodeReader RefType := do look (c.pool.classType (← c.u16))

def lookupCase (c : CodeSite) : CodeReader (Int32 × Nat) :=
  return (← c.i32, ← c.far)

def tableSwitch (c : CodeSite) : CodeReader (Branch Nat) := do
  let _ ← c.skip (switchPadding c.offset)
  let default ← c.far
  let low ← c.i32
  let high ← c.i32
  if high < low then malformed (.switchBounds c.offset low high)
  else return .tableSwitch default low (← Reader.times (high.toInt - low.toInt + 1).toNat c.far)

def lookupSwitch (c : CodeSite) : CodeReader (Branch Nat) := do
  let _ ← c.skip (switchPadding c.offset)
  let default ← c.far
  let count ← c.i32
  if count < 0 then malformed (.switchPairs c.offset count)
  else return .lookupSwitch default (← Reader.times count.toInt.toNat c.lookupCase)

/-- What follows the prefix for wide operands. -/
def wide (c : CodeSite) : CodeReader CodeItem := do
  let op ← c.u8
  if 0x15 ≤ op ∧ op ≤ 0x19 then return .inl (.load (.ofCode (op - 0x15)) (← c.u16))
  else if 0x36 ≤ op ∧ op ≤ 0x3A then return .inl (.store (.ofCode (op - 0x36)) (← c.u16))
  else if op = 0x84 then return .inl (.increment (← c.u16) (← c.i16))
  else if op = 0xA9 then return .inr (.ret (← c.u16))
  else fail (.invalidOpcode (c.offset + 1) op)

/-- A branch of more than one byte. -/
def branch (c : CodeSite) (op : UInt8) : CodeReader (Branch Nat) :=
  if op ≤ 0x9E then return .ifZero (.ofCode (op - 0x99)) (← c.near)
  else if op ≤ 0xA4 then return .ifInt (.ofCode (op - 0x9F)) (← c.near)
  else if op ≤ 0xA6 then return .ifRef (if op = 0xA5 then .eq else .ne) (← c.near)
  else if op = 0xA7 then return .goto (← c.near)
  else if op = 0xA8 then return .jsr (← c.near)
  else if op = 0xA9 then return .ret (← c.byteSlot)
  else if op = 0xAA then c.tableSwitch
  else if op = 0xAB then c.lookupSwitch
  else if op = 0xC6 then return .ifNull .eq (← c.near)
  else if op = 0xC7 then return .ifNull .ne (← c.near)
  else if op = 0xC8 then return .gotoWide (← c.far)
  else if op = 0xC9 then return .jsrWide (← c.far)
  else fail (.invalidOpcode c.offset op)

def newArray (c : CodeSite) : CodeReader Instruction := do
  let code ← c.u8
  match BaseType.ofArrayCode? code with
  | some t => return .newArray t
  | none => malformed (.unknownArrayType c.offset code)

def invoke (c : CodeSite) (k : InvokeKind) : CodeReader Instruction := do
  let m ← look (c.pool.methodRef (← c.u16))
  if k = .interface then
    let _ ← c.skip 2
  return .invoke k m

/-- An instruction of more than one byte. -/
def instruction (c : CodeSite) (op : UInt8) : CodeReader Instruction :=
  if op = 0x10 then return .bipush (← c.i8)
  else if op = 0x11 then return .sipush (← c.i16)
  else if op = 0x12 then return .ldc (← look (c.pool.literal (← c.byteSlot)))
  else if op ≤ 0x14 then return .ldc (← look (c.pool.literal (← c.u16)))
  else if op ≤ 0x19 then return .load (.ofCode (op - 0x15)) (← c.byteSlot)
  else if op ≤ 0x3A then return .store (.ofCode (op - 0x36)) (← c.byteSlot)
  else if op = 0x84 then return .increment (← c.byteSlot) (← c.i8).toInt16
  else if op ≤ 0xB5 then
    return .field (.ofCode (op - 0xB2)) (← look (c.pool.fieldRef (← c.u16)))
  else if op ≤ 0xB9 then c.invoke (.ofCode (op - 0xB6))
  else if op = 0xBA then do
    let site ← look (c.pool.callSite (← c.u16))
    let _ ← c.skip 2
    return .invokeDynamic site
  else if op = 0xBB then return .new (← look (c.pool.plainClass (← c.u16)))
  else if op = 0xBC then c.newArray
  else if op = 0xBD then return .newRefArray (← c.classAt)
  else if op = 0xC0 then return .checkCast (← c.classAt)
  else if op = 0xC1 then return .instanceOf (← c.classAt)
  else do
    let t ← c.classAt
    return .newMultiArray t (← c.u8)

/-- Does an opcode start a branch of more than one byte? -/
def isBranch (op : UInt8) : Bool :=
  (0x99 ≤ op && op ≤ 0xAB) || (0xC6 ≤ op && op ≤ 0xC9)

/-- The instruction that starts with an opcode. -/
def item (c : CodeSite) (op : UInt8) : CodeReader CodeItem :=
  match Instruction.ofOpcode? op, Branch.ofOpcode? op with
  | some i, _ => return .inl i
  | none, some b => return .inr b
  | none, none =>
    if isBranch op then return .inr (← c.branch op)
    else if op = 0xC4 then c.wide
    else if 0xC5 < op then fail (.invalidOpcode c.offset op)
    else return .inl (← c.instruction op)

end CodeSite

end ClassGraft
