import ClassGraft.Pool

namespace ClassGraft

/-- What tells constants apart. -/
inductive ConstantKey where
  | utf8 (text : String)
  | integer (n : Int32)
  | float (bits : UInt32)
  | long (n : Int64)
  | double (bits : UInt64)
  | classRef (name : UInt16)
  | string (text : UInt16)
  | fieldRef (owner nameAndType : UInt16)
  | methodRef (owner nameAndType : UInt16) (isInterface : Bool)
  | nameAndType (name descriptor : UInt16)
  | methodHandle (tag : UInt8) (member : UInt16)
  | methodType (descriptor : UInt16)
  | dynamic (bootstrap nameAndType : UInt16)
  | invokeDynamic (bootstrap nameAndType : UInt16)
  | moduleName (name : UInt16)
  | packageName (name : UInt16)
  deriving DecidableEq, Hashable

def Constant.key : Constant → ConstantKey
  | .utf8 text => .utf8 text
  | .integer n => .integer n
  | .float bits => .float bits
  | .long n => .long n
  | .double bits => .double bits
  | .classRef name => .classRef name
  | .string text => .string text
  | .fieldRef owner nt => .fieldRef owner nt
  | .methodRef owner nt isInterface => .methodRef owner nt isInterface
  | .nameAndType name descriptor => .nameAndType name descriptor
  | .methodHandle kind member => .methodHandle kind.tag member
  | .methodType descriptor => .methodType descriptor
  | .dynamic bootstrap nt => .dynamic bootstrap nt
  | .invokeDynamic bootstrap nt => .invokeDynamic bootstrap nt
  | .moduleName name => .moduleName name
  | .packageName name => .packageName name

section

variable {κ : Type} [BEq κ] [Hashable κ] (key : Constant → κ)

/-- Enters the constant of a slot, if it holds one whose key is new. -/
def enterSlot (table : Std.HashMap κ PoolIndex) : Option Constant × Nat → Std.HashMap κ PoolIndex
  | (some c, n) => table.insertIfNew (key c) n.toUInt16
  | (none, _) => table

/-- The first index of each key. -/
def tabulate (slots : Array (Option Constant)) : Std.HashMap κ PoolIndex :=
  slots.toList.zipIdx.foldl (enterSlot key) ∅

end

structure LazyPool where
  slots : Array (Option Constant)
  source : Bytes
  sourceSlots : Nat
  /-- There is none until a constant is asked for. -/
  lookup : Option (Std.HashMap ConstantKey PoolIndex)

/-- Computations that ask for constants. What was added before a failure stays. -/
abbrev LazyPoolM := ExceptT ClassError (StateM LazyPool)

namespace LazyPool

def empty : LazyPool := ⟨#[none], [], 1, none⟩

def read (s : Bytes) : Except ClassError (LazyPool × Bytes) := do
  let (p, rest) ← Pool.read s
  return (⟨p.slots, p.source, p.sourceSlots, none⟩, rest)

/-- The pool that is held. -/
def pool (z : LazyPool) : Pool := ⟨z.slots, z.source, z.sourceSlots, tabulate id z.slots⟩

/-- The table is made, unless it is there. -/
def tabled (z : LazyPool) : LazyPool :=
  match z.lookup with
  | some _ => z
  | none => { z with lookup := some (tabulate Constant.key z.slots) }

/-- Puts a constant behind the others, if it fits. -/
def push (c : Constant) : LazyPoolM PoolIndex := fun z =>
  if z.slots.size + c.width > 65535 then (.error (.poolOverflow c z.slots.size), z)
  else
    let slots := z.slots.push (some c)
    (.ok z.slots.size.toUInt16, { z with slots := if c.isWide then slots.push none else slots })

/-- The index of a constant, which is added if it is not there and fits. -/
def intern (c : Constant) : LazyPoolM PoolIndex := do
  modify tabled
  match (← get).lookup.bind (·[c.key]?) with
  | some i => return i
  | none =>
    let i ← push c
    modify fun z => { z with lookup := z.lookup.map (·.insert c.key i) }
    return i

def internUtf8 (s : String) : LazyPoolM PoolIndex := intern (.utf8 s)

def internClass (t : RefType) : LazyPoolM PoolIndex := do
  intern (.classRef (← internUtf8 t.className))

def internNameAndType (name descriptor : String) : LazyPoolM PoolIndex := do
  intern (.nameAndType (← internUtf8 name) (← internUtf8 descriptor))

def internField (owner : BinaryName) (name descriptor : String) : LazyPoolM PoolIndex := do
  intern (.fieldRef (← internClass (.object owner)) (← internNameAndType name descriptor))

def internMethod (owner : RefType) (name descriptor : String) (isInterface : Bool) :
    LazyPoolM PoolIndex := do
  intern (.methodRef (← internClass owner) (← internNameAndType name descriptor) isInterface)

end LazyPool

end ClassGraft
