import Std.Data.HashMap
import ClassGraft.Error

namespace ClassGraft

/-- The constants of a class by index. It only grows: what was read keeps its index and its encoding,
and a new constant goes behind the others unless an equal one is there. -/
structure Pool where
  /-- Slot 0 and the slots after wide constants hold nothing. -/
  slots : Array (Option Constant)
  /-- The encoding of the constants that were read, and the number of slots they take. -/
  source : Bytes
  sourceSlots : Nat
  /-- The lowest index of each constant. -/
  index : Std.HashMap Constant PoolIndex

/-- The fields and methods that pool entries name. -/
structure Member where
  owner : String
  name : String
  descriptor : String
  isInterface : Bool

namespace Pool

def empty : Pool := ⟨#[none], [], 1, ∅⟩

def size (p : Pool) : Nat := p.slots.size

/-- Puts a constant behind the others, whether there is one like it or not. -/
def append : Pool → Constant → Pool
  | ⟨slots, source, sourceSlots, index⟩, c =>
    let i := slots.size.toUInt16
    let slots := slots.push (some c)
    ⟨if c.isWide then slots.push none else slots, source, sourceSlots, index.insertIfNew c i⟩

/-- Reads constants until `count` slots are filled. -/
def readEntries (count : Nat) (p : Pool) : Reader Pool := fun s =>
  if p.size < count then
    match Constant.read s with
    | .error e => .error e
    | .ok (c, rest) => readEntries count (p.append c) rest
  else .ok (p, s)
termination_by count - p.size
decreasing_by
  simp only [size, append] at *
  split <;> simp only [Array.size_push] <;> omega

/-- A pool behind its number of slots, together with what follows it. -/
def read (s : Bytes) : Except ClassError (Pool × Bytes) := do
  let (count, s) ← (Reader.u16 s).mapError ClassError.unreadable
  let (p, rest) ← (readEntries count.toNat empty s).mapError ClassError.unreadable
  if p.size = count.toNat then
    return (⟨p.slots, s.take (s.length - rest.length), count.toNat, p.index⟩, rest)
  else throw (.malformedClass .wideOverrun)

/-- The constants that were added to those read, in order. -/
def added (p : Pool) : List Constant := (p.slots.toList.drop p.sourceSlots).filterMap id

def write (p : Pool) : Bytes :=
  Write.u16 p.size.toUInt16 ++ p.source ++ p.added.flatMap Constant.write

def constant (p : Pool) (i : PoolIndex) : Except ClassError Constant :=
  match p.slots[i.toNat]? with
  | some (some c) => .ok c
  | _ => .error (.invalidIndex i)

def utf8 (p : Pool) (i : PoolIndex) : Except ClassError String := do
  match ← p.constant i with
  | .utf8 s => return s
  | _ => throw (.unexpectedConstant i .utf8)

def className (p : Pool) (i : PoolIndex) : Except ClassError String := do
  match ← p.constant i with
  | .classRef name => p.utf8 name
  | _ => throw (.unexpectedConstant i .classRef)

def classType (p : Pool) (i : PoolIndex) : Except ClassError RefType := do
  let name ← p.className i
  (RefType.ofClassName name).mapError fun e => .badDescriptor (.cause e)

def nameAndType (p : Pool) (i : PoolIndex) : Except ClassError (String × String) := do
  match ← p.constant i with
  | .nameAndType name descriptor => return (← p.utf8 name, ← p.utf8 descriptor)
  | _ => throw (.unexpectedConstant i .nameAndType)

def member (p : Pool) (i : PoolIndex) : Except ClassError Member := do
  let (owner, nt, isInterface) ←
    match ← p.constant i with
    | .fieldRef owner nt => pure (owner, nt, false)
    | .methodRef owner nt isInterface => pure (owner, nt, isInterface)
    | _ => throw (.unexpectedConstant i .member)
  let (name, descriptor) ← p.nameAndType nt
  return ⟨← p.className owner, name, descriptor, isInterface⟩

end Pool

/-- Computations that look constants up and add those that are missing. What was added before a
failure stays. -/
abbrev PoolM := ExceptT ClassError (StateM Pool)

namespace Pool

/-- The result of a computation that succeeds, and the pool behind it. -/
def complete {ε α : Type} (p : Pool) (x : ExceptT ε (StateM Pool) α) : Except ε (α × Pool) :=
  match x p with
  | (.ok a, p) => .ok (a, p)
  | (.error e, _) => .error e

/-- The index of a constant, which is added if it is not there and fits. -/
def intern (c : Constant) : PoolM PoolIndex := fun p =>
  match p.index[c]? with
  | some i => (.ok i, p)
  | none =>
    if p.size + c.width > 65535 then (.error (.poolOverflow c p.size), p)
    else (.ok p.size.toUInt16, p.append c)

def internUtf8 (s : String) : PoolM PoolIndex := intern (.utf8 s)

def internClass (t : RefType) : PoolM PoolIndex := do
  intern (.classRef (← internUtf8 t.className))

def internString (s : String) : PoolM PoolIndex := do intern (.string (← internUtf8 s))

def internNameAndType (name descriptor : String) : PoolM PoolIndex := do
  intern (.nameAndType (← internUtf8 name) (← internUtf8 descriptor))

def internField (owner : BinaryName) (name descriptor : String) : PoolM PoolIndex := do
  intern (.fieldRef (← internClass (.object owner)) (← internNameAndType name descriptor))

def internMethod (owner : RefType) (name descriptor : String) (isInterface : Bool) :
    PoolM PoolIndex := do
  intern (.methodRef (← internClass owner) (← internNameAndType name descriptor) isInterface)

def internMethodType (descriptor : String) : PoolM PoolIndex := do
  intern (.methodType (← internUtf8 descriptor))

def internInvokeDynamic (bootstrap : UInt16) (name descriptor : String) : PoolM PoolIndex := do
  intern (.invokeDynamic bootstrap (← internNameAndType name descriptor))

/-- An attribute of a kind, whose name is looked up or added. -/
def internAttribute (k : AttributeKind) (content : k.Content) : PoolM Attribute := do
  return ⟨← internUtf8 k.name, k.write content⟩

end Pool

namespace Attribute

/-- The content of an attribute, which has to take up all of its bytes. -/
def decode (a : Attribute) (k : AttributeKind) : Except ClassError k.Content :=
  match k.read a.info with
  | .error e => .error (.malformedAttribute k (.unreadable e))
  | .ok (content, []) => .ok content
  | .ok (_, _ :: _) => .error (.malformedAttribute k .trailing)

end Attribute

end ClassGraft
