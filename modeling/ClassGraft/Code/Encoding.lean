import ClassGraft.Pool
import ClassGraft.Code.Opcode

namespace ClassGraft

/-- Looks the entry for a literal up, or adds it. -/
def Literal.intern : Literal → PoolM PoolIndex
  | .int n => Pool.intern (.integer n)
  | .float bits => Pool.intern (.float bits)
  | .long n => Pool.intern (.long n)
  | .double bits => Pool.intern (.double bits)
  | .string s => Pool.internString s
  | .classRef t => Pool.internClass t
  | .methodType t => Pool.internMethodType t.text
  | .methodHandle index => return index
  | .dynamic index _ => return index

/-- A load or a store in its shortest form: four slots have opcodes of their own, and slots above 255
need a prefix. -/
def slotForm (short normal : UInt8) (slot : UInt16) : Bytes :=
  if slot < 4 then [short + slot.toUInt8]
  else if slot < 256 then [normal, slot.toUInt8]
  else 0xC4 :: normal :: Write.u16 slot

def incrementForm (slot : UInt16) (amount : Int16) : Bytes :=
  if slot < 256 && amount.toInt8.toInt16 = amount then [0x84, slot.toUInt8, amount.toInt8.toUInt8]
  else 0xC4 :: 0x84 :: Write.u16 slot ++ Write.i16 amount

def ldcForm (width : Nat) (index : PoolIndex) : Bytes :=
  if width = 2 then 0x14 :: Write.u16 index
  else if index < 256 then [0x12, index.toUInt8]
  else 0x13 :: Write.u16 index

def Instruction.encode (i : Instruction) : PoolM Bytes := do
  match i with
  | .bipush n => return [0x10, n.toUInt8]
  | .sipush n => return 0x11 :: Write.i16 n
  | .ldc l => return ldcForm l.width (← l.intern)
  | .load k slot => return slotForm (0x1A + 4 * k.code) (0x15 + k.code) slot
  | .store k slot => return slotForm (0x3B + 4 * k.code) (0x36 + k.code) slot
  | .increment slot amount => return incrementForm slot amount
  | .field a f =>
    return (0xB2 + a.code) :: Write.u16 (← Pool.internField f.owner f.name.text f.type.text)
  | .invoke k m =>
    let index ← Pool.internMethod m.owner m.name.text m.type.text m.isInterface
    let call := (0xB6 + k.code) :: Write.u16 index
    return if k = .interface then call ++ [(m.type.parameterSlots true).toUInt8, 0] else call
  | .invokeDynamic c =>
    let index ← Pool.internInvokeDynamic c.bootstrap c.name.text c.type.text
    return 0xBA :: Write.u16 index ++ [0, 0]
  | .new c => return 0xBB :: Write.u16 (← Pool.internClass (.object c))
  | .newArray t => return [0xBC, t.arrayCode]
  | .newRefArray t => return 0xBD :: Write.u16 (← Pool.internClass t)
  | .checkCast t => return 0xC0 :: Write.u16 (← Pool.internClass t)
  | .instanceOf t => return 0xC1 :: Write.u16 (← Pool.internClass t)
  | .newMultiArray t dimensions =>
    return 0xC5 :: Write.u16 (← Pool.internClass t) ++ [dimensions]
  | i => return i.opcode?.toList

/-- The zero bytes behind the opcode of a switch, up to the next multiple of four. -/
def switchPadding (offset : Nat) : Nat := (4 - (offset + 1) % 4) % 4

namespace Branch

/-- The number of bytes that a branch takes at an offset. -/
def size {L : Type} (offset : Nat) : Branch L → Nat
  | .leave _ | .athrow => 1
  | .ret slot => if slot < 256 then 2 else 4
  | .goto _ | .jsr _ | .ifZero _ _ | .ifInt _ _ | .ifRef _ _ | .ifNull _ _ => 3
  | .gotoWide _ | .jsrWide _ => 5
  | .tableSwitch _ _ targets => 1 + switchPadding offset + 4 * (3 + targets.length)
  | .lookupSwitch _ cases => 1 + switchPadding offset + 8 * (1 + cases.length)

/-- The distance to a label in four bytes. -/
def farJump (offset : Nat) (place : Label → Except ClassError Nat) (l : Label) :
    Except ClassError Bytes := do
  return Write.i32 (Int32.ofInt ((← place l) - offset))

/-- The distance to a label in two bytes, if it fits. -/
def nearJump (offset : Nat) (place : Label → Except ClassError Nat) (l : Label) :
    Except ClassError Bytes := do
  let relative : Int := (← place l) - offset
  if -32768 ≤ relative ∧ relative ≤ 32767 then return Write.i16 (Int16.ofInt relative)
  else throw (.jumpTooFar l relative)

/-- The bytes of a branch. How its switch is padded, its labels are reached and the last key and the count
of a switch are computed is given. -/
def encodeWith {m : Type → Type} [Monad m] (padding : m Nat) (near far : Label → m Bytes)
    (last : Int32 → Nat → m Int32) (count : Nat → m Int32) : Branch Label → m Bytes
  | .ifZero c l => return (0x99 + c.code) :: (← near l)
  | .ifInt c l => return (0x9F + c.code) :: (← near l)
  | .ifRef c l => return (0xA5 + c.code) :: (← near l)
  | .ifNull c l => return (0xC6 + c.code) :: (← near l)
  | .goto l => return 0xA7 :: (← near l)
  | .jsr l => return 0xA8 :: (← near l)
  | .gotoWide l => return 0xC8 :: (← far l)
  | .jsrWide l => return 0xC9 :: (← far l)
  | .ret slot =>
    return if slot < 256 then [0xA9, slot.toUInt8] else 0xC4 :: 0xA9 :: Write.u16 slot
  | .tableSwitch default low targets => do
    let zeros ← padding
    let other ← far default
    let high ← last low targets.length
    let jumps ← targets.mapM far
    return 0xAA :: List.replicate zeros 0 ++ other ++ Write.i32 low ++ Write.i32 high ++ jumps.flatten
  | .lookupSwitch default cases => do
    let zeros ← padding
    let other ← far default
    let size ← count cases.length
    let jumps ← cases.mapM fun (key, l) => return Write.i32 key ++ (← far l)
    return 0xAB :: List.replicate zeros 0 ++ other ++ Write.i32 size ++ jumps.flatten
  | .leave (some k) => return [0xAC + k.code]
  | .leave none => return [0xB1]
  | .athrow => return [0xBF]

def encode (offset : Nat) (place : Label → Except ClassError Nat) (b : Branch Label) :
    Except ClassError Bytes :=
  b.encodeWith (pure (switchPadding offset)) (nearJump offset place) (farJump offset place)
    (fun low n => pure (Int32.ofInt (low.toInt + n - 1))) (fun n => pure (Int32.ofNat n))

end Branch

end ClassGraft
