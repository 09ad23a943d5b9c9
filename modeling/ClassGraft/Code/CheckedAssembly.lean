import ClassGraft.Code.Assembly
import ClassGraft.Halt

namespace ClassGraft

namespace Halting

/-- An offset, a size, or a sum of such. -/
def size (n : Nat) : Halting Nat := if n ≤ 18446744073709551615 then .ok n else .error .overflow

/-- What is left of a size. -/
def less (m n : Nat) : Halting Nat := if n ≤ m then .ok (m - n) else .error .overflow

def word (n : Int) : Halting Int32 :=
  if -2147483648 ≤ n ∧ n ≤ 2147483647 then .ok (Int32.ofInt n) else .error .overflow

def addBytes (m n : UInt8) : Halting UInt8 :=
  if m.toNat + n.toNat < 256 then .ok (m + n) else .error .overflow

def lessBytes (m n : UInt8) : Halting UInt8 := if n ≤ m then .ok (m - n) else .error .overflow

def toUInt16 (n : Nat) : Halting UInt16 := if n ≤ 65535 then .ok n.toUInt16 else .error .lossy

def toInt32 (n : Nat) : Halting Int32 := if n ≤ 2147483647 then .ok (Int32.ofNat n) else .error .lossy

def expect (p : Prop) [Decidable p] : Halting Unit := if p then .ok () else .error .assertion

end Halting

def slotFormChecked (short normal : UInt8) (slot : UInt16) : Halting Bytes := do
  if slot < 4 then return [← Halting.addBytes short slot.toUInt8]
  else return slotForm short normal slot

def Instruction.encodeChecked : Instruction → HaltingM Bytes
  | .load k slot => slotFormChecked (0x1A + 4 * k.code) (0x15 + k.code) slot
  | .store k slot => slotFormChecked (0x3B + 4 * k.code) (0x36 + k.code) slot
  | i => i.encode

def switchPaddingChecked (offset : Nat) : Halting Nat := do
  let next ← Halting.size (offset + 1)
  return (← Halting.less 4 (next % 4)) % 4

namespace Branch

def sizeChecked {L : Type} (offset : Nat) : Branch L → Halting Nat
  | .tableSwitch _ _ targets => do
    let head ← Halting.size (1 + (← switchPaddingChecked offset))
    let words ← Halting.size (3 + targets.length)
    Halting.size (head + (← Halting.size (4 * words)))
  | .lookupSwitch _ cases => do
    let head ← Halting.size (1 + (← switchPaddingChecked offset))
    let pairs ← Halting.size (1 + cases.length)
    Halting.size (head + (← Halting.size (8 * pairs)))
  | b => return b.size offset

variable (offset : Nat) (place : Label → Halting Nat)

/-- The distance to a label. -/
def distance (l : Label) : Halting Int32 := do
  let target ← Halting.toInt32 (← place l)
  Halting.word (target.toInt - (← Halting.toInt32 offset).toInt)

def farJumpChecked (l : Label) : Halting Bytes := do return Write.i32 (← distance offset place l)

def nearJumpChecked (l : Label) : Halting Bytes := do
  let relative := (← distance offset place l).toInt
  if -32768 ≤ relative ∧ relative ≤ 32767 then return Write.i16 (Int16.ofInt relative)
  else throw (.error (.jumpTooFar l relative))

/-- The last key of a table. One is taken off the sum of the first key and the number of targets. -/
def lastKey (low : Int32) (count : Nat) : Halting Int32 := do
  let sum ← Halting.word (low.toInt + (← Halting.toInt32 count).toInt)
  Halting.word (sum.toInt - 1)

def encodeChecked (b : Branch Label) : Halting Bytes :=
  b.encodeWith (switchPaddingChecked offset) (nearJumpChecked offset place)
    (farJumpChecked offset place) lastKey Halting.toInt32

end Branch

/-- The pieces that are laid out, last first, and the offset behind them. -/
structure Draft where
  offset : Nat
  seen : List (Nat × Piece)

namespace Draft

def put (d : Draft) (p : Piece) (size : Nat) : Halting Draft := do
  return ⟨← Halting.size (d.offset + size), (d.offset, p) :: d.seen⟩

def add (d : Draft) : Node → HaltingM Draft
  | .insn i => do
    let bs ← i.encodeChecked
    d.put (.bytes bs) bs.length
  | .branch b => do d.put (.branch b) (← b.sizeChecked d.offset)
  | .label l => d.put (.label l) 0
  | .line n => d.put (.line n) 0
  | .frame f => d.put (.frame f) 0

def layout (d : Draft) : Layout := ⟨d.seen.reverse, d.offset⟩

end Draft

namespace Layout

def emitChecked (place : Label → Halting Nat) : Nat × Piece → Halting Bytes
  | (_, .bytes bs) => .ok bs
  | (o, .branch b) => b.encodeChecked o place
  | _ => .ok []

def linesChecked (l : Layout) : Halting (List LineEntry) :=
  (l.pieces.filterMap fun
    | (o, .line n) => if o < l.length then some (o, n) else none
    | _ => none).mapM fun (o, n) => return ⟨← Halting.toUInt16 o, n⟩

end Layout

section Tables

variable (place : Label → Halting Nat)

def TryBlock.encodeChecked (t : TryBlock) : HaltingM (Option ExceptionEntry) := do
  let start ← place t.start
  let stop ← place t.stop
  let handler ← place t.handler
  if stop ≤ start then return none
  let caught ←
    match t.caught with
    | none => pure 0
    | some c => Pool.internClass (.object c)
  return some ⟨← Halting.toUInt16 start, ← Halting.toUInt16 stop, ← Halting.toUInt16 handler, caught⟩

def LocalRange.encodeChecked (v : LocalRange) : HaltingM (Option (LocalEntry × Bool)) := do
  let start ← place v.start
  let stop ← place v.stop
  if stop < start then return none
  let first ← Halting.toUInt16 start
  let length ← Halting.toUInt16 (← Halting.less stop start)
  let name ← Pool.internUtf8 v.name
  let descriptor ← Pool.internUtf8 v.descriptor
  return some (⟨first, length, name, descriptor, v.index⟩, v.isSignature)

def Frame.toRawChecked (f : Frame) : HaltingM RawFrame := do
  let raw (t : VerifyType) : HaltingM RawType :=
    t.mapM (fun c => Pool.internClass c) fun site => do Halting.toUInt16 (← place site.label)
  let locals ← f.locals.mapM raw
  let stack ← f.stack.reverse.mapM raw
  return ⟨locals, stack.reverse⟩

/-- The shortest entry for a frame behind another one, by the difference of their numbers of locals. -/
def RawFrame.entryChecked (f : RawFrame) (delta : UInt16) (previous : RawFrame) :
    Halting StackMapFrame := do
  let new := f.packed
  let old := previous.packed
  match f.stack with
  | [] =>
    if new.length ≤ old.length then
      let fewer ← Halting.less old.length new.length
      if fewer < 4 ∧ new = old.take new.length then
        if fewer = 0 then return .same delta else return .chop delta fewer.toUInt8
      else return f.full delta
    else if (← Halting.less new.length old.length) < 4 then
      if old = new.take old.length then return .append delta (new.drop old.length)
      else return f.full delta
    else return f.full delta
  | [item] => if new = old then return .sameOne delta item else return f.full delta
  | _ => return f.full delta

/-- Stack map entries for frames by ascending offset. An entry counts from behind the one before it,
which stands at the offset given. -/
def framesChecked (before : RawFrame) :
    Option Nat → List (Nat × Frame) → HaltingM (List StackMapFrame)
  | _, [] => return []
  | previous, (offset, f) :: fs => do
    let f ← f.toRawChecked place
    if previous = some offset then
      if f = before then framesChecked before previous fs
      else throw (.error (.conflictingFrames offset))
    else
      let delta ←
        match previous with
        | none => pure offset
        | some o => do Halting.less (← Halting.less offset o) 1
      let e ← f.entryChecked (← Halting.toUInt16 delta) before
      return e :: (← framesChecked f (some offset) fs)

end Tables

namespace StackMapFrame

/-- The bytes of an entry, with the kind of the entry in a byte. -/
def writeChecked : StackMapFrame → Halting Bytes
  | .sameOne d item => do
    if d ≤ 63 then return (← Halting.addBytes d.toUInt8 64) :: item.write
    else return 247 :: Write.u16 d ++ item.write
  | .chop d count => do
    Halting.expect (0 < count ∧ count < 4)
    return (← Halting.lessBytes 251 count) :: Write.u16 d
  | .append d locals => do
    Halting.expect (0 < locals.length ∧ locals.length < 4)
    return (← Halting.addBytes 251 locals.length.toUInt8) :: Write.u16 d ++
      locals.flatMap RawType.write
  | e => return e.write

end StackMapFrame

/-- The attribute for stack map entries, unless it would be empty. -/
def stackMapChecked (es : List StackMapFrame) : HaltingM (List Attribute) := do
  if es.isEmpty then return []
  else
    let name ← Pool.internUtf8 AttributeKind.stackMapTable.name
    let parts ← es.mapM fun e => (e.writeChecked : HaltingM Bytes)
    return [⟨name, Write.u16 es.length.toUInt16 ++ parts.flatten⟩]

def Body.encodeChecked (b : Body) (maxStack maxLocals : UInt16) (entry : Option Frame) :
    HaltingM CodeAttribute := do
  let layout := (← b.nodes.foldlM Draft.add ⟨0, []⟩).layout
  if 65535 < layout.length then throw (.error (.codeTooLong layout.length))
  let place (l : Label) : Halting Nat := Layout.placeOf layout.labels l
  let code ← layout.pieces.mapM fun p => (Layout.emitChecked place p : HaltingM Bytes)
  let exceptions ← b.tryBlocks.mapM (TryBlock.encodeChecked place)
  let lines ← tableAttribute .lineNumberTable id (← layout.linesChecked)
  let locals := (← b.locals.mapM (LocalRange.encodeChecked place)).filterMap id
  let plain := (locals.filter fun v => !v.2).map Prod.fst
  let generic := (locals.filter fun v => v.2).map Prod.fst
  let named ← tableAttribute .localVariableTable id plain
  let signed ← tableAttribute .localVariableTypeTable id generic
  let frames ←
    match entry with
    | none => pure []
    | some entry => do
      let before ← entry.toRawChecked place
      stackMapChecked (← framesChecked place before none layout.frames)
  return ⟨maxStack, maxLocals, code.flatten, exceptions.filterMap id,
    lines ++ named ++ signed ++ frames⟩

end ClassGraft
