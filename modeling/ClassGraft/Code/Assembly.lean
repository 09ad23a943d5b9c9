import ClassGraft.Code.Body
import ClassGraft.Code.Encoding
import ClassGraft.Frame.StackMap

namespace ClassGraft

/-- A node whose instruction is encoded, unless its bytes depend on where it lies. -/
inductive Piece where
  | bytes (bs : Bytes)
  | branch (b : Branch Label)
  | label (l : Label)
  | line (n : UInt16)
  | frame (f : Frame)

namespace Piece

def ofNode : Node → PoolM Piece
  | .insn i => return .bytes (← i.encode)
  | .branch b => return .branch b
  | .label l => return .label l
  | .line n => return .line n
  | .frame f => return .frame f

/-- The number of bytes that a piece takes at an offset. -/
def size (offset : Nat) : Piece → Nat
  | .bytes bs => bs.length
  | .branch b => b.size offset
  | _ => 0

end Piece

/-- Pieces with their offsets, and the offset behind them. -/
structure Layout where
  pieces : List (Nat × Piece)
  length : Nat

namespace Layout

/-- Lays pieces out from an offset on, behind those that are given, last first. -/
def arrange (offset : Nat) (seen : List (Nat × Piece)) : List Piece → Layout
  | [] => ⟨seen.reverse, offset⟩
  | p :: ps => arrange (offset + p.size offset) ((offset, p) :: seen) ps

def ofPieces (ps : List Piece) : Layout := arrange 0 [] ps

def labels (l : Layout) : List (Label × Nat) :=
  l.pieces.filterMap fun
    | (o, .label l) => some (l, o)
    | _ => none

/-- The offset of a label among those given. -/
def placeOf (labels : List (Label × Nat)) (l : Label) : Except ClassError Nat :=
  match labels.lookup l with
  | some o => .ok o
  | none => .error (.danglingLabel l)

/-- The line numbers of instructions; one at the very end belongs to none. -/
def lines (l : Layout) : List LineEntry :=
  l.pieces.filterMap fun
    | (o, .line n) => if o < l.length then some ⟨o.toUInt16, n⟩ else none
    | _ => none

def frames (l : Layout) : List (Nat × Frame) :=
  l.pieces.filterMap fun
    | (o, .frame f) => if o < l.length then some (o, f) else none
    | _ => none

def emit (place : Label → Except ClassError Nat) : Nat × Piece → Except ClassError Bytes
  | (_, .bytes bs) => .ok bs
  | (o, .branch b) => b.encode o place
  | _ => .ok []

end Layout

/-- The entry of a block, unless its range is empty. -/
def TryBlock.encode (place : Label → Except ClassError Nat) (t : TryBlock) :
    PoolM (Option ExceptionEntry) := do
  let start ← place t.start
  let stop ← place t.stop
  let handler ← place t.handler
  if stop ≤ start then return none
  let caught ←
    match t.caught with
    | none => pure 0
    | some c => Pool.internClass (.object c)
  return some ⟨start.toUInt16, stop.toUInt16, handler.toUInt16, caught⟩

/-- The entry of a local variable, unless its range is reversed. -/
def LocalRange.encode (place : Label → Except ClassError Nat) (v : LocalRange) :
    PoolM (Option (LocalEntry × Bool)) := do
  let start ← place v.start
  let stop ← place v.stop
  if stop < start then return none
  let name ← Pool.internUtf8 v.name
  let descriptor ← Pool.internUtf8 v.descriptor
  return some (⟨start.toUInt16, (stop - start).toUInt16, name, descriptor, v.index⟩, v.isSignature)

/-- Stack map entries for frames by ascending offset. A frame may be repeated at its offset, but not
contradicted. `base` is the offset from which the next one counts. -/
def encodeFrames (place : Label → Except ClassError Nat) (base : Nat) (before : RawFrame) :
    List (Nat × Frame) → PoolM (List StackMapFrame)
  | [] => return []
  | (offset, f) :: fs => do
    let f ← f.toRaw place
    if offset < base then
      if f = before then encodeFrames place base before fs
      else throw (.conflictingFrames offset)
    else
      let e := f.entry (offset - base).toUInt16 before
      return e :: (← encodeFrames place (offset + 1) f fs)

/-- The attribute of a kind, unless it would be empty. -/
def tableAttribute {α : Type} (k : AttributeKind) (wrap : List α → k.Content) (xs : List α) :
    PoolM (List Attribute) := do
  if xs.isEmpty then return [] else return [← Pool.internAttribute k (wrap xs)]

/-- The code attribute of a body. Jumps keep the form they have; one that does not fit is an error. With
an entry frame the frames of the body are written as differences from it. -/
def Body.encode (b : Body) (maxStack maxLocals : UInt16) (entry : Option Frame) :
    PoolM CodeAttribute := do
  let layout := Layout.ofPieces (← b.nodes.mapM Piece.ofNode)
  if 65535 < layout.length then throw (.codeTooLong layout.length)
  let place := Layout.placeOf layout.labels
  let code ← layout.pieces.mapM fun p => (Layout.emit place p : Except ClassError Bytes)
  let exceptions ← b.tryBlocks.mapM (TryBlock.encode place)
  let lines ← tableAttribute .lineNumberTable id layout.lines
  let locals := (← b.locals.mapM (LocalRange.encode place)).filterMap id
  let plain := (locals.filter fun v => !v.2).map Prod.fst
  let generic := (locals.filter fun v => v.2).map Prod.fst
  let named ← tableAttribute .localVariableTable id plain
  let signed ← tableAttribute .localVariableTypeTable id generic
  let frames ←
    match entry with
    | none => pure []
    | some entry => do
      let before ← entry.toRaw place
      tableAttribute .stackMapTable id (← encodeFrames place 0 before layout.frames)
  return ⟨maxStack, maxLocals, code.flatten, exceptions.filterMap id,
    lines ++ named ++ signed ++ frames⟩

end ClassGraft
