import Std.Data.TreeSet
import ClassGraft.Code.Disassembly

namespace ClassGraft

/-- The labels of offsets. -/
abbrev LabelTable := Std.HashMap Nat Label

namespace LabelTable

/-- The offsets that instructions, exception handlers and local variables refer to. -/
def collect (l : Listing) (es : List ExceptionEntry) (d : DebugTables) : Std.TreeSet Nat :=
  let jumps := l.items.foldl (fun s (o, i) => s.insertMany (CodeItem.labelled o i)) ∅
  let guarded := es.foldl (fun s e =>
    s.insertMany [e.start.toNat, e.stop.toNat, e.handler.toNat]) jumps
  d.locals.foldl (fun s (v, _) =>
    s.insertMany [v.start.toNat, v.start.toNat + v.length.toNat]) guarded

/-- Makes a label for each offset. -/
def make (b : Body) (offsets : List Nat) : LabelTable × Body :=
  offsets.foldl (fun (t, b) o => (t.insert o b.newLabel.1, b.newLabel.2)) (∅, b)

variable (t : LabelTable)

def labelAt (offset : Nat) : Except ClassError Label :=
  match t[offset]? with
  | some l => .ok l
  | none => .error (.malformedAttribute .code (.noLabel offset))

/-- The label of a jump target. -/
def jumpLabel (offset target : Nat) : Except ClassError Label :=
  match t[target]? with
  | some l => .ok l
  | none => .error (.invalidTarget offset target)

/-- The node of the instruction at an offset. -/
def node (offset : Nat) : CodeItem → Except ClassError Node
  | .inl i => return .insn i
  | .inr br => return .branch (← br.mapM (t.jumpLabel offset))

/-- A type of a stack map entry, where each `new` has to have a label. -/
def resolve (l : Listing) (pool : Pool) (type : RawType) : Except ClassError VerifyType :=
  type.mapM pool.classType fun offset =>
    match l.at? offset.toNat, t[offset.toNat]? with
    | some (.inl (.new c)), some label => .ok ⟨c, label⟩
    | _, _ => .error (.malformedAttribute .stackMapTable (.noNew offset.toNat))

def tryBlock (pool : Pool) (e : ExceptionEntry) : Except ClassError TryBlock := do
  let caught ←
    if e.catchIndex = 0 then pure none
    else
      match ← pool.classType e.catchIndex with
      | .object n => pure (some n)
      | t => throw (.malformedAttribute .code (.arrayCaught t))
  return ⟨← t.labelAt e.start.toNat, ← t.labelAt e.stop.toNat, ← t.labelAt e.handler.toNat, caught⟩

def localRange (pool : Pool) (v : LocalEntry × Bool) : Except ClassError LocalRange := do
  let start := v.1.start.toNat
  return ⟨← pool.utf8 v.1.name, ← pool.utf8 v.1.descriptor, ← t.labelAt start,
    ← t.labelAt (start + v.1.length.toNat), v.1.index, v.2⟩

end LabelTable

namespace Body

/-- Puts nodes behind the others, one by one. -/
def pushAll (b : Body) (ns : List Node) : Except ClassError Body :=
  ns.foldlM (fun b n => return (← b.push n).2) b

/-- Puts the nodes at an offset behind the others: the label and the line numbers there, the frame and the
instruction. -/
def pushItem (t : LabelTable) (lines : List LineEntry) (frames : List (Nat × Frame)) (b : Body) :
    Nat × CodeItem → Except ClassError Body
  | (offset, item) => do
    let b ← b.pushAll (t[offset]?.map Node.label).toList
    let b ← b.pushAll ((lines.filter fun e => e.start.toNat == offset).map fun e => .line e.line)
    let b ← b.pushAll ((frames.lookup offset).map Node.frame).toList
    b.pushAll [← t.node offset item]

/-- The body of a method, made step by step. -/
def build (pool : Pool) (entry : Option Frame) (c : CodeAttribute) : Except ClassError Body := do
  let l ← Listing.ofCode pool c.code
  l.checkTargets l.items
  l.checkHandlers c.exceptions
  let d ← DebugTables.ofAttributes pool l c.attributes
  let (t, b) := LabelTable.make Body.empty (LabelTable.collect l c.exceptions d).toList
  let frames ←
    match d.frames, entry with
    | some table, some entry => l.declaredFrames (t.resolve l pool) 0 entry table
    | _, _ => pure []
  let b ← l.items.foldlM (pushItem t d.lines frames) b
  let b ← b.pushAll (t[l.length]?.map Node.label).toList
  let tryBlocks ← c.exceptions.mapM (t.tryBlock pool)
  let locals ← d.locals.mapM (t.localRange pool)
  return { b with tryBlocks, locals }

end Body

end ClassGraft
