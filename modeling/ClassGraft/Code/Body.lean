import ClassGraft.Error

namespace ClassGraft

/-- Exceptions thrown between two labels go to a handler. Without a class everything is caught. -/
structure TryBlock where
  start : Label
  stop : Label
  handler : Label
  caught : Option BinaryName
  deriving DecidableEq

/-- Where a local variable is in scope, with its descriptor or its generic signature. -/
structure LocalRange where
  name : String
  descriptor : String
  start : Label
  stop : Label
  index : UInt16
  isSignature : Bool
  deriving DecidableEq

/-- What one change of a body did. A change of an operand inserts its node and removes nothing, while
the removed effect is that of the node before. -/
structure Edit where
  anchor : Option NodeId
  inserted : List NodeId
  removed : List NodeId
  insertedEffect : Int
  removedEffect : Int
  deriving DecidableEq

def Edit.isNeutral (e : Edit) : Bool := e.insertedEffect = e.removedEffect

abbrev Entry := NodeId × Node

/-- A method body is a list of nodes, each under an id that is never used again. -/
structure Body where
  entries : Array Entry
  nextId : Nat
  nextLabel : Nat
  version : Nat
  edits : Array Edit
  tryBlocks : List TryBlock
  locals : List LocalRange

namespace Body

def empty : Body := ⟨#[], 0, 0, 0, #[], [], []⟩

def size (b : Body) : Nat := b.entries.size

def nodes (b : Body) : List Node := b.entries.toList.map Prod.snd

def ids (b : Body) : List NodeId := b.entries.toList.map Prod.fst

def isModified (b : Body) : Bool := !b.edits.isEmpty

def get? (b : Body) (position : Nat) : Option Node := (b.entries[position]?).map Prod.snd

def idAt? (b : Body) (position : Nat) : Option NodeId := (b.entries[position]?).map Prod.fst

def position? (b : Body) (id : NodeId) : Option Nat := b.entries.findIdx? fun e => e.1 == id

def contains (b : Body) (id : NodeId) : Bool := (b.position? id).isSome

def position (b : Body) (id : NodeId) : Except ClassError Nat :=
  match b.position? id with
  | some p => .ok p
  | none => .error (.missingNode id)

def node (b : Body) (id : NodeId) : Except ClassError Node :=
  match b.entries.find? fun e => e.1 == id with
  | some e => .ok e.2
  | none => .error (.missingNode id)

def next (b : Body) (id : NodeId) : Except ClassError (Option NodeId) :=
  return b.idAt? ((← b.position id) + 1)

def previous (b : Body) (id : NodeId) : Except ClassError (Option NodeId) := do
  match ← b.position id with
  | 0 => return none
  | p + 1 => return b.idAt? p

/-- The position of the first instruction at a position or behind it. -/
def instructionFrom? (b : Body) (position : Nat) : Option Nat :=
  if h : position < b.entries.size then
    if b.entries[position].2.isPseudo then b.instructionFrom? (position + 1) else some position
  else none
termination_by b.entries.size - position

/-- The position of the last instruction before a position. -/
def instructionBefore? (b : Body) : Nat → Option Nat
  | 0 => none
  | p + 1 =>
    match b.get? p with
    | some n => if n.isPseudo then b.instructionBefore? p else some p
    | none => b.instructionBefore? p

/-- The first instruction at a position or behind it. -/
def instructionIdFrom? (b : Body) (position : Nat) : Option NodeId :=
  (b.instructionFrom? position).bind b.idAt?

def nextInstruction (b : Body) (id : NodeId) : Except ClassError (Option NodeId) :=
  return b.instructionIdFrom? ((← b.position id) + 1)

def previousInstruction (b : Body) (id : NodeId) : Except ClassError (Option NodeId) :=
  return (b.instructionBefore? (← b.position id)).bind b.idAt?

def labelPosition? (b : Body) (l : Label) : Option Nat :=
  b.entries.findIdx? fun e => e.2.label? == some l

def isPlaced (b : Body) (l : Label) : Bool := (b.labelPosition? l).isSome

def labelPosition (b : Body) (l : Label) : Except ClassError Nat :=
  match b.labelPosition? l with
  | some p => .ok p
  | none => .error (.danglingLabel l)

def labelNode? (b : Body) (l : Label) : Option NodeId := (b.labelPosition? l).bind b.idAt?

/-- The position of the instruction that a label designates, if it is not at the very end. -/
def labelTarget (b : Body) (l : Label) : Except ClassError (Option Nat) :=
  return b.instructionFrom? (← b.labelPosition l)

def placedLabels (b : Body) : List Label := b.nodes.filterMap Node.label?

/-- How many nodes right before a position are pseudo nodes. -/
def pseudoRun (b : Body) : Nat → Nat
  | 0 => 0
  | p + 1 =>
    match b.get? p with
    | some n => if n.isPseudo then b.pseudoRun p + 1 else 0
    | none => 0

/-- The pseudo nodes right before a node. -/
def pseudoBefore (b : Body) (id : NodeId) : Except ClassError (List Entry) := do
  let p ← b.position id
  return (b.entries.extract (p - b.pseudoRun p) p).toList

/-- The first label among some nodes that is placed already, in the body or before in the list. -/
def clash? (placed : List Label) (b : Body) : List Node → Option Label
  | [] => none
  | n :: ns =>
    match n.label? with
    | none => clash? placed b ns
    | some l => if l ∈ placed || b.isPlaced l then some l else clash? (l :: placed) b ns

def checkFresh (b : Body) (ns : List Node) : Except ClassError Unit :=
  match clash? [] b ns with
  | none => .ok ()
  | some l => .error (.duplicateLabel l)

/-- A label that no node carries yet. -/
def newLabel (b : Body) : Label × Body := (⟨b.nextLabel⟩, { b with nextLabel := b.nextLabel + 1 })

/-- New nodes under the next ids. -/
def number (first : Nat) (ns : List Node) : List Entry := ns.mapIdx fun i n => (⟨first + i⟩, n)

/-- The body with `count` nodes from a position on replaced by new ones. -/
def place (b : Body) (position count : Nat) (ns : List Node) : Body :=
  { b with
    entries := b.entries.extract 0 position ++ (number b.nextId ns).toArray ++
      b.entries.extract (position + count) b.entries.size
    nextId := b.nextId + ns.length
    version := b.version + 1 }

/-- Appends a node without a record. -/
def push (b : Body) (n : Node) : Except ClassError (NodeId × Body) := do
  b.checkFresh [n]
  return (⟨b.nextId⟩, { b with
    entries := b.entries.push (⟨b.nextId⟩, n)
    nextId := b.nextId + 1
    version := b.version + 1 })

/-- Inserts a node without a record, for labels and frames, which leave what the code does alone. -/
def insertUnrecorded (b : Body) (position : Nat) (n : Node) : Except ClassError (NodeId × Body) := do
  b.checkFresh [n]
  return (⟨b.nextId⟩, b.place position 0 [n])

/-- Replaces `count` nodes at a position, and records the edit. -/
def splice (b : Body) (position count : Nat) (anchor : Option NodeId) (ns : List Node) :
    Except ClassError (List NodeId × Body) := do
  b.checkFresh ns
  let removed := (b.entries.extract position (position + count)).toList
  let inserted := (number b.nextId ns).map Prod.fst
  let edit : Edit := {
    anchor, inserted
    removed := removed.map Prod.fst
    insertedEffect := Node.totalEffect ns
    removedEffect := Node.totalEffect (removed.map Prod.snd) }
  return (inserted, { b.place position count ns with edits := b.edits.push edit })

/-- Inserts between a node and the pseudo nodes that belong to it, so that jumps to its labels run what
is inserted. -/
def insertBefore (b : Body) (anchor : NodeId) (ns : List Node) :
    Except ClassError (List NodeId × Body) := do
  b.splice (← b.position anchor) 0 (some anchor) ns

def insertAfter (b : Body) (anchor : NodeId) (ns : List Node) :
    Except ClassError (List NodeId × Body) := do
  b.splice ((← b.position anchor) + 1) 0 (some anchor) ns

/-- Inserts before everything, labels included. -/
def insertAtStart (b : Body) (ns : List Node) : Except ClassError (List NodeId × Body) :=
  b.splice 0 0 none ns

def replace (b : Body) (id : NodeId) (ns : List Node) : Except ClassError (List NodeId × Body) := do
  b.splice (← b.position id) 1 (some id) ns

def remove (b : Body) (id : NodeId) : Except ClassError (Node × Body) := do
  let n ← b.node id
  let (_, b) ← b.replace id []
  return (n, b)

end Body

/-- An operand to put in place of that of an instruction. -/
inductive Operand where
  | literal (l : Literal)
  | slot (s : UInt16)
  | field (f : FieldRef)
  | method (m : MethodRef)
  | type (t : RefType)
  | target (l : Label)

/-- The instruction with another operand, if it has one of that kind. A literal keeps its width. -/
def Instruction.withOperand? (i : Instruction) : Operand → Option Instruction
  | .literal l =>
    match i.literal? with
    | some old => if old.width = l.width then some (.push l) else none
    | none => none
  | .slot s =>
    match i with
    | .load k _ => some (.load k s)
    | .store k _ => some (.store k s)
    | .increment _ amount => some (.increment s amount)
    | _ => none
  | .field f =>
    match i with
    | .field a _ => some (.field a f)
    | _ => none
  | .method m =>
    match i with
    | .invoke k _ => some (.invoke k m)
    | _ => none
  | .type t =>
    match i, t with
    | .new _, .object c => some (.new c)
    | .checkCast _, t => some (.checkCast t)
    | .instanceOf _, t => some (.instanceOf t)
    | .newRefArray _, t => some (.newRefArray t)
    | .newMultiArray _ dimensions, t => some (.newMultiArray t dimensions)
    | _, _ => none
  | .target _ => none

/-- A jump target can be replaced where there is just one. -/
def Node.withOperand? (n : Node) (o : Operand) : Option Node :=
  match n, o with
  | .branch b, .target l => if b.targets.length = 1 then some (.branch (b.map fun _ => l)) else none
  | .insn i, o => (i.withOperand? o).map .insn
  | _, _ => none

/-- Changes the operand of a node, which keeps its id. -/
def Body.replaceOperand (b : Body) (id : NodeId) (o : Operand) : Except ClassError Body := do
  let p ← b.position id
  let old ← b.node id
  match old.withOperand? o with
  | none => throw (.operandMismatch id)
  | some new =>
    let edit : Edit := ⟨some id, [id], [], new.effect, old.effect⟩
    return { b with
      entries := b.entries.setIfInBounds p (id, new)
      version := b.version + 1
      edits := b.edits.push edit }

end ClassGraft
