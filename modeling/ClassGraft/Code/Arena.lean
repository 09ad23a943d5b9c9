import ClassGraft.Code.Body
import Std.Data.HashMap

namespace ClassGraft

structure Arena where
  slots : Array (Option Node)
  order : List NodeId
  positions : Array (Option Nat)
  labelNodes : Std.HashMap Label NodeId
  nextLabel : Nat
  version : Nat
  edits : Array Edit
  tryBlocks : List TryBlock
  locals : List LocalRange

/-- Computations on an arena. Where they fail, what they have changed stays changed. -/
abbrev ArenaM := ExceptT ClassError (StateM Arena)

namespace Arena

def empty : Arena := ⟨#[], [], #[], ∅, 0, 0, #[], [], []⟩

def node? (a : Arena) (id : NodeId) : Option Node := (a.slots[id.index]?).join

def position? (a : Arena) (id : NodeId) : Option Nat := (a.positions[id.index]?).join

/-- The nodes in order, with their ids. -/
def pairs (a : Arena) : List Entry := a.order.filterMap fun id => (a.node? id).map fun n => (id, n)

/-- The body that is held. -/
def body (a : Arena) : Body :=
  ⟨a.pairs.toArray, a.slots.size, a.nextLabel, a.version, a.edits, a.tryBlocks, a.locals⟩

def position (id : NodeId) : ArenaM Nat := do
  match (← get).position? id with
  | some p => return p
  | none => throw (.missingNode id)

def node (id : NodeId) : ArenaM Node := do
  match (← get).node? id with
  | some n => return n
  | none => throw (.missingNode id)

/-- The first label among some nodes that is placed already, in the arena or before in the list. -/
def clash? (placing : List Label) (a : Arena) : List Node → Option Label
  | [] => none
  | n :: ns =>
    match n.label? with
    | none => clash? placing a ns
    | some l => if l ∈ placing || a.labelNodes.contains l then some l else clash? (l :: placing) a ns

def checkLabels (ns : List Node) : ArenaM Unit := do
  match clash? [] (← get) ns with
  | some l => throw (.duplicateLabel l)
  | none => return ()

/-- The arena with one more node, which has no position yet. -/
def allocated (a : Arena) (n : Node) : Arena :=
  { a with
    slots := a.slots.push (some n)
    positions := a.positions.push none
    labelNodes :=
      match n.label? with
      | some l => a.labelNodes.insert l ⟨a.slots.size⟩
      | none => a.labelNodes }

def allocate (n : Node) : ArenaM NodeId := modifyGet fun a => (⟨a.slots.size⟩, a.allocated n)

/-- The arena without a node. The order is left to do. -/
def released (a : Arena) (id : NodeId) (n : Node) : Arena :=
  { a with
    slots := a.slots.setIfInBounds id.index none
    positions := a.positions.setIfInBounds id.index none
    labelNodes :=
      match n.label? with
      | some l => a.labelNodes.erase l
      | none => a.labelNodes }

def release (id : NodeId) : ArenaM Node := do
  let n ← node id
  modify fun a => a.released id n
  return n

/-- Numbers the positions of ids in a row. -/
def numbered (positions : Array (Option Nat)) (first : Nat) : List NodeId → Array (Option Nat)
  | [] => positions
  | id :: ids => numbered (positions.setIfInBounds id.index (some first)) (first + 1) ids

/-- The arena with the positions from some position on computed anew. -/
def reindexed (a : Arena) (start : Nat) : Arena :=
  { a with positions := numbered a.positions start (a.order.drop start) }

/-- Takes nodes out that lie in a row and puts new ones there, and records the edit. -/
def splice (position : Nat) (anchor : Option NodeId) (ns : List Node) (removed : List NodeId) :
    ArenaM (List NodeId) := do
  checkLabels ns
  let olds ← removed.mapM release
  modify fun a =>
    { a with order := a.order.take position ++ a.order.drop (position + removed.length) }
  let inserted ← ns.mapM allocate
  modify fun a => { a with order := a.order.take position ++ inserted ++ a.order.drop position }
  modify fun a => a.reindexed position
  let edit : Edit := ⟨anchor, inserted, removed, Node.totalEffect ns, Node.totalEffect olds⟩
  modify fun a => { a with version := a.version + 1, edits := a.edits.push edit }
  return inserted

def push (n : Node) : ArenaM NodeId := do
  checkLabels [n]
  let id ← allocate n
  modify fun a =>
    { a with
      positions := a.positions.setIfInBounds id.index (some a.order.length)
      order := a.order ++ [id]
      version := a.version + 1 }
  return id

def newLabel : ArenaM Label :=
  modifyGet fun a => (⟨a.nextLabel⟩, { a with nextLabel := a.nextLabel + 1 })

def insertBefore (anchor : NodeId) (ns : List Node) : ArenaM (List NodeId) := do
  splice (← position anchor) (some anchor) ns []

def insertAfter (anchor : NodeId) (ns : List Node) : ArenaM (List NodeId) := do
  splice ((← position anchor) + 1) (some anchor) ns []

def insertAtStart (ns : List Node) : ArenaM (List NodeId) := splice 0 none ns []

def replace (id : NodeId) (ns : List Node) : ArenaM (List NodeId) := do
  splice (← position id) (some id) ns [id]

def remove (id : NodeId) : ArenaM Node := do
  let n ← node id
  let _ ← replace id []
  return n

def replaceOperand (id : NodeId) (o : Operand) : ArenaM Unit := do
  let old ← node id
  match old.withOperand? o with
  | none => throw (.operandMismatch id)
  | some new =>
    checkLabels [new]
    let edit : Edit := ⟨some id, [id], [], new.effect, old.effect⟩
    modify fun a =>
      { a with
        slots := a.slots.setIfInBounds id.index (some new)
        version := a.version + 1
        edits := a.edits.push edit }

def insertUnrecorded (position : Nat) (n : Node) : ArenaM NodeId := do
  checkLabels [n]
  let id ← allocate n
  modify fun a => { a with order := a.order.take position ++ id :: a.order.drop position }
  modify fun a => a.reindexed position
  modify fun a => { a with version := a.version + 1 }
  return id

end Arena

/-- A change of a body, with all that it is given. -/
inductive BodyChange where
  | push (n : Node)
  | newLabel
  | insertBefore (anchor : NodeId) (ns : List Node)
  | insertAfter (anchor : NodeId) (ns : List Node)
  | insertAtStart (ns : List Node)
  | replace (id : NodeId) (ns : List Node)
  | remove (id : NodeId)
  | replaceOperand (id : NodeId) (o : Operand)
  | insertUnrecorded (position : Nat) (n : Node)

/-- What a change gives back. -/
inductive ChangeResult where
  | id (id : NodeId)
  | ids (ids : List NodeId)
  | label (l : Label)
  | node (n : Node)
  | done

def Arena.change : BodyChange → ArenaM ChangeResult
  | .push n => return .id (← push n)
  | .newLabel => return .label (← newLabel)
  | .insertBefore anchor ns => return .ids (← insertBefore anchor ns)
  | .insertAfter anchor ns => return .ids (← insertAfter anchor ns)
  | .insertAtStart ns => return .ids (← insertAtStart ns)
  | .replace id ns => return .ids (← replace id ns)
  | .remove id => return .node (← remove id)
  | .replaceOperand id o => do
    replaceOperand id o
    return .done
  | .insertUnrecorded p n => return .id (← insertUnrecorded p n)

def Body.change (b : Body) : BodyChange → Except ClassError (ChangeResult × Body)
  | .push n => (b.push n).map fun (id, b) => (.id id, b)
  | .newLabel => .ok (.label b.newLabel.1, b.newLabel.2)
  | .insertBefore anchor ns => (b.insertBefore anchor ns).map fun (ids, b) => (.ids ids, b)
  | .insertAfter anchor ns => (b.insertAfter anchor ns).map fun (ids, b) => (.ids ids, b)
  | .insertAtStart ns => (b.insertAtStart ns).map fun (ids, b) => (.ids ids, b)
  | .replace id ns => (b.replace id ns).map fun (ids, b) => (.ids ids, b)
  | .remove id => (b.remove id).map fun (n, b) => (.node n, b)
  | .replaceOperand id o => (b.replaceOperand id o).map fun b => (.done, b)
  | .insertUnrecorded p n => (b.insertUnrecorded p n).map fun (id, b) => (.id id, b)

end ClassGraft
