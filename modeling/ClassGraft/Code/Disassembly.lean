import ClassGraft.Code.Body
import ClassGraft.Code.Listing
import ClassGraft.Frame.StackMap

namespace ClassGraft

namespace Listing

/-- The jump targets of each branch have to be starts of instructions. -/
def checkTargets (l : Listing) : List (Nat × CodeItem) → Except ClassError Unit
  | [] => .ok ()
  | (offset, .inr b) :: items =>
    match b.targets.find? fun t => !l.isStart t with
    | some t => .error (.invalidTarget offset t)
    | none => l.checkTargets items
  | (_, .inl _) :: items => l.checkTargets items

def isSound (l : Listing) (e : ExceptionEntry) : Bool :=
  e.start < e.stop && l.isStart e.start.toNat && l.isBoundary e.stop.toNat &&
    l.isStart e.handler.toNat

def checkHandlers (l : Listing) (es : List ExceptionEntry) : Except ClassError Unit :=
  match es.find? fun e => !l.isSound e with
  | some e => .error (.malformedAttribute .code (.badHandler e))
  | none => .ok ()

end Listing

/-- What the attributes of a code attribute say, as far as it falls on instructions. -/
structure DebugTables where
  lines : List LineEntry
  /-- Local variables, marked when they have a signature. -/
  locals : List (LocalEntry × Bool)
  frames : Option (List StackMapFrame)

namespace DebugTables

/-- Adds what one attribute says. Of several stack map tables the last one counts. -/
def add (pool : Pool) (l : Listing) (d : DebugTables) (a : Attribute) :
    Except ClassError DebugTables := do
  let name ← pool.utf8 a.name
  let placed (v : LocalEntry) : Bool :=
    l.isBoundary v.start.toNat && l.isBoundary (v.start.toNat + v.length.toNat)
  if name = AttributeKind.lineNumberTable.name then
    let lines ← a.decode .lineNumberTable
    return { d with lines := d.lines ++ lines.filter fun e => l.isStart e.start.toNat }
  else if name = AttributeKind.localVariableTable.name then
    let locals ← a.decode .localVariableTable
    return { d with locals := d.locals ++ (locals.filter placed).map fun v => (v, false) }
  else if name = AttributeKind.localVariableTypeTable.name then
    let locals ← a.decode .localVariableTypeTable
    return { d with locals := d.locals ++ (locals.filter placed).map fun v => (v, true) }
  else if name = AttributeKind.stackMapTable.name then
    return { d with frames := some (← a.decode .stackMapTable) }
  else return d

def ofAttributes (pool : Pool) (l : Listing) (as : List Attribute) :
    Except ClassError DebugTables :=
  as.foldlM (add pool l) ⟨[], [], none⟩

end DebugTables

/-- The offsets that an instruction needs a label at: its targets, or its own if it is a `new`. -/
def CodeItem.labelled (offset : Nat) : CodeItem → List Nat
  | .inl (.new _) => [offset]
  | .inl _ => []
  | .inr b => b.targets

/-- Offsets that are given a label each, in ascending order. -/
abbrev LabelPlan := List Nat

namespace LabelPlan

/-- Every offset that something refers to gets a label. -/
def make (l : Listing) (es : List ExceptionEntry) (d : DebugTables) : LabelPlan :=
  let wanted := (l.items.flatMap fun (o, i) => CodeItem.labelled o i) ++
    (es.flatMap fun e => [e.start.toNat, e.stop.toNat, e.handler.toNat]) ++
    d.locals.flatMap fun (v, _) => [v.start.toNat, v.start.toNat + v.length.toNat]
  let marked := wanted.foldl (fun a o => a.setIfInBounds o true) (Array.replicate (l.length + 1) false)
  (List.range (l.length + 1)).filter fun o => marked[o]?.getD false

def label (plan : LabelPlan) (offset : Nat) : Label := ⟨plan.idxOf offset⟩

end LabelPlan

/-- A type of a stack map entry with its class and its `new`. -/
def Listing.resolve (l : Listing) (pool : Pool) (plan : LabelPlan) (t : RawType) :
    Except ClassError VerifyType :=
  t.mapM pool.classType fun offset =>
    match l.at? offset.toNat with
    | some (.inl (.new c)) => .ok ⟨c, plan.label offset.toNat⟩
    | _ => .error (.malformedAttribute .stackMapTable (.noNew offset.toNat))

/-- The frames that stack map entries describe, by offset. The first entry counts from the start, and
every other one from behind the one before it. -/
def Listing.declaredFrames (l : Listing) (resolve : RawType → Except ClassError VerifyType) :
    Nat → Frame → List StackMapFrame → Except ClassError (List (Nat × Frame))
  | _, _, [] => .ok []
  | base, before, e :: es => do
    let offset := base + e.delta.toNat
    if !l.isStart offset then
      throw (.malformedAttribute .stackMapTable (.frameOffInstruction offset))
    let f ← before.next e resolve
    return (offset, f) :: (← l.declaredFrames resolve (offset + 1) f es)

def CodeItem.toNode (plan : LabelPlan) : CodeItem → Node
  | .inl i => .insn i
  | .inr b => .branch (b.map plan.label)

/-- The nodes at the offset of an instruction. -/
def nodesAt (plan : LabelPlan) (lines : List LineEntry) (frames : List (Nat × Frame))
    (offset : Nat) (item : CodeItem) : List Node :=
  (if plan.contains offset then [.label (plan.label offset)] else []) ++
    (lines.filter fun e => e.start.toNat == offset).map (fun e => .line e.line) ++
    ((frames.lookup offset).map Node.frame).toList ++ [item.toNode plan]

def tryBlock (pool : Pool) (plan : LabelPlan) (e : ExceptionEntry) : Except ClassError TryBlock := do
  let caught ←
    if e.catchIndex = 0 then pure none
    else
      match ← pool.classType e.catchIndex with
      | .object n => pure (some n)
      | t => throw (.malformedAttribute .code (.arrayCaught t))
  return ⟨plan.label e.start.toNat, plan.label e.stop.toNat, plan.label e.handler.toNat, caught⟩

def localRange (pool : Pool) (plan : LabelPlan) (v : LocalEntry × Bool) :
    Except ClassError LocalRange := do
  let start := v.1.start.toNat
  return ⟨← pool.utf8 v.1.name, ← pool.utf8 v.1.descriptor, plan.label start,
    plan.label (start + v.1.length.toNat), v.1.index, v.2⟩

/-- A body of nodes under the first ids, in which some labels are used. -/
def Body.ofNodes (labels : Nat) (ns : List Node) : Body :=
  { Body.empty with
    entries := (number 0 ns).toArray
    nextId := ns.length
    nextLabel := labels
    version := ns.length }

/-- The body of a method. Without an entry frame, in classes too old for frames, a stack map table is
passed over. -/
def Body.ofCode (pool : Pool) (entry : Option Frame) (c : CodeAttribute) :
    Except ClassError Body := do
  let l ← Listing.ofCode pool c.code
  l.checkTargets l.items
  l.checkHandlers c.exceptions
  let d ← DebugTables.ofAttributes pool l c.attributes
  let plan := LabelPlan.make l c.exceptions d
  let frames ←
    match d.frames, entry with
    | some table, some entry => l.declaredFrames (l.resolve pool plan) 0 entry table
    | _, _ => pure []
  let nodes := l.items.flatMap fun (o, i) => nodesAt plan d.lines frames o i
  let last := if plan.contains l.length then [Node.label (plan.label l.length)] else []
  let tryBlocks ← c.exceptions.mapM (tryBlock pool plan)
  let locals ← d.locals.mapM (localRange pool plan)
  return { Body.ofNodes plan.length (nodes ++ last) with tryBlocks, locals }

end ClassGraft
