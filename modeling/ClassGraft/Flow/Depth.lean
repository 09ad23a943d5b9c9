import ClassGraft.Code.Body

namespace ClassGraft

/-- Depths by position, the greatest depth so far, the local slots used so far, and the positions that
are still to be entered with the depth there. -/
structure DepthState where
  depths : Array (Option Nat)
  maxStack : Nat
  maxLocals : Nat
  work : List (Nat × Nat)

namespace DepthState

def unvisited (s : DepthState) : Nat := s.depths.toList.countP Option.isNone

end DepthState

/-- The local slots up to the last one that an instruction touches. -/
def Instruction.localExtent : Instruction → Nat
  | .load k slot | .store k slot => slot.toNat + k.width
  | .increment slot _ => slot.toNat + 1
  | _ => 0

def Branch.localExtent {L : Type} : Branch L → Nat
  | .ret slot => slot.toNat + 1
  | _ => 0

def Node.localExtent : Node → Nat
  | .insn i => i.localExtent
  | .branch b => b.localExtent
  | _ => 0

namespace Body

/-- Enters a position and follows the flow that does not jump, up to a node that is known or does not
fall through. Jump targets are left to do. -/
def flowFrom (b : Body) (position depth : Nat) (s : DepthState) : Except ClassError DepthState :=
  match s.depths[position]?, he : b.entries[position]? with
  | some (some known), some (id, _) =>
    if known = depth then .ok s else .error (.depthMismatch id known depth)
  | some none, some (_, node) =>
    if depth < node.slots.popped then .error (.underflow node)
    else
      let after := depth - node.slots.popped + node.slots.pushed
      let s := { s with
        depths := s.depths.setIfInBounds position (some depth)
        maxStack := max s.maxStack after
        maxLocals := max s.maxLocals node.localExtent }
      match node with
      | .branch br =>
        match br.targets.mapM b.labelPosition with
        | .error e => .error e
        | .ok targets =>
          let s := { s with work := (targets.map fun t => (t, after)).reverse ++ s.work }
          if br.isCall then b.flowFrom (position + 1) depth s
          else if br.fallsThrough then b.flowFrom (position + 1) after s
          else .ok s
      | _ => b.flowFrom (position + 1) after s
  | _, _ => .error (.flow .fallsOffEnd)
termination_by b.entries.size - position
decreasing_by
  all_goals
    have := (Array.getElem?_eq_some_iff.mp he).1
    omega

theorem unvisited_mark {s : DepthState} {position : Nat}
    (h : s.depths[position]? = some none) (depth : Nat) :
    (s.depths.setIfInBounds position (some depth)).toList.countP Option.isNone < s.unvisited := by
  obtain ⟨hlt, hnone⟩ := Array.getElem?_eq_some_iff.mp h
  have hc := List.countP_set (p := Option.isNone) (l := s.depths.toList) (a := some depth)
    (i := position) (by simpa using hlt)
  simp only [Array.getElem_toList, hnone, Option.isNone_none, Option.isNone_some] at hc
  have hpos : 0 < s.depths.toList.countP Option.isNone :=
    List.countP_pos_iff.mpr ⟨none, by
      rw [← hnone]; exact Array.getElem_mem_toList hlt, rfl⟩
  simp only [DepthState.unvisited, Array.toList_setIfInBounds, hc, Bool.false_eq_true, ↓reduceIte]
  omega

/-- Flow either finds its first node known or visits a node. -/
theorem flowFrom_progress {b : Body} {position depth : Nat} {s s' : DepthState}
    (h : b.flowFrom position depth s = .ok s') :
    s' = s ∨ s'.unvisited < s.unvisited := by
  fun_induction flowFrom b position depth s
  case case1 => exact .inl (Except.ok.inj h).symm
  case case2 => simp at h
  case case3 => simp at h
  case case4 => simp at h
  case case5 ih | case6 ih | case8 ih =>
    right
    have hm := unvisited_mark ‹_›
    rcases ih h with he | hl
    · rw [he]
      exact hm _
    · exact Nat.lt_trans hl (hm _)
  case case7 => exact .inr (Except.ok.inj h ▸ unvisited_mark ‹_› _)
  case case9 => simp at h

/-- Flows from every position that is left to do. -/
def drain (b : Body) (s : DepthState) : Except ClassError DepthState :=
  match hw : s.work with
  | [] => .ok s
  | (position, depth) :: work =>
    match h : b.flowFrom position depth { s with work } with
    | .error e => .error e
    | .ok s' =>
      have hl : work.length < s.work.length := by simp [hw]
      have hp := flowFrom_progress h
      b.drain s'
termination_by (s.unvisited, s.work.length)
decreasing_by
  rcases hp with rfl | hu
  · exact Prod.Lex.right _ hl
  · exact Prod.Lex.left _ _ hu

/-- Is an instruction between two positions known to be reached? -/
def coversVisited (b : Body) (s : DepthState) (start stop : Nat) : Bool :=
  (List.range' start (stop - start)).any fun p =>
    match b.get? p, s.depths[p]? with
    | some n, some (some _) => !n.isPseudo
    | _, _ => false

/-- Enters the handlers of those blocks in which an instruction is reached, with the exception on the
stack. The other blocks are returned. -/
def enterHandlers (b : Body) : List TryBlock → DepthState →
    Except ClassError (List TryBlock × DepthState)
  | [], s => .ok ([], s)
  | t :: ts, s => do
    let start ← b.labelPosition t.start
    let stop ← b.labelPosition t.stop
    if b.coversVisited s start stop then
      let handler ← b.labelPosition t.handler
      b.enterHandlers ts { s with work := (handler, 1) :: s.work }
    else
      let (rest, s) ← b.enterHandlers ts s
      return (t :: rest, s)

/-- Drains the work and enters handlers in turn, until no further handler can be entered. -/
def settleDepths (b : Body) (pending : List TryBlock) (s : DepthState) :
    Except ClassError DepthState := do
  let s ← b.drain s
  let (rest, s) ← b.enterHandlers pending s
  if _ : rest.length < pending.length then b.settleDepths rest s else return s
termination_by pending.length

end Body

/-- The stack depth in slots before each node, by position, for the nodes that can be reached. -/
structure StackAnalysis where
  depths : Array (Option Nat)
  maxStack : Nat
  maxLocals : Nat

namespace Body

/-- Fails where a node is reached with two depths, where more is popped than there is, and where the
flow leaves the body. -/
def analyzeStack (b : Body) (parameterSlots : Nat) : Except ClassError StackAnalysis := do
  let start : DepthState := ⟨Array.replicate b.size none, 0, parameterSlots, [(0, 0)]⟩
  if b.entries.isEmpty then return ⟨#[], 0, parameterSlots⟩
  let s ← b.settleDepths b.tryBlocks start
  return ⟨s.depths, s.maxStack, s.maxLocals⟩

/-- The depth before each reachable node, in the order of the ids. -/
def depthsById (b : Body) (a : StackAnalysis) : List (NodeId × Nat) :=
  ((b.ids.zip a.depths.toList).filterMap fun (id, d) => d.map fun d => (id, d)).mergeSort
    fun x y => x.1.index ≤ y.1.index

def reachable (b : Body) (a : StackAnalysis) : List NodeId := (b.depthsById a).map Prod.fst

/-- The labels that branches, blocks and local variables refer to. -/
def mentionedLabels (b : Body) : List Label :=
  (b.nodes.flatMap fun n => (n.branch?.map Branch.targets).getD []) ++
    (b.tryBlocks.flatMap fun t => [t.start, t.stop, t.handler]) ++
    b.locals.flatMap fun v => [v.start, v.stop]

def checkLabels (b : Body) : Except ClassError Unit :=
  match b.mentionedLabels.find? fun l => !b.isPlaced l with
  | some l => .error (.danglingLabel l)
  | none => .ok ()

/-- Every edit has to leave the depth behind it as it was. -/
def checkNeutral (b : Body) : Except ClassError Unit :=
  match b.edits.find? fun e => !e.isNeutral with
  | some e => .error (.unbalanced e.anchor (e.insertedEffect - e.removedEffect))
  | none => .ok ()

/-- What could be reached before and is still there has to be reachable. The lowest id that is not is
reported. -/
def checkReachable (b : Body) (before : List NodeId) (a : StackAnalysis) : Except ClassError Unit :=
  let lost := ((b.entries.toList.zip a.depths.toList).filter fun ((id, n), d) =>
    !n.isPseudo && d.isNone && before.contains id).map fun ((id, _), _) => id.index
  match lost.min? with
  | some i => .error (.unreachable ⟨i⟩)
  | none => .ok ()

end Body

end ClassGraft
