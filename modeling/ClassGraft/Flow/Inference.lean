import ClassGraft.Code.Body
import ClassGraft.Frame.Weight

namespace ClassGraft

def Node.frame? : Node → Option Frame
  | .frame f => some f
  | _ => none

def Node.isNew : Node → Bool
  | .insn (.new _) => true
  | _ => false

/-- What protects the positions from `start` up to `stop`: exceptions go to the instruction at `head`. -/
structure Handler where
  start : Nat
  stop : Nat
  head : Nat
  caught : VerifyType

namespace Body

/-- The last of the pseudo nodes right before a position that has a value under `f`. -/
def lastBefore? {α : Type} (b : Body) (f : Node → Option α) : Nat → Option α
  | 0 => none
  | p + 1 =>
    match b.get? p with
    | some n =>
      if n.isPseudo then
        match f n with
        | some a => some a
        | none => b.lastBefore? f p
      else none
    | none => none

/-- The label by which frames refer to the `new` at a position. -/
def site? (b : Body) (position : Nat) : Option Label := b.lastBefore? Node.label? position

/-- The frame that is given for the instruction at a position. -/
def declared? (b : Body) (position : Nat) : Option Frame := b.lastBefore? Node.frame? position

/-- Puts a label before a `new` that has none. -/
def labelSite (b : Body) (id : NodeId) : Except ClassError Body := do
  let p ← b.position id
  if (b.site? p).isSome then return b
  else
    let (l, b) := b.newLabel
    return (← b.insertUnrecorded p (.label l)).2

def labelSites (b : Body) : Except ClassError Body :=
  ((b.entries.toList.filter fun e => e.2.isNew).map Prod.fst).foldlM labelSite b

/-- The position of the instruction that a label designates. -/
def targetPosition (b : Body) (l : Label) : Except ClassError Nat := do
  match ← b.labelTarget l with
  | some p => return p
  | none => throw (.flow (.labelAtEnd l))

def handler (b : Body) (t : TryBlock) : Except ClassError Handler := do
  let head ← b.targetPosition t.handler
  let start ← b.labelPosition t.start
  let stop ← b.labelPosition t.stop
  return ⟨start, stop, head, .ofClass (t.caught.getD BinaryName.throwable)⟩

/-- The targets of a branch, and the instruction behind it if the branch does not fall through to it. -/
def pointsOf (b : Body) (position : Nat) : Except ClassError (List Nat) := do
  match b.get? position with
  | some (.branch br) =>
    let targets ← br.targets.mapM b.targetPosition
    return if br.fallsThrough then targets
      else targets ++ (b.instructionFrom? (position + 1)).toList
  | _ => return []

end Body

/-- A position that flow reaches, with the frame it brings. -/
abbrev Arrival := Nat × Frame

/-- What inference works on: a body, the positions at which frames are kept, and who handles what. -/
structure FlowGraph where
  body : Body
  isHead : Nat → Bool
  handlers : List Handler
  thisClass : BinaryName

namespace FlowGraph

/-- The frames that reach handlers from an instruction. -/
def thrown (g : FlowGraph) (position : Nat) (f : Frame) : List Arrival :=
  (g.handlers.filter fun h => h.start ≤ position && position < h.stop).map fun h =>
    (h.head, ⟨f.locals, [h.caught]⟩)

/-- Follows the flow from a head up to the next one. The arrivals come last first, behind those that
are given; an error ends them. -/
def follow (g : FlowGraph) (head position : Nat) (f : Frame) (seen : List Arrival) :
    List Arrival × Option ClassError :=
  match he : g.body.entries[position]? with
  | none => (seen, some (.flow .fallsOffEnd))
  | some (_, n) =>
    if n.isPseudo then g.follow head (position + 1) f seen
    else if position ≠ head && g.isHead position then ((position, f) :: seen, none)
    else
      let seen := (g.thrown position f).reverse ++ seen
      match n with
      | .insn i =>
        match f.step g.thisClass (if n.isNew then g.body.site? position else none) i with
        | .error e => (seen, some (.unverifiable (.node n) e))
        | .ok f => g.follow head (position + 1) f seen
      | .branch br =>
        match f.branch br, br.targets.mapM g.body.targetPosition with
        | .error e, _ => (seen, some (.unverifiable (.node n) e))
        | .ok _, .error e => (seen, some e)
        | .ok f, .ok targets =>
          let seen := (targets.map fun t => (t, f)).reverse ++ seen
          if br.fallsThrough then g.follow head (position + 1) f seen else (seen, none)
      | _ => g.follow head (position + 1) f seen
termination_by g.body.entries.size - position
decreasing_by
  all_goals
    have := (Array.getElem?_eq_some_iff.mp he).1
    omega

end FlowGraph

/-- The frames that have reached each position, merged, and the heads whose frame has changed, lowest
first. -/
structure FlowState where
  reached : Array (Option Frame)
  work : List Nat

namespace FlowState

def unreached (s : FlowState) : Nat := s.reached.toList.countP Option.isNone

def weights : List (Option Frame) → Nat
  | [] => 0
  | f :: fs => (f.map Frame.weight).getD 0 + weights fs

def weight (s : FlowState) : Nat := weights s.reached.toList

def enqueue (position : Nat) : List Nat → List Nat
  | [] => [position]
  | p :: ps =>
    if position < p then position :: p :: ps
    else if position = p then p :: ps
    else p :: enqueue position ps

def put (s : FlowState) (position : Nat) (f : Frame) : FlowState :=
  ⟨s.reached.setIfInBounds position (some f), enqueue position s.work⟩

/-- Records an arrival. Where a frame is given it is enough to know that the position is reached. -/
def arrive (b : Body) (s : FlowState) (a : Arrival) : Except ClassError FlowState :=
  let (position, f) := a
  match s.reached[position]? with
  | none => .ok s
  | some none =>
    .ok (s.put position (if (b.declared? position).isSome then f else f.trim))
  | some (some known) =>
    if (b.declared? position).isSome then .ok s
    else
      match known.merge f with
      | .error e => .error (.unverifiable (.join position) e)
      | .ok m => if m = known then .ok s else .ok (s.put position m)

/-- Either nothing has changed, or a position was reached for the first time, or frames lost weight. -/
def Progress (s s' : FlowState) : Prop :=
  s' = s ∨ s'.unreached < s.unreached ∨ s'.unreached = s.unreached ∧ s'.weight < s.weight

theorem Progress.trans {s t u : FlowState} (h : Progress s t) (k : Progress t u) :
    Progress s u := by
  rcases h with rfl | h
  · exact k
  · rcases k with rfl | k
    · exact .inr h
    · right; omega

theorem unreached_put {s : FlowState} {position : Nat} (h : s.reached[position]? = some none)
    (f : Frame) : (s.put position f).unreached < s.unreached := by
  obtain ⟨hlt, hnone⟩ := Array.getElem?_eq_some_iff.mp h
  have hc := List.countP_set (p := Option.isNone) (l := s.reached.toList) (a := some f)
    (i := position) (by simpa using hlt)
  simp only [Array.getElem_toList, hnone, Option.isNone_none, Option.isNone_some] at hc
  have hpos : 0 < s.reached.toList.countP Option.isNone :=
    List.countP_pos_iff.mpr ⟨none, by rw [← hnone]; exact Array.getElem_mem_toList hlt, rfl⟩
  simp only [unreached, put, Array.toList_setIfInBounds, hc, Bool.false_eq_true, ↓reduceIte]
  omega

theorem weights_set (l : List (Option Frame)) {i : Nat} (h : i < l.length) (f : Option Frame) :
    weights (l.set i f) + (l[i].map Frame.weight).getD 0 =
      weights l + (f.map Frame.weight).getD 0 := by
  induction l generalizing i with
  | nil => simp at h
  | cons g l ih =>
    cases i with
    | zero => simp only [List.set_cons_zero, weights, List.getElem_cons_zero]; omega
    | succ i =>
      have := ih (by simpa using h) (i := i)
      simp only [List.set_cons_succ, weights, List.getElem_cons_succ]
      omega

theorem put_lighter {s : FlowState} {position : Nat} {known f : Frame}
    (h : s.reached[position]? = some (some known)) (hw : f.weight < known.weight) :
    (s.put position f).unreached = s.unreached ∧ (s.put position f).weight < s.weight := by
  obtain ⟨hlt, hk⟩ := Array.getElem?_eq_some_iff.mp h
  constructor
  · have hc := List.countP_set (p := Option.isNone) (l := s.reached.toList) (a := some f)
      (i := position) (by simpa using hlt)
    simp only [Array.getElem_toList, hk, Option.isNone_some] at hc
    simp only [unreached, put, Array.toList_setIfInBounds, hc]
    simp
  · have hs := weights_set s.reached.toList (i := position) (by simpa using hlt) (some f)
    simp only [Array.getElem_toList, hk, Option.map_some, Option.getD_some] at hs
    simp only [weight, put, Array.toList_setIfInBounds]
    omega

theorem arrive_progress {b : Body} {s s' : FlowState} {a : Arrival}
    (h : arrive b s a = .ok s') : Progress s s' := by
  unfold arrive at h
  dsimp only at h
  split at h
  next => exact .inl (Except.ok.inj h).symm
  next hr => exact .inr (.inl (Except.ok.inj h ▸ unreached_put hr _))
  next known hr =>
    split at h
    next => exact .inl (Except.ok.inj h).symm
    next =>
      split at h
      next => simp at h
      next m hm =>
        split at h
        next => exact .inl (Except.ok.inj h).symm
        next hne =>
          rcases Frame.merge_weight hm with he | hl
          · exact absurd he hne
          · exact .inr (.inr (Except.ok.inj h ▸ put_lighter hr hl))

theorem arrivals_progress {b : Body} {as : List Arrival} {s s' : FlowState}
    (h : as.foldlM (arrive b) s = .ok s') : Progress s s' := by
  induction as generalizing s with
  | nil => exact .inl (Except.ok.inj h).symm
  | cons a as ih =>
    rw [List.foldlM_cons] at h
    cases ha : arrive b s a with
    | error e => rw [ha] at h; simp [bind, Except.bind] at h
    | ok t =>
      rw [ha] at h
      exact (arrive_progress ha).trans (ih h)

/-- Follows the flow from changed heads until no frame changes any more. -/
def run (g : FlowGraph) (s : FlowState) : Except ClassError FlowState :=
  match hw : s.work with
  | [] => .ok s
  | head :: work =>
    have hn : work.length < s.work.length := by simp [hw]
    match (g.body.declared? head).or (s.reached[head]?.getD none) with
    | none => run g { s with work }
    | some f =>
      let (arrivals, failure) := g.follow head head f []
      match h : arrivals.reverse.foldlM (arrive g.body) { s with work } with
      | .error e => .error e
      | .ok s' =>
        have hp := arrivals_progress h
        match failure with
        | some e => .error e
        | none => run g s'
termination_by (s.unreached, s.weight, s.work.length)
decreasing_by
  · exact Prod.Lex.right _ (Prod.Lex.right _ hn)
  · rcases hp with rfl | hu | ⟨hu, hl⟩
    · exact Prod.Lex.right _ (Prod.Lex.right _ hn)
    · exact Prod.Lex.left _ _ hu
    · rw [hu]
      exact Prod.Lex.right _ (Prod.Lex.left _ _ hl)

end FlowState

namespace Body

/-- Marks positions among `n`. -/
def marks (n : Nat) (positions : List Nat) : Array Bool :=
  positions.foldl (fun a p => a.setIfInBounds p true) (Array.replicate n false)

/-- The frames that are lacking at some points, in order. -/
def missingFrames (b : Body) (s : FlowState) : List Nat → Except ClassError (List Arrival)
  | [] => .ok []
  | p :: ps => do
    if (b.declared? p).isSome then b.missingFrames s ps
    else
      match s.reached[p]?.getD none, b.get? p with
      | some f, _ => return (p, f) :: (← b.missingFrames s ps)
      | none, some n => throw (.flow (.unreached n))
      | none, none => throw (.flow .fallsOffEnd)

/-- Puts a frame before every jump target, every handler and everything behind a branch that does not
fall through, unless one is there. Gives the number of new frames. -/
def inferFrames (b : Body) (entry : Frame) (thisClass : BinaryName) :
    Except ClassError (Nat × Body) := do
  let b ← b.labelSites
  match b.instructionFrom? 0 with
  | none => return (0, b)
  | some first =>
    let points ← (List.range b.size).mapM b.pointsOf
    let handlers ← b.tryBlocks.mapM b.handler
    let isPoint := marks b.size (points.flatten ++ handlers.map Handler.head)
    let graph : FlowGraph := {
      body := b, handlers, thisClass
      isHead := fun p => p == first || isPoint[p]?.getD false || (b.declared? p).isSome }
    let start : FlowState := ⟨Array.replicate b.size none, []⟩
    let start ← start.arrive b (first, entry)
    let s ← start.run graph
    let missing ← b.missingFrames s ((List.range b.size).filter fun p => isPoint[p]?.getD false)
    let b ← missing.reverse.foldlM (fun b (p, f) => return (← b.insertUnrecorded p (.frame f)).2) b
    return (missing.length, b)

end Body

end ClassGraft
