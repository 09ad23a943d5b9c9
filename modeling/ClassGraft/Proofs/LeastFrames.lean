import ClassGraft.Proofs.FrameInference
import ClassGraft.Proofs.FrameMonotony

namespace ClassGraft

namespace Body

/-- Heads are the first instruction, those that need a frame and those that have one. -/
def Head (b : Body) (p : Nat) : Prop :=
  b.instructionFrom? 0 = some p ∨ b.NeedsFrame p ∨ (b.declared? p).isSome = true

/-- The frame at a head: the one that is given or else the one that is assigned. -/
def frameAt (b : Body) (X : Nat → Frame) (p : Nat) : Frame := (b.declared? p).getD (X p)

/-- The heads that flow reaches, with assigned frames. -/
inductive FlowsTo (b : Body) (c : BinaryName) (X : Nat → Frame) : Nat → Prop
  | first {p : Nat} : b.instructionFrom? 0 = some p → FlowsTo b c X p
  | sent {p q : Nat} {f : Frame} : FlowsTo b c X p → b.Sends c b.Head p (b.frameAt X p) q f →
      FlowsTo b c X q

/-- An assignment of frames that agrees with the flow of types: all that comes to a head without a frame
is covered there. -/
structure Solves (b : Body) (entry : Frame) (c : BinaryName) (X : Nat → Frame) : Prop where
  enters : ∀ p, b.instructionFrom? 0 = some p → b.declared? p = none → (X p).Covers entry
  checks : ∀ p, b.FlowsTo c X p → b.Checks c b.Head p (b.frameAt X p)
  covers : ∀ p q f, b.FlowsTo c X p → b.Sends c b.Head p (b.frameAt X p) q f →
    b.declared? q = none → (X q).Covers f

variable {b : Body} {x f k : Frame} {c : BinaryName} {isHead : Nat → Prop} {head p q : Nat}

theorem Passes.above (hp : b.Passes c isHead head f p k) (hx : x.Above f)
    (hc : b.Checks c isHead head x) : ∃ y, b.Passes c isHead head x p y ∧ y.Above k := by
  induction hp with
  | start => exact ⟨x, .start, hx⟩
  | pseudo _ hn hr ih =>
    obtain ⟨y, hy, habove⟩ := ih
    exact ⟨y, hy.pseudo hn hr, habove⟩
  | insn _ hrun hstep ih =>
    obtain ⟨y, hy, habove⟩ := ih
    obtain ⟨y', hy'⟩ := hc.steps _ y _ hy hrun
    exact ⟨y', hy.insn hrun hy', habove.step hy' hstep⟩
  | branch _ hrun hbr hfalls ih =>
    obtain ⟨y, hy, habove⟩ := ih
    obtain ⟨⟨y', hy'⟩, -⟩ := hc.branches _ y _ hy hrun
    exact ⟨y', hy.branch hrun hy' hfalls, habove.branch hy' hbr⟩

theorem Sends.above (hs : b.Sends c isHead head f q k) (hx : x.Above f)
    (hc : b.Checks c isHead head x) : ∃ y, b.Sends c isHead head x q y ∧ y.Above k := by
  cases hs with
  | falls hp hn hr hne hh =>
    obtain ⟨y, hy, habove⟩ := hp.above hx hc
    exact ⟨y, .falls hy hn hr hne hh, habove⟩
  | jumps hp hrun hbr hl hq =>
    obtain ⟨y, hy, habove⟩ := hp.above hx hc
    obtain ⟨⟨y', hy'⟩, -⟩ := hc.branches _ y _ hy hrun
    exact ⟨y', .jumps hy hrun hy' hl hq, habove.branch hy' hbr⟩
  | throws hp hrun ht hh hlo hhi =>
    obtain ⟨y, hy, habove⟩ := hp.above hx hc
    exact ⟨_, .throws hy hrun ht hh hlo hhi, habove.caught _⟩

end Body

namespace FlowState

variable {b : Body} {g : FlowGraph} {c : BinaryName} {X : Nat → Frame} {s t : FlowState} {a : Arrival}

/-- What holds of all that has been recorded: an assignment is above it, and it is trimmed. -/
structure Below (b : Body) (c : BinaryName) (X : Nat → Frame) (s : FlowState) : Prop where
  recorded : ∀ p k, s.frame? p = some k →
    b.FlowsTo c X p ∧ (b.declared? p = none → k.trim = k ∧ (X p).Above k)
  work : ∀ p ∈ s.work, ∃ k, s.frame? p = some k

theorem empty_below (b : Body) (c : BinaryName) (X : Nat → Frame) (n : Nat) :
    Below b c X ⟨Array.replicate n none, []⟩ where
  recorded p k hk := by
    rw [empty_frame?] at hk
    cases hk
  work _ hp := absurd hp List.not_mem_nil

theorem Below.arrive (hs : s.Below b c X) (hflow : b.FlowsTo c X a.1)
    (ha : b.declared? a.1 = none → (X a.1).Above a.2) (h : arrive b s a = .ok t) : t.Below b c X := by
  rcases arrive_put h with rfl | ⟨f, hlt, rfl, hf⟩
  · exact hs
  · have hnew (hd : b.declared? a.1 = none) : f.trim = f ∧ (X a.1).Above f := by
      rcases hf with ⟨-, rfl⟩ | ⟨known, hknown, -, hm, -⟩
      · rw [hd]
        exact ⟨Frame.trim_trim _, (ha hd).trans (Frame.Above.trim _).1⟩
      · exact ⟨Frame.merge_trim hm,
          (Frame.merge_least hm _).mpr ⟨((hs.recorded _ _ hknown).2 hd).2, ha hd⟩⟩
    refine ⟨fun p k hk => ?_, fun p hp => ?_⟩
    · rw [frame?_put s f hlt] at hk
      split at hk
      next he =>
        cases hk
        subst he
        exact ⟨hflow, hnew⟩
      next => exact hs.recorded p k hk
    · rw [frame?_put s f hlt]
      split
      next => exact ⟨f, rfl⟩
      next hne => exact hs.work p (((mem_enqueue a.1 s.work p).mp hp).resolve_left (Ne.symm hne))

theorem Below.arrivals {as : List Arrival} (hs : s.Below b c X)
    (ha : ∀ a ∈ as, b.FlowsTo c X a.1 ∧ (b.declared? a.1 = none → (X a.1).Above a.2))
    (h : as.foldlM (FlowState.arrive b) s = .ok t) : t.Below b c X :=
  (foldlM_each (P := Below b c X) (Q := fun _ _ => True)
    (fun a hm _ _ hs h => ⟨hs.arrive (ha a hm).1 (ha a hm).2 h, trivial, fun _ _ => trivial⟩) hs h).1

/-- Whatever is sent from a recorded frame, an assignment has something above it to send. -/
theorem Below.sends {entry f k : Frame} {head q : Nat} (hX : b.Solves entry c X) (hs : s.Below b c X)
    (hhead : head ∈ s.work) (hf : (b.declared? head).or (s.frame? head) = some f)
    (hsend : b.Sends c b.Head head f q k) :
    b.FlowsTo c X q ∧ (b.declared? q = none → (X q).Above k) := by
  obtain ⟨known, hknown⟩ := hs.work head hhead
  obtain ⟨hflow, habove⟩ := hs.recorded head known hknown
  have hframe : (b.frameAt X head).Above f := by
    unfold Body.frameAt
    cases hd : b.declared? head with
    | some d =>
      rw [hd, Option.some_or] at hf
      cases hf
      exact .refl _
    | none =>
      rw [hd, Option.none_or, hknown] at hf
      cases hf
      exact (habove hd).2
  obtain ⟨y, hy, hyk⟩ := hsend.above hframe (hX.checks head hflow)
  exact ⟨.sent hflow hy, fun hd => (Frame.covers_iff.mp (hX.covers head q y hflow hy hd)).trans hyk⟩

/-- Visits of heads, in whatever order, never leave what an assignment covers. -/
theorem Below.visits {entry : Frame} (hX : g.body.Solves entry g.thisClass X)
    (hg : g.body.tryBlocks.mapM g.body.handler = .ok g.handlers) (hheads : g.Head = g.body.Head)
    (hs : s.Below g.body g.thisClass X) (h : s.Visits g t) : t.Below g.body g.thisClass X := by
  induction h with
  | done => exact hs
  | skip _ _ _ ih => exact ih ⟨hs.recorded, fun p hp => hs.work p (List.mem_of_mem_erase hp)⟩
  | @follow s s' t head f out hhead hf hfollow harr _ ih =>
    -- the recorded frame is below the assigned one, so that all it sends is below what that one sends
    have hsends : ∀ a ∈ (g.follow head head f []).1,
        a ∈ [] ∨ g.body.Sends g.thisClass g.Head head f a.1 a.2 :=
      FlowGraph.followed_sends hg .start
    rw [hfollow, hheads] at hsends
    have hrest : ({ s with work := s.work.erase head } : FlowState).Below g.body g.thisClass X :=
      ⟨hs.recorded, fun p hp => hs.work p (List.mem_of_mem_erase hp)⟩
    refine ih (hrest.arrivals (fun a ha => ?_) harr)
    exact hs.sends hX hhead hf ((hsends a (List.mem_reverse.mp ha)).resolve_left List.not_mem_nil)

/-- Does an assignment have the frames that are recorded where none is given? -/
def Gives (b : Body) (s : FlowState) (X : Nat → Frame) : Prop :=
  ∀ p k, b.Head p → b.declared? p = none → s.frame? p = some k → X p = k

end FlowState

namespace Body

variable {b b' : Body} {entry : Frame} {c : BinaryName} {p q : Nat} {X : Nat → Frame} {place : Nat → Nat}

namespace Inferred

variable {n first : Nat} {isPoint : Nat → Bool} {g : FlowGraph} {s s₀ t u : FlowState}
  {missing : List Arrival}

theorem head_eq (h : b.Inferred b' entry n first isPoint g s missing) : g.Head = b.Head := by
  funext p
  refine propext (h.head_iff.trans ?_)
  unfold Head
  rw [h.entered, Option.some.injEq, eq_comm]

/-- Every assignment that agrees with the flow of types is above the frames with which visits end. -/
theorem below (h : b.Inferred b' entry n first isPoint g s missing)
    (hs₀ : FlowState.arrive b ⟨Array.replicate b.size none, []⟩ (first, entry) = .ok s₀)
    (hvisits : s₀.Visits g t) (hX : b.Solves entry g.thisClass X) : t.Below b g.thisClass X := by
  have hhandlers := h.handlers
  have hheads := h.head_eq
  have hstart : s₀.Below b g.thisClass X :=
    (FlowState.empty_below b g.thisClass X b.size).arrive (.first h.entered)
      (fun hd => Frame.covers_iff.mp (hX.enters first h.entered hd)) hs₀
  cases h.body
  exact hstart.visits hX hhandlers hheads hvisits

end Inferred

/-- A loop that follows heads in an order of its own. It may give up or end with an error. -/
structure FlowOrder where
  loop : FlowGraph → FlowState → Option (Except ClassError FlowState)
  visits : ∀ {g s t}, loop g s = some (.ok t) → s.Visits g t

/-- Inference itself takes the lowest head each time. -/
def FlowOrder.lowest : FlowOrder where
  loop g s := some (s.run g)
  visits h := FlowState.run_visits (Option.some.inj h)

/-- A way back with something else in a local than at first. -/
def cycle : Body := {
  Body.empty with
  entries := #[(⟨0⟩, .insn (.load .int 0)), (⟨1⟩, .insn (.store .int 1)), (⟨2⟩, .label ⟨0⟩),
    (⟨3⟩, .insn (.load .int 0)), (⟨4⟩, .branch (.ifZero .eq ⟨1⟩)), (⟨5⟩, .insn .constNull),
    (⟨6⟩, .insn (.store .ref 1)), (⟨7⟩, .branch (.goto ⟨0⟩)), (⟨8⟩, .label ⟨1⟩),
    (⟨9⟩, .branch (.leave none))]
  nextId := 10
  nextLabel := 2 }

def framedCycle : Body := {
  cycle with
  entries := #[(⟨0⟩, .insn (.load .int 0)), (⟨1⟩, .insn (.store .int 1)), (⟨2⟩, .label ⟨0⟩),
    (⟨11⟩, .frame ⟨[.integer], []⟩), (⟨3⟩, .insn (.load .int 0)), (⟨4⟩, .branch (.ifZero .eq ⟨1⟩)),
    (⟨5⟩, .insn .constNull), (⟨6⟩, .insn (.store .ref 1)), (⟨7⟩, .branch (.goto ⟨0⟩)),
    (⟨8⟩, .label ⟨1⟩), (⟨10⟩, .frame ⟨[.integer], []⟩), (⟨9⟩, .branch (.leave none))]
  nextId := 12
  version := 2 }

theorem cycle_framed : cycle.inferFrames ⟨[.integer], []⟩ .object = .ok (2, framedCycle) := by cbv

end Body

end ClassGraft
