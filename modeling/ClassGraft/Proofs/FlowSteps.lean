import ClassGraft.Proofs.LeastFrames

namespace ClassGraft

namespace FlowGraph

/-- What comes out of a position on the way from a head, first things first, and the frame with which the
way goes on. -/
def pass (g : FlowGraph) (head position : Nat) (f : Frame) :
    List Arrival × Except ClassError (Option Frame) :=
  match g.body.get? position with
  | none => ([], .error (.flow .fallsOffEnd))
  | some n =>
    if n.isPseudo then ([], .ok (some f))
    else if position ≠ head && g.isHead position then ([(position, f)], .ok none)
    else
      let thrown := g.thrown position f
      match n with
      | .insn i =>
        match f.step g.thisClass (g.body.site? position) i with
        | .error e => (thrown, .error (.unverifiable (.node n) e))
        | .ok f => (thrown, .ok (some f))
      | .branch br =>
        match f.branch br, br.targets.mapM g.body.targetPosition with
        | .error e, _ => (thrown, .error (.unverifiable (.node n) e))
        | .ok _, .error e => (thrown, .error e)
        | .ok f, .ok targets =>
          (thrown ++ targets.map fun t => (t, f), .ok (if br.fallsThrough then some f else none))
      | _ => (thrown, .ok (some f))

variable {g : FlowGraph} {head p : Nat} {f : Frame}

/-- Following goes from one position to the next. -/
theorem follow_pass (g : FlowGraph) (head p : Nat) (f : Frame) (seen : List Arrival) :
    g.follow head p f seen =
      match g.pass head p f with
      | (as, .error e) => (as.reverse ++ seen, some e)
      | (as, .ok none) => (as.reverse ++ seen, none)
      | (as, .ok (some f)) => g.follow head (p + 1) f (as.reverse ++ seen) := by
  rw [follow_cases]
  unfold pass
  cases g.body.get? p with
  | none => rfl
  | some n =>
    dsimp only
    split
    next => rfl
    next =>
      split
      next => rfl
      next =>
        cases n with
        | insn i =>
          dsimp only
          cases f.step g.thisClass (g.body.site? p) i <;> rfl
        | branch br =>
          dsimp only
          cases f.branch br with
          | error e => rfl
          | ok f' =>
            cases br.targets.mapM g.body.targetPosition with
            | error e => rfl
            | ok targets =>
              cases br.fallsThrough <;> simp
        | _ => rfl

theorem lt_size_of_pass {as : List Arrival} {f' : Option Frame}
    (h : g.pass head p f = (as, .ok f')) : p < g.body.size := by
  unfold pass at h
  split at h
  next => cases h
  next n hn => exact Body.lt_size_of_get? hn

end FlowGraph

/-- Where following has come to on the way from a head. -/
structure FlowWay where
  head : Nat
  position : Nat
  frame : Frame

/-- Inference at work: it follows a head or is about to take the next one. -/
structure FlowMachine where
  state : FlowState
  way : Option FlowWay

namespace FlowMachine

/-- Takes the lowest head that is left, or goes by one position. There is no step when no head is left. -/
def step (g : FlowGraph) (m : FlowMachine) : Option (Except ClassError FlowMachine) :=
  match m.way with
  | none =>
    match m.state.work with
    | [] => none
    | head :: work =>
      some (.ok ⟨{ m.state with work },
        ((g.body.declared? head).or (m.state.frame? head)).map fun f => ⟨head, head, f⟩⟩)
  | some ⟨head, position, f⟩ =>
    let (arrivals, next) := g.pass head position f
    some do
      let state ← arrivals.foldlM (FlowState.arrive g.body) m.state
      return ⟨state, (← next).map fun f => ⟨head, position + 1, f⟩⟩

/-- What inference ends with, unless it needs more steps than are allowed. -/
def runWithin (g : FlowGraph) : Nat → FlowMachine → Option (Except ClassError FlowState)
  | 0, _ => none
  | limit + 1, m =>
    match m.step g with
    | none => some (.ok m.state)
    | some (.error e) => some (.error e)
    | some (.ok m) => runWithin g limit m

/-- One if a position is taken next. -/
def takes (m : FlowMachine) (p : Nat) : Nat :=
  if m.way.isNone && m.state.work.head? == some p then 1 else 0

/-- How often a position is taken from those to be followed, up to a number of steps. -/
def taken (g : FlowGraph) (p : Nat) : Nat → FlowMachine → Nat
  | 0, _ => 0
  | limit + 1, m =>
    match m.step g with
    | some (.ok m') => m.takes p + taken g p limit m'
    | _ => 0

variable {g : FlowGraph} {m m' m'' : FlowMachine} {s t : FlowState} {r : Except ClassError FlowState}
  {head p : Nat} {f k : Frame}

/-- With enough steps a machine ends with a result. -/
def Ends (g : FlowGraph) (m : FlowMachine) (r : Except ClassError FlowState) : Prop :=
  ∃ steps, ∀ more, m.runWithin g (steps + more) = some r

/-- After some steps a machine goes on as another one. -/
def Leads (g : FlowGraph) (m m' : FlowMachine) : Prop :=
  ∃ steps, ∀ more, m.runWithin g (steps + more) = m'.runWithin g more

theorem Leads.trans (h : m.Leads g m') (k : m'.Leads g m'') : m.Leads g m'' := by
  obtain ⟨i, hi⟩ := h
  obtain ⟨j, hj⟩ := k
  exact ⟨i + j, fun more => by rw [Nat.add_assoc, hi, hj]⟩

theorem Leads.ends (h : m.Leads g m') (k : m'.Ends g r) : m.Ends g r := by
  obtain ⟨i, hi⟩ := h
  obtain ⟨j, hj⟩ := k
  exact ⟨i + j, fun more => by rw [Nat.add_assoc, hi, hj]⟩

theorem Leads.step (h : m.step g = some (.ok m')) : m.Leads g m' :=
  ⟨1, fun more => by rw [Nat.add_comm, runWithin, h]⟩

theorem Ends.error {e : ClassError} (h : m.step g = some (.error e)) : m.Ends g (.error e) :=
  ⟨1, fun more => by rw [Nat.add_comm, runWithin, h]⟩

theorem Ends.done (h : m.step g = none) : m.Ends g (.ok m.state) :=
  ⟨1, fun more => by rw [Nat.add_comm, runWithin, h]⟩

/-- Comes to an error or to a state in which the next head is taken. -/
def Comes (g : FlowGraph) (m : FlowMachine) : Except ClassError FlowState → Prop
  | .error e => m.Ends g (.error e)
  | .ok t => m.Leads g ⟨t, none⟩

theorem Leads.comes {x : Except ClassError FlowState} (h : m.Leads g m') (k : m'.Comes g x) :
    m.Comes g x := by
  cases x with
  | error e => exact h.ends k
  | ok t => exact h.trans k

/-- Takes arrivals in, up to an error among them or the one that came behind them. -/
def takeIn (g : FlowGraph) (as : List Arrival) (failure : Option ClassError) (s : FlowState) :
    Except ClassError FlowState := do
  let t ← as.foldlM (FlowState.arrive g.body) s
  match failure with
  | some e => .error e
  | none => .ok t

theorem takeIn_append (g : FlowGraph) (as bs : List Arrival) (failure : Option ClassError)
    (s : FlowState) : takeIn g (as ++ bs) failure s =
      (as.foldlM (FlowState.arrive g.body) s).bind (takeIn g bs failure) := by
  unfold takeIn
  rw [List.foldlM_append]
  cases as.foldlM (FlowState.arrive g.body) s <;> rfl

/-- Going from position to position is following, with arrivals taken in on the way. -/
theorem follow_steps (g : FlowGraph) (head p : Nat) (f : Frame) :
    ∃ (as : List Arrival) (failure : Option ClassError),
      (∀ seen, g.follow head p f seen = (as.reverse ++ seen, failure)) ∧
      ∀ s, Comes g ⟨s, some ⟨head, p, f⟩⟩ (takeIn g as failure s) := by
  -- induction on what is left of the body behind the position
  obtain ⟨rest, hrest⟩ : ∃ rest, g.body.size - p = rest := ⟨_, rfl⟩
  induction rest using Nat.strong_induction_on generalizing p f with
  | _ rest ih =>
    have hstep (s : FlowState) : (⟨s, some ⟨head, p, f⟩⟩ : FlowMachine).step g = some (do
        let t ← (g.pass head p f).1.foldlM (FlowState.arrive g.body) s
        return ⟨t, (← (g.pass head p f).2).map fun f => ⟨head, p + 1, f⟩⟩) := rfl
    have hfollow := FlowGraph.follow_pass g head p f
    rcases hpass : g.pass head p f with ⟨as, next⟩
    rw [hpass] at hstep hfollow
    have hfails {s : FlowState} {e : ClassError}
        (he : as.foldlM (FlowState.arrive g.body) s = .error e) :
        Ends g ⟨s, some ⟨head, p, f⟩⟩ (.error e) := .error (by rw [hstep, he]; rfl)
    cases next with
    | error e =>
      refine ⟨as, some e, hfollow, fun s => ?_⟩
      unfold takeIn
      cases ht : as.foldlM (FlowState.arrive g.body) s with
      | error e' => exact hfails ht
      | ok t => exact .error (by rw [hstep, ht]; rfl)
    | ok after =>
      have hgoes {s t : FlowState} (ht : as.foldlM (FlowState.arrive g.body) s = .ok t) :
          Leads g ⟨s, some ⟨head, p, f⟩⟩ ⟨t, after.map fun f => ⟨head, p + 1, f⟩⟩ :=
        .step (by rw [hstep, ht]; rfl)
      cases after with
      | none =>
        refine ⟨as, none, hfollow, fun s => ?_⟩
        unfold takeIn
        cases ht : as.foldlM (FlowState.arrive g.body) s with
        | error e => exact hfails ht
        | ok t => exact hgoes ht
      | some f' =>
        have hlt := FlowGraph.lt_size_of_pass hpass
        obtain ⟨bs, failure, hrest', hcomes⟩ := ih (g.body.size - (p + 1)) (by omega) (p + 1) f' rfl
        refine ⟨as ++ bs, failure, fun seen => ?_, fun s => ?_⟩
        · rw [hfollow, List.reverse_append, List.append_assoc]
          exact hrest' _
        · rw [takeIn_append]
          cases ht : as.foldlM (FlowState.arrive g.body) s with
          | error e => exact hfails ht
          | ok t => exact (hgoes ht).comes (hcomes t)

theorem follow_comes {out : List Arrival} {failure : Option ClassError}
    (h : g.follow head p f [] = (out, failure)) (s : FlowState) :
    Comes g ⟨s, some ⟨head, p, f⟩⟩ (takeIn g out.reverse failure s) := by
  obtain ⟨as, failure', hall, hcomes⟩ := follow_steps g head p f
  have he := (hall []).symm.trans h
  rw [List.append_nil] at he
  cases he
  rw [List.reverse_reverse]
  exact hcomes s

/-- Step by step, inference ends with what it is as a whole. -/
theorem run_ends (g : FlowGraph) (s : FlowState) : Ends g ⟨s, none⟩ (s.run g) := by
  have htake {s : FlowState} {head : Nat} {work : List Nat} (hw : s.work = head :: work) :
      Leads g ⟨s, none⟩ ⟨{ s with work },
        ((g.body.declared? head).or (s.frame? head)).map fun f => ⟨head, head, f⟩⟩ :=
    .step (by unfold step; dsimp only; rw [hw])
  have hfollows {s : FlowState} {head : Nat} {f : Frame} {work : List Nat} {out : List Arrival}
      {failure : Option ClassError} (hw : s.work = head :: work)
      (hf : (g.body.declared? head).or (s.frame? head) = some f)
      (hfollow : g.follow head head f [] = (out, failure)) :
      Comes g ⟨s, none⟩ (takeIn g out.reverse failure { s with work }) := by
    have := htake hw
    rw [hf] at this
    exact this.comes (follow_comes hfollow _)
  fun_induction FlowState.run g s with
  | case1 s hw => exact .done (by unfold step; dsimp only; rw [hw])
  | case2 s head work hw _ hn ih =>
    have := htake hw
    rw [show (g.body.declared? head).or (s.frame? head) = none from hn] at this
    exact this.ends ih
  | case3 s head work hw _ f hf arrivals failure hfollow e harr =>
    have := hfollows hw hf hfollow
    unfold takeIn at this
    rwa [harr] at this
  | case4 s head work hw _ f hf arrivals s' harr _ e hfollow =>
    have := hfollows hw hf hfollow
    unfold takeIn at this
    rwa [harr] at this
  | case5 s head work hw _ f hf arrivals s' harr _ hfollow ih =>
    have := hfollows hw hf hfollow
    unfold takeIn at this
    rw [harr] at this
    exact Leads.ends this ih

theorem count_enqueue (p q : Nat) (ps : List Nat) :
    (FlowState.enqueue q ps).count p ≤ ps.count p + if q = p then 1 else 0 := by
  induction ps with
  | nil => simp [FlowState.enqueue, List.count_cons]
  | cons r ps ih =>
    unfold FlowState.enqueue
    split
    next => rw [List.count_cons]; simp
    next =>
      split
      next => omega
      next => rw [List.count_cons, List.count_cons]; omega

/-- An arrival that queues a position takes weight from its frame. -/
theorem arrive_weighs {b : Body} {a : Arrival} (hk : s.frame? p = some k)
    (h : FlowState.arrive b s a = .ok t) :
    ∃ k', t.frame? p = some k' ∧ t.work.count p + k'.weight ≤ s.work.count p + k.weight := by
  rcases FlowState.arrive_put h with rfl | ⟨f, hlt, rfl, hf⟩
  · exact ⟨k, hk, Nat.le_refl _⟩
  · have hcount := count_enqueue p a.1 s.work
    rw [FlowState.frame?_put s f hlt]
    by_cases he : a.1 = p
    · rw [if_pos he] at hcount ⊢
      subst he
      refine ⟨f, rfl, ?_⟩
      rcases hf with ⟨hn, -⟩ | ⟨known, hknown, -, hm, hne⟩
      · cases hn.symm.trans hk
      · cases Option.some.inj (hknown.symm.trans hk)
        have hlight := (Frame.merge_weight hm).resolve_left hne
        unfold FlowState.put
        dsimp only
        omega
    · rw [if_neg he] at hcount ⊢
      exact ⟨k, hk, Nat.add_le_add_right hcount _⟩

theorem arrivals_weigh {b : Body} {as : List Arrival} (hk : s.frame? p = some k)
    (h : as.foldlM (FlowState.arrive b) s = .ok t) :
    ∃ k', t.frame? p = some k' ∧ t.work.count p + k'.weight ≤ s.work.count p + k.weight := by
  refine foldlM_keeps (P := fun t : FlowState =>
    ∃ k', t.frame? p = some k' ∧ t.work.count p + k'.weight ≤ s.work.count p + k.weight)
    (fun a u u' hu ha => ?_) ⟨k, hk, Nat.le_refl _⟩ h
  obtain ⟨k', hk', hle⟩ := hu
  obtain ⟨k'', hk'', hle'⟩ := arrive_weighs hk' ha
  exact ⟨k'', hk'', Nat.le_trans hle' hle⟩

/-- What a step takes from the worklist and from the weight of a frame pays for taking its position. -/
theorem step_weighs (h : m.step g = some (.ok m')) (hk : m.state.frame? p = some k) :
    ∃ k', m'.state.frame? p = some k' ∧
      m.takes p + m'.state.work.count p + k'.weight ≤ m.state.work.count p + k.weight := by
  obtain ⟨s, way⟩ := m
  cases way with
  | none =>
    unfold step at h
    dsimp only at h hk ⊢
    split at h
    next => cases h
    next head work hw =>
      cases h
      have htakes : takes ⟨s, none⟩ p = if head = p then 1 else 0 := by simp [takes, hw]
      refine ⟨k, hk, ?_⟩
      simp only [htakes, hw, List.count_cons, beq_iff_eq]
      omega
  | some way =>
    obtain ⟨u, hu, h⟩ := except_bind_ok.mp (Option.some.inj h)
    obtain ⟨next, -, h⟩ := except_bind_ok.mp h
    cases h
    obtain ⟨k', hk', hle⟩ := arrivals_weigh hk hu
    have htakes : takes ⟨s, some way⟩ p = 0 := rfl
    exact ⟨k', hk', by rw [htakes, Nat.zero_add]; exact hle⟩

/-- However long inference goes on, a position with a frame is taken again only as often as its frame can
lose weight, if it is not queued already. -/
theorem taken_le (g : FlowGraph) (limit : Nat) (hk : m.state.frame? p = some k) :
    m.taken g p limit ≤ m.state.work.count p + k.weight := by
  induction limit generalizing m k with
  | zero => exact Nat.zero_le _
  | succ limit ih =>
    unfold taken
    split
    next m' hstep =>
      obtain ⟨k', hk', hle⟩ := step_weighs hstep hk
      have := ih hk'
      omega
    next => exact Nat.zero_le _

theorem mem_enqueue_lt {q r : Nat} {ps : List Nat} (hr : r < q) (hps : ∀ x ∈ ps, r < x) :
    ∀ x ∈ FlowState.enqueue q ps, r < x := by
  intro x hx
  rcases (FlowState.mem_enqueue q ps x).mp hx with rfl | hx
  · exact hr
  · exact hps x hx

theorem enqueue_sorted (q : Nat) {ps : List Nat} (h : ps.Pairwise (· < ·)) :
    (FlowState.enqueue q ps).Pairwise (· < ·) := by
  induction h with
  | nil => exact List.pairwise_singleton _ q
  | @cons r ps hr hps ih =>
    unfold FlowState.enqueue
    split
    next hlt =>
      refine List.pairwise_cons.mpr ⟨fun x hx => ?_, List.pairwise_cons.mpr ⟨hr, hps⟩⟩
      rcases List.mem_cons.mp hx with rfl | hx
      · exact hlt
      · exact Nat.lt_trans hlt (hr x hx)
    next hge =>
      split
      next => exact List.pairwise_cons.mpr ⟨hr, hps⟩
      next hne => exact List.pairwise_cons.mpr ⟨mem_enqueue_lt (by omega) hr, ih⟩

theorem arrive_sorted {b : Body} {a : Arrival} (hs : s.work.Pairwise (· < ·))
    (h : FlowState.arrive b s a = .ok t) : t.work.Pairwise (· < ·) := by
  rcases FlowState.arrive_put h with rfl | ⟨f, -, rfl, -⟩
  · exact hs
  · exact enqueue_sorted a.1 hs

theorem step_sorted (hs : m.state.work.Pairwise (· < ·)) (h : m.step g = some (.ok m')) :
    m'.state.work.Pairwise (· < ·) := by
  obtain ⟨s, way⟩ := m
  cases way with
  | none =>
    unfold step at h
    dsimp only at h hs
    split at h
    next => cases h
    next head work hw =>
      cases h
      rw [hw] at hs
      exact (List.pairwise_cons.mp hs).2
  | some way =>
    obtain ⟨u, hu, h⟩ := except_bind_ok.mp (Option.some.inj h)
    obtain ⟨next, -, h⟩ := except_bind_ok.mp h
    cases h
    exact foldlM_keeps (P := fun s : FlowState => s.work.Pairwise (· < ·))
      (fun _ _ _ hs h => arrive_sorted hs h) hs hu

/-- A state of inference that comes after another one. -/
def Steps (g : FlowGraph) : FlowMachine → FlowMachine → Prop :=
  Relation.ReflTransGen fun m m' => m.step g = some (.ok m')

theorem Steps.sorted (h : Steps g m m') (hs : m.state.work.Pairwise (· < ·)) :
    m'.state.work.Pairwise (· < ·) := by
  induction h with
  | refl => exact hs
  | tail _ hstep ih => exact step_sorted ih hstep

end FlowMachine

namespace Body

/-- Inference that gives up after a number of steps. -/
def inferFramesWithin (b : Body) (limit : Nat) (entry : Frame) (c : BinaryName) :
    Option (Except ClassError (Nat × Body)) :=
  b.inferFramesBy (fun g s => FlowMachine.runWithin g limit ⟨s, none⟩) entry c

/-- Inference ends for every body, entry, set of frames and handlers: with enough steps it comes to its
result, and from the time a position has a frame it is followed no more often than that frame can lose
weight, and once more. -/
theorem inferFrames_terminates (b : Body) (entry : Frame) (c : BinaryName) :
    (∃ steps, ∀ limit, steps ≤ limit →
      b.inferFramesWithin limit entry c = some (b.inferFrames entry c)) ∧
    ∀ b₁ flow m p k, b.labelSites = .ok b₁ → b₁.flow? entry c = .ok (some flow) →
      FlowMachine.Steps flow.graph ⟨flow.start, none⟩ m → m.state.frame? p = some k →
      ∀ limit, m.taken flow.graph p limit ≤ k.weight + 1 := by
  refine ⟨?_, fun b₁ flow m p k _ hflow hsteps hk limit => ?_⟩
  · rw [← inferFramesBy_run]
    unfold inferFramesWithin inferFramesBy
    cases b.labelSites with
    | error e => exact ⟨0, fun _ _ => rfl⟩
    | ok b₁ =>
      dsimp only
      cases b₁.flow? entry c with
      | error e => exact ⟨0, fun _ _ => rfl⟩
      | ok flow =>
        cases flow with
        | none => exact ⟨0, fun _ _ => rfl⟩
        | some flow =>
          obtain ⟨steps, hsteps⟩ := FlowMachine.run_ends flow.graph flow.start
          refine ⟨steps, fun limit hle => ?_⟩
          obtain ⟨more, rfl⟩ := Nat.exists_eq_add_of_le hle
          dsimp only
          rw [hsteps more]
  · obtain ⟨first, hstart⟩ := flow?_start hflow
    have hsorted := hsteps.sorted (FlowMachine.arrive_sorted List.Pairwise.nil hstart)
    have hnodup : m.state.work.Nodup := hsorted.imp Nat.ne_of_lt
    have hcount := List.nodup_iff_count_le_one.mp hnodup p
    have := FlowMachine.taken_le flow.graph limit hk
    omega

theorem cycle_entered : (cycle.flow? ⟨[.integer], []⟩ .object).map
    (fun flow => flow.map fun flow => flow.start.frame? 0) = .ok (some (some ⟨[.integer], []⟩)) := by
  cbv

theorem cycle_terminates :
    (∃ steps, ∀ limit, steps ≤ limit →
      cycle.inferFramesWithin limit ⟨[.integer], []⟩ .object = some (.ok (2, framedCycle))) ∧
    ∃ flow, cycle.flow? ⟨[.integer], []⟩ .object = .ok (some flow) ∧
      flow.start.frame? 0 = some ⟨[.integer], []⟩ ∧
      ∀ limit, FlowMachine.taken flow.graph 0 limit ⟨flow.start, none⟩ ≤
        Frame.weight ⟨[.integer], []⟩ + 1 := by
  obtain ⟨hends, htaken⟩ := inferFrames_terminates cycle ⟨[.integer], []⟩ .object
  refine ⟨cycle_framed ▸ hends, ?_⟩
  obtain ⟨_, hflow, he⟩ := except_map_ok cycle_entered
  obtain ⟨flow, rfl, hk⟩ := Option.map_eq_some_iff.mp he
  have hlabels : cycle.labelSites = .ok cycle := by cbv
  exact ⟨flow, hflow, hk, htaken cycle flow _ 0 _ hlabels hflow .refl hk⟩

end Body

end ClassGraft
