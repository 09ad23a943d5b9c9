import ClassGraft.Proofs.FrameInsertion

namespace ClassGraft

namespace Body

variable {b b' : Body} {entry : Frame} {c : BinaryName} {p q : Nat} {place : Nat → Nat}

/-- The parts of a successful inference of frames. -/
structure Inferred (b b' : Body) (entry : Frame) (n first : Nat) (isPoint : Nat → Bool)
    (g : FlowGraph) (s : FlowState) (missing : List Arrival) : Prop where
  body : g.body = b
  entered : b.instructionFrom? 0 = some first
  points : ∀ q, isPoint q = true ↔ b.NeedsFrame q
  targets : ∀ p br l, b.get? p = some (.branch br) → l ∈ br.targets →
    ∃ q, b.targetPosition l = .ok q
  handlers : b.tryBlocks.mapM b.handler = .ok g.handlers
  heads : ∀ p, g.isHead p = (p == first || isPoint p || (b.declared? p).isSome)
  run : ∃ s₀, FlowState.arrive b ⟨Array.replicate b.size none, []⟩ (first, entry) = .ok s₀ ∧
    s₀.run g = .ok s
  lacking : b.missingFrames s ((List.range b.size).filter isPoint) = .ok missing
  inserts : b.insertFrames missing = .ok b'
  count : n = missing.length

/-- What inference sets out with: a graph, the state that the entry makes, and where frames are needed. -/
structure FlowSetup where
  graph : FlowGraph
  start : FlowState
  points : List Nat

/-- The flow in a body, if there is an instruction. -/
def flow? (b : Body) (entry : Frame) (c : BinaryName) : Except ClassError (Option FlowSetup) :=
  match b.instructionFrom? 0 with
  | none => .ok none
  | some first => do
    let points ← (List.range b.size).mapM b.pointsOf
    let handlers ← b.tryBlocks.mapM b.handler
    let isPoint := marks b.size (points.flatten ++ handlers.map Handler.head)
    let start ← FlowState.arrive b ⟨Array.replicate b.size none, []⟩ (first, entry)
    return some {
      graph := {
        body := b, handlers, thisClass := c
        isHead := fun p => p == first || isPoint[p]?.getD false || (b.declared? p).isSome }
      start
      points := (List.range b.size).filter fun p => isPoint[p]?.getD false }

/-- Puts the frames in with which the flow has ended, and counts them. -/
def complete (b : Body) (points : List Nat) (s : FlowState) : Except ClassError (Nat × Body) := do
  let missing ← b.missingFrames s points
  return (missing.length, ← b.insertFrames missing)

/-- Inference with another loop, which may give up. -/
def inferFramesBy (loop : FlowGraph → FlowState → Option (Except ClassError FlowState)) (b : Body)
    (entry : Frame) (c : BinaryName) : Option (Except ClassError (Nat × Body)) :=
  match b.labelSites with
  | .error e => some (.error e)
  | .ok b =>
    match b.flow? entry c with
    | .error e => some (.error e)
    | .ok none => some (.ok (0, b))
    | .ok (some flow) => (loop flow.graph flow.start).map fun s => s.bind (b.complete flow.points)

theorem inferFramesBy_run (b : Body) (entry : Frame) (c : BinaryName) :
    b.inferFramesBy (fun g s => some (s.run g)) entry c = some (b.inferFrames entry c) := by
  unfold inferFramesBy inferFrames
  cases b.labelSites with
  | error e => rfl
  | ok b =>
    dsimp only [bind, Except.bind]
    unfold flow?
    cases b.instructionFrom? 0 with
    | none => rfl
    | some first =>
      dsimp only [bind, Except.bind]
      cases (List.range b.size).mapM b.pointsOf with
      | error e => rfl
      | ok points =>
        dsimp only
        cases b.tryBlocks.mapM b.handler with
        | error e => rfl
        | ok handlers =>
          dsimp only
          cases FlowState.arrive b ⟨Array.replicate b.size none, []⟩ (first, entry) with
          | error e => rfl
          | ok start => rfl

theorem inferFramesBy_ok {loop : FlowGraph → FlowState → Option (Except ClassError FlowState)}
    {r : Nat × Body} (h : b.inferFramesBy loop entry c = some (.ok r)) :
    ∃ b₁, b.labelSites = .ok b₁ ∧ (b₁.flow? entry c = .ok none ∧ r = (0, b₁) ∨
      ∃ flow s, b₁.flow? entry c = .ok (some flow) ∧ loop flow.graph flow.start = some (.ok s) ∧
        b₁.complete flow.points s = .ok r) := by
  unfold inferFramesBy at h
  split at h
  next => cases h
  next b₁ hb₁ =>
    refine ⟨b₁, hb₁, ?_⟩
    split at h
    next => cases h
    next hflow => exact .inl ⟨hflow, (Except.ok.inj (Option.some.inj h)).symm⟩
    next flow hflow =>
      obtain ⟨s, hs, h⟩ := Option.map_eq_some_iff.mp h
      obtain ⟨s, rfl, h⟩ := except_bind_ok.mp h
      exact .inr ⟨flow, s, hflow, hs, h⟩

theorem flow?_none (h : b.flow? entry c = .ok none) : b.instructionFrom? 0 = none := by
  unfold flow? at h
  split at h
  next hfirst => exact hfirst
  next =>
    obtain ⟨_, -, h⟩ := except_bind_ok.mp h
    obtain ⟨_, -, h⟩ := except_bind_ok.mp h
    obtain ⟨_, -, h⟩ := except_bind_ok.mp h
    cases h

theorem flow?_start {flow : FlowSetup} (h : b.flow? entry c = .ok (some flow)) :
    ∃ first, FlowState.arrive b ⟨Array.replicate b.size none, []⟩ (first, entry) = .ok flow.start := by
  unfold flow? at h
  split at h
  next => cases h
  next first _ =>
    obtain ⟨_, -, h⟩ := except_bind_ok.mp h
    obtain ⟨_, -, h⟩ := except_bind_ok.mp h
    obtain ⟨start, hstart, h⟩ := except_bind_ok.mp h
    cases h
    exact ⟨first, hstart⟩

/-- A flow that has ended and been completed has all parts. -/
theorem flow?_inferred {flow : FlowSetup} {s : FlowState} {n : Nat}
    (h : b.flow? entry c = .ok (some flow)) (hrun : flow.start.run flow.graph = .ok s)
    (hcomplete : b.complete flow.points s = .ok (n, b')) :
    flow.graph.thisClass = c ∧ ∃ first isPoint missing,
      FlowState.arrive b ⟨Array.replicate b.size none, []⟩ (first, entry) = .ok flow.start ∧
        b.Inferred b' entry n first isPoint flow.graph s missing := by
  unfold flow? at h
  split at h
  next => cases h
  next first hfirst =>
    obtain ⟨points, hpoints, h⟩ := except_bind_ok.mp h
    obtain ⟨handlers, hhandlers, h⟩ := except_bind_ok.mp h
    obtain ⟨s₀, hs₀, h⟩ := except_bind_ok.mp h
    cases h
    obtain ⟨missing, hmissing, hinsert⟩ := except_bind_ok.mp hcomplete
    obtain ⟨b₂, hb₂, he⟩ := except_bind_ok.mp hinsert
    cases he
    refine ⟨rfl, first, _, missing, hs₀, rfl, hfirst, fun q => ?_, fun p br l hn hl => ?_,
      hhandlers, fun p => rfl, ⟨s₀, hs₀, hrun⟩, hmissing, hb₂, rfl⟩
    · exact marks_points hpoints hhandlers q
    · obtain ⟨qs, hqs⟩ :=
        mapM_ok_each hpoints p (List.mem_range.mpr (lt_size_of_get? hn))
      exact pointsOf_targets hqs hn hl

theorem inferFrames_ok {n : Nat} (h : b.inferFrames entry c = .ok (n, b')) :
    ∃ b₁, b.labelSites = .ok b₁ ∧ (b₁.instructionFrom? 0 = none ∧ n = 0 ∧ b' = b₁ ∨
      ∃ first isPoint g s missing, g.thisClass = c ∧
        b₁.Inferred b' entry n first isPoint g s missing) := by
  obtain ⟨b₁, h₁, hparts⟩ := inferFramesBy_ok ((inferFramesBy_run b entry c).trans (congrArg some h))
  refine ⟨b₁, h₁, ?_⟩
  rcases hparts with ⟨hflow, he⟩ | ⟨flow, s, hflow, hrun, hcomplete⟩
  · cases he
    exact .inl ⟨flow?_none hflow, rfl, rfl⟩
  · obtain ⟨hc, first, isPoint, missing, -, hinferred⟩ :=
      flow?_inferred hflow (Option.some.inj hrun) hcomplete
    exact .inr ⟨first, isPoint, _, s, missing, hc, hinferred⟩

theorem missingFrames_ok {s : FlowState} {ps : List Nat} {missing : List Arrival}
    (h : b.missingFrames s ps = .ok missing) :
    missing.map Prod.fst = ps.filter (fun p => (b.declared? p).isNone) ∧
      ∀ m ∈ missing, s.frame? m.1 = some m.2 := by
  induction ps generalizing missing with
  | nil => cases h; exact ⟨rfl, fun m hm => absurd hm List.not_mem_nil⟩
  | cons p ps ih =>
    unfold missingFrames at h
    split at h
    next hd =>
      obtain ⟨hm, hf⟩ := ih h
      exact ⟨by rw [hm, List.filter_cons_of_neg
        (by simp [Option.isSome_iff_ne_none.mp hd])], hf⟩
    next hd =>
      split at h
      next f hr =>
        obtain ⟨ms, hms, h⟩ := except_bind_ok.mp h
        cases h
        obtain ⟨hm, hf⟩ := ih hms
        refine ⟨by rw [List.map_cons, hm, List.filter_cons_of_pos (by simpa using hd)], ?_⟩
        intro m hm
        rcases List.mem_cons.mp hm with rfl | hm
        · exact hr
        · exact hf m hm
      next => cases h
      next => cases h

namespace Inferred

variable {n first : Nat} {isPoint : Nat → Bool} {g : FlowGraph} {s : FlowState}
  {missing : List Arrival}

theorem mem_missing (h : b.Inferred b' entry n first isPoint g s missing) :
    p ∈ missing.map Prod.fst ↔ b.NeedsFrame p ∧ b.declared? p = none := by
  rw [(missingFrames_ok h.lacking).1, List.mem_filter, List.mem_filter, List.mem_range,
    Option.isNone_iff_eq_none, h.points]
  constructor
  · rintro ⟨⟨-, hp⟩, hd⟩
    exact ⟨hp, hd⟩
  · rintro ⟨hp, hd⟩
    obtain ⟨i, hi, -⟩ := hp.instruction
    exact ⟨⟨lt_size_of_get? hi, hp⟩, hd⟩

theorem inserted (h : b.Inferred b' entry n first isPoint g s missing) :
    ∃ place, b.FramesInserted b' missing place := by
  refine insertFrames_inserts ?_ (fun m hm => ?_) h.inserts
  · rw [(missingFrames_ok h.lacking).1]
    exact (List.pairwise_lt_range.filter _).filter _
  · exact (h.mem_missing.mp (List.mem_map_of_mem hm)).1.instruction

theorem proper {I : Intake} (h : b.Inferred b' entry n first isPoint g s missing)
    (hgiven : ∀ p f, b.declared? p = some f → I.Fit f) (hkept : g.Preserves I.Fit) :
    FlowState.Proper I g where
  handlers x hx := by
    obtain ⟨t, -, ht⟩ := (mem_mapM_ok h.handlers x).mp hx
    obtain ⟨i, hi, -⟩ := targetPosition_instruction (handler_ok.mp ht).1
    rw [h.body]
    exact lt_size_of_get? hi
  given := by rwa [h.body]
  preserves := hkept

theorem head_iff (h : b.Inferred b' entry n first isPoint g s missing) :
    g.Head p ↔ p = first ∨ b.NeedsFrame p ∨ (b.declared? p).isSome = true := by
  rw [FlowGraph.Head, h.heads, Bool.or_eq_true, Bool.or_eq_true, beq_iff_eq, h.points, or_assoc]

/-- What inference keeps holds of all frames that it ends with. -/
theorem kept {K : Nat → Frame → Prop} (h : b.Inferred b' entry n first isPoint g s missing)
    (hk : FlowState.Keeps g K) (hentry : K first entry) : ∀ p f, s.frame? p = some f → K p f := by
  obtain ⟨s₀, hs₀, hrun⟩ := h.run
  have hfold : [(first, entry)].foldlM (FlowState.arrive b)
      ⟨Array.replicate b.size none, []⟩ = .ok s₀ := by
    rw [List.foldlM_cons, hs₀]
    rfl
  refine hk.run (hk.arrivals (fun p f hf => ?_) (fun a ha => ?_) hfold) hrun
  · rw [FlowState.empty_frame?] at hf
    cases hf
  · rw [List.mem_singleton.mp ha]
    exact hentry

/-- What inference ends with: all heads that were reached are done, the entry has been taken in, and it
is all that came to the first instruction if that needs no frame. -/
structure Settled (I : Intake) (b : Body) (entry : Frame) (first : Nat) (g : FlowGraph)
    (s : FlowState) : Prop where
  tidy : s.Tidy I b
  done : ∀ p f, s.frame? p = some f → s.Done I g p
  entered : s.Holds I b (first, entry)
  alone : ¬ b.NeedsFrame first → b.declared? first = none → s.frame? first = some entry.trim

/-- In whatever order the heads are followed, in the end all that were reached are done, and the entry
has been taken in. -/
theorem visited {I : Intake} (h : b.Inferred b' entry n first isPoint g s missing)
    (hproper : FlowState.Proper I g) (hentry : I.Fit entry) {s₀ t : FlowState}
    (hs₀ : FlowState.arrive b ⟨Array.replicate b.size none, []⟩ (first, entry) = .ok s₀)
    (hvisits : s₀.Visits g t) :
    t.Tidy I b ∧ (∀ p f, t.frame? p = some f → t.Done I g p) ∧ t.Holds I b (first, entry) := by
  obtain ⟨-, i, hi, -⟩ := instructionFrom?_spec h.entered
  rw [← h.body] at hs₀ hi ⊢
  obtain ⟨hinv, hhold, -⟩ := FlowState.start_invariant hentry (lt_size_of_get? hi) hs₀
  obtain ⟨hfinal, hdone, hkeep⟩ := hvisits.settles hproper hinv
  refine ⟨hfinal.tidy, fun p f hf => (hfinal.done p f hf).resolve_left ?_, hkeep _ hentry hhold⟩
  rw [hdone]
  exact List.not_mem_nil

theorem settled {I : Intake} (h : b.Inferred b' entry n first isPoint g s missing)
    (hproper : FlowState.Proper I g) (hentry : I.Fit entry) : Settled I b entry first g s := by
  obtain ⟨s₀, hs₀, hrun⟩ := h.run
  obtain ⟨htidy, hdone, hentered⟩ := h.visited hproper hentry hs₀ (FlowState.run_visits hrun)
  refine ⟨htidy, hdone, hentered, fun hneeds hd => ?_⟩
  obtain ⟨-, i, hi, -⟩ := instructionFrom?_spec h.entered
  rw [← h.body] at hs₀ hi hneeds hd
  obtain ⟨hinv, -, hwork, htrim⟩ := FlowState.start_invariant hentry (lt_size_of_get? hi) hs₀
  have hlater {q : Nat} (hq : g.body.NeedsFrame q) : first < q := by
    obtain ⟨j, hj, hr⟩ := hq.instruction
    rw [h.body] at hj
    obtain ⟨r, hfrom, hle⟩ := instructionFrom?_least (Nat.zero_le q) hj hr
    cases Option.some.inj (h.entered.symm.trans hfrom)
    rcases Nat.lt_or_eq_of_le hle with hlt | rfl
    · exact hlt
    · exact absurd hq hneeds
  rw [← htrim hd]
  refine FlowState.run_keeps hproper hinv hrun (fun p hp => Nat.le_of_eq (hwork p hp).symm)
    (fun p br l r hn hl hr => hlater (.target hn hl hr)) fun x hx => ?_
  obtain ⟨t, ht, hx⟩ := (mem_mapM_ok h.handlers x).mp hx
  rw [← h.body] at ht hx
  exact hlater (.handler ht (handler_ok.mp hx).1)

theorem framed_iff (h : b.Inferred b' entry n first isPoint g s missing)
    (hf : b.FramesInserted b' missing place) :
    (b'.declared? (place p)).isSome = true ↔ b.NeedsFrame p ∨ (b.declared? p).isSome = true := by
  by_cases hm : p ∈ missing.map Prod.fst
  · obtain ⟨m, hmem, rfl⟩ := List.mem_map.mp hm
    rw [hf.inserted m hmem]
    exact ⟨fun _ => .inl (h.mem_missing.mp hm).1, fun _ => rfl⟩
  · rw [hf.others p hm]
    refine ⟨.inr, fun hp => hp.elim (fun hneeds => ?_) id⟩
    cases hd : b.declared? p with
    | some f => rfl
    | none => exact absurd (h.mem_missing.mpr ⟨hneeds, hd⟩) hm

theorem carries (h : b.Inferred b' entry n first isPoint g s missing)
    (hf : b.FramesInserted b' missing place) : b.Carries b' g.Head b'.IsHead place where
  embeds := hf.embeds.imp fun _ hn => hn.pseudo
  heads p i hi hr := by
    have hfirst : b'.instructionFrom? 0 = some (place first) := by
      rw [hf.embeds.instructionFrom?_zero fun _ hn => hn.pseudo, h.entered, Option.map_some]
    rw [h.head_iff, IsHead, h.framed_iff hf, hfirst, Option.some.injEq]
    refine or_congr_left ⟨fun he => (hf.embeds.inj he).symm, fun he => by rw [he]⟩
  sites := hf.sites
  targets := h.targets
  handlers t ht := mapM_ok_each h.handlers t ht

/-- At a head that was reached, the frame is the one with which inference ended. -/
theorem headFrame_place (h : b.Inferred b' entry n first isPoint g s missing)
    (hf : b.FramesInserted b' missing place)
    {I : Intake} (hs : Settled I b entry first g s) (hp : g.Head p) :
    (b.declared? p).or (s.frame? p) = some (b'.headFrame entry (place p)) := by
  unfold headFrame
  by_cases hm : p ∈ missing.map Prod.fst
  · obtain ⟨m, hmem, rfl⟩ := List.mem_map.mp hm
    rw [(h.mem_missing.mp hm).2, Option.none_or, hf.inserted m hmem,
      (missingFrames_ok h.lacking).2 m hmem, Option.getD_some]
  · rw [hf.others p hm]
    cases hd : b.declared? p with
    | some f => rfl
    | none =>
      have hneeds : ¬ b.NeedsFrame p := fun hn => hm (h.mem_missing.mpr ⟨hn, hd⟩)
      rcases h.head_iff.mp hp with rfl | hn | hsome
      · rw [Option.none_or, hs.alone hneeds hd, Option.getD_none]
      · exact absurd hn hneeds
      · rw [hd] at hsome
        cases hsome

theorem sends_head (h : b.Inferred b' entry n first isPoint g s missing) {start f : Frame}
    (hs : b.Sends c g.Head p start q f) : g.Head q := by
  cases hs with
  | falls _ _ _ _ hh => exact hh
  | jumps _ hrun _ hl hq => exact h.head_iff.mpr (.inr (.inl (.target hrun.node hl hq)))
  | throws _ _ ht hh => exact h.head_iff.mpr (.inr (.inl (.handler ht (handler_ok.mp hh).1)))

/-- A head that was reached has been followed from its frame, and what it sends has been taken in. -/
theorem followed (h : b.Inferred b' entry n first isPoint g s missing)
    (hf : b.FramesInserted b' missing place) {I : Intake} (hs : Settled I b entry first g s)
    (hp : g.Head p) {k : Frame} (hk : s.frame? p = some k) :
    b.Checks g.thisClass g.Head p (b'.headFrame entry (place p)) ∧
      ∀ q f, b.Sends g.thisClass g.Head p (b'.headFrame entry (place p)) q f →
        g.Head q ∧ s.Holds I b (q, f) := by
  have hframe := h.headFrame_place hf hs hp
  have hsends {start f : Frame} {q : Nat} (hq : b.Sends g.thisClass g.Head p start q f) :=
    h.sends_head hq
  have hhandlers := h.handlers
  have hdone := hs.done p k hk
  cases h.body
  obtain ⟨out, hout, hall⟩ := hdone _ hframe
  exact ⟨FlowGraph.follow_checks hout, fun q f hq =>
    ⟨hsends hq, hall _ (FlowGraph.sends_followed hhandlers hq hout)⟩⟩

theorem reached_back (h : b.Inferred b' entry n first isPoint g s missing)
    (hf : b.FramesInserted b' missing place) {I : Intake} (hs : Settled I b entry first g s)
    (hq : b'.Reached entry g.thisClass q) :
    ∃ p k, q = place p ∧ g.Head p ∧ s.frame? p = some k := by
  induction hq with
  | first hq =>
    rw [hf.embeds.instructionFrom?_zero fun _ hn => hn.pseudo, h.entered] at hq
    obtain ⟨k, hk, -⟩ := hs.entered
    exact ⟨first, k, (Option.some.inj hq).symm, h.head_iff.mpr (.inl rfl), hk⟩
  | sent _ hsend ih =>
    obtain ⟨p, k, rfl, hp, hk⟩ := ih
    obtain ⟨r, rfl, hback⟩ := (h.carries hf).sends_back hsend
    obtain ⟨hhead, known, hknown, -⟩ := (h.followed hf hs hp hk).2 r _ hback
    exact ⟨r, known, rfl, hhead, hknown⟩

end Inferred

end Body

end ClassGraft
