import ClassGraft.Proofs.FrameInference

namespace ClassGraft

theorem foldlM_same {ε α β : Type} {f : β → α → Except ε β} {xs : List α} {b : β}
    (h : ∀ a ∈ xs, f b a = .ok b) : xs.foldlM f b = .ok b := by
  induction xs with
  | nil => rfl
  | cons a xs ih =>
    obtain ⟨ha, hxs⟩ := List.forall_mem_cons.mp h
    exact except_bind_ok.mpr ⟨b, ha, ih hxs⟩

/-- Following a way on which everything accepts its frame succeeds. -/
theorem FlowGraph.follow_succeeds {g : FlowGraph} {head p : Nat} {start f : Frame}
    (hc : g.body.Checks g.thisClass g.Head head start)
    (hp : g.body.Passes g.thisClass g.Head head start p f) (seen : List Arrival) :
    (g.follow head p f seen).2 = none := by
  fun_induction g.follow head p f seen with
  | case1 p f seen he =>
    have hlt := hc.inside p f hp
    unfold Body.size at hlt
    rw [Array.getElem?_eq_getElem hlt] at he
    cases he
  | case2 p f seen id n he hr ih => exact ih (hp.pseudo (Body.get?_of_entry he) hr)
  | case3 => rfl
  | case4 p f seen id hh seen' i he e _ _ hs =>
    obtain ⟨f', hf'⟩ := hc.steps p f i hp (runs_of_entry he Bool.false_ne_true hh)
    rw [dite_eq_ite, Frame.step_site, hf'] at hs
    cases hs
  | case5 p f seen id hh seen' i he f' _ _ hs ih =>
    rw [dite_eq_ite] at hs
    simp only [hs]
    have hstep := (Frame.step_site _).symm.trans hs
    exact ih (hp.insn (runs_of_entry he Bool.false_ne_true hh) hstep)
  | case6 p f seen id hh seen' br he e hs =>
    obtain ⟨⟨f', hf'⟩, -⟩ := hc.branches p f br hp (runs_of_entry he Bool.false_ne_true hh)
    cases hs.symm.trans hf'
  | case7 p f seen id hh seen' br he e f' hs _ hts =>
    obtain ⟨-, htargets⟩ := hc.branches p f br hp (runs_of_entry he Bool.false_ne_true hh)
    obtain ⟨ts, hok, -⟩ := mapM_total htargets
    cases hs.symm.trans hok
  | case8 p f seen id hh seen' br he f' ts _ hbr seen'' hf _ _ ih =>
    exact ih (hp.branch (runs_of_entry he Bool.false_ne_true hh) hbr hf)
  | case9 => rfl
  | case10 p f seen id n he hr hh seen' _ hi hb ih =>
    cases n with
    | insn i => exact (hi i he rfl HEq.rfl).elim
    | branch br => exact (hb br he rfl HEq.rfl).elim
    | label _ | line _ | frame _ => exact absurd rfl hr

/-- An intake that asks nothing of frames, for what concerns only which heads are reached. -/
def Intake.any : Intake where
  Fit _ := True
  Takes _ _ := True
  trim_fit _ := trivial
  trim_takes _ := trivial
  merge_fit _ _ _ := trivial
  merge_takes _ _ _ := trivial
  merge_keeps _ _ _ _ _ := trivial

namespace Body

/-- Has the node with an id, which is not a later one, a label before it? -/
def Labelled (b : Body) (id : NodeId) : Prop :=
  id.index < b.nextId ∧ ∃ p, b.position? id = some p ∧ (b.site? p).isSome = true

/-- A body in which inference finds nothing to do. -/
structure Framed (b : Body) (entry : Frame) (c : BinaryName) : Prop where
  labelled : ∀ e ∈ b.entries.toList, e.2.isNew = true → b.Labelled e.1
  targets : ∀ p br l, b.get? p = some (.branch br) → l ∈ br.targets →
    ∃ q, b.targetPosition l = .ok q
  handlers : b.instructionFrom? 0 ≠ none → ∀ t ∈ b.tryBlocks, ∃ x, b.handler t = .ok x
  framed : ∀ q, b.NeedsFrame q → (b.declared? q).isSome = true
  checks : ∀ p, b.Reached entry c p → b.Checks c b.IsHead p (b.headFrame entry p)

variable {b : Body} {entry : Frame} {c : BinaryName} {p q : Nat}

theorem Reached.instruction (h : b.Reached entry c p) : ∃ n, b.get? p = some n ∧ n.isPseudo = false := by
  cases h with
  | first h => exact (instructionFrom?_spec h).2
  | sent _ hs => exact hs.instruction

namespace Framed

/-- Whatever flows out of a head comes to a frame. -/
theorem sent_declared (h : b.Framed entry c) (hp : b.Reached entry c p) {start f : Frame}
    (hs : b.Sends c b.IsHead p start q f) : (b.declared? q).isSome = true := by
  cases hs with
  | falls hpass _ _ hne hhead =>
    refine hhead.resolve_left fun hfirst => hne ?_
    -- nothing comes before the first instruction
    obtain ⟨n, hn, hr⟩ := hp.instruction
    obtain ⟨r, hr, hle⟩ := instructionFrom?_least (Nat.zero_le p) hn hr
    cases Option.some.inj (hfirst.symm.trans hr)
    exact Nat.le_antisymm hle hpass.le
  | jumps _ hrun _ hl hq => exact h.framed q (.target hrun.node hl hq)
  | throws _ _ ht hx => exact h.framed _ (.handler ht (handler_ok.mp hx).1)

theorem labelSites (h : b.Framed entry c) : b.labelSites = .ok b := by
  refine foldlM_same fun id hid => ?_
  obtain ⟨e, he, rfl⟩ := List.mem_map.mp hid
  obtain ⟨he, hnew⟩ := List.mem_filter.mp he
  obtain ⟨-, p, hp, hsite⟩ := h.labelled e he hnew
  exact except_bind_ok.mpr ⟨p, position_ok.mpr hp, if_pos hsite⟩

theorem pointsOf (h : b.Framed entry c) (p : Nat) : ∃ qs, b.pointsOf p = .ok qs := by
  unfold Body.pointsOf
  split
  next br hn =>
    obtain ⟨ts, hts, -⟩ := mapM_total fun l hl => h.targets p br l hn hl
    exact ⟨_, except_bind_ok.mpr ⟨ts, hts, rfl⟩⟩
  next => exact ⟨[], rfl⟩

end Framed

theorem missingFrames_none {s : FlowState} {ps : List Nat}
    (h : ∀ p ∈ ps, (b.declared? p).isSome = true) : b.missingFrames s ps = .ok [] := by
  induction ps with
  | nil => rfl
  | cons p ps ih =>
    obtain ⟨hp, hps⟩ := List.forall_mem_cons.mp h
    rw [missingFrames, if_pos hp, ih hps]

end Body

namespace FlowState

variable {b : Body} {entry : Frame} {c : BinaryName} {s : FlowState} {g : FlowGraph}

/-- What holds while no frame is missing: only heads that flow reaches are followed, and a head without a
frame has that of the entry. -/
structure Quiet (b : Body) (entry : Frame) (c : BinaryName) (s : FlowState) : Prop where
  reached : ∀ p ∈ s.work, b.Reached entry c p
  entered : ∀ p f, s.frame? p = some f → b.declared? p = none → f = entry.trim

/-- Inference starts with the entry at the first instruction. -/
theorem start_quiet (entry : Frame) (c : BinaryName) {first : Nat}
    (h : b.instructionFrom? 0 = some first) :
    ∃ t, FlowState.arrive b ⟨Array.replicate b.size none, []⟩ (first, entry) = .ok t ∧
      t.Quiet b entry c := by
  obtain ⟨-, n, hn, -⟩ := Body.instructionFrom?_spec h
  have hlt : first < b.size := Body.lt_size_of_get? hn
  unfold FlowState.arrive
  simp only [Array.getElem?_replicate, hlt, if_true]
  refine ⟨_, rfl, fun p hp => ?_, fun p f hf hd => ?_⟩
  · rw [((mem_enqueue first [] p).mp hp).resolve_right List.not_mem_nil]
    exact .first h
  · rw [frame?_put _ _ (by rwa [Array.size_replicate])] at hf
    split at hf
    next he =>
      rw [he, hd] at hf
      exact (Option.some.inj hf).symm
    next =>
      rw [empty_frame?] at hf
      cases hf

theorem Quiet.arrive {a : Arrival} (hs : s.Quiet b entry c) (ha : b.Reached entry c a.1)
    (hd : (b.declared? a.1).isSome = true) : ∃ t, arrive b s a = .ok t ∧ t.Quiet b entry c := by
  have hput {f : Frame} : (s.put a.1 f).Quiet b entry c := by
    refine ⟨fun p hp => ?_, fun p k hk hnone => ?_⟩
    · rcases (mem_enqueue a.1 s.work p).mp hp with rfl | hp
      · exact ha
      · exact hs.reached p hp
    · have hne : a.1 ≠ p := by
        rintro rfl
        rw [hnone] at hd
        cases hd
      refine hs.entered p k ?_ hnone
      unfold frame? put at hk
      rwa [Array.getElem?_setIfInBounds_ne hne] at hk
  unfold FlowState.arrive
  dsimp only
  split
  next => exact ⟨s, rfl, hs⟩
  next => exact ⟨_, rfl, hput⟩
  next =>
    rw [if_pos hd]
    exact ⟨s, rfl, hs⟩

theorem Quiet.arrivals {as : List Arrival} (hs : s.Quiet b entry c)
    (h : ∀ a ∈ as, b.Reached entry c a.1 ∧ (b.declared? a.1).isSome = true) :
    ∃ t, as.foldlM (FlowState.arrive b) s = .ok t ∧ t.Quiet b entry c := by
  induction as generalizing s with
  | nil => exact ⟨s, rfl, hs⟩
  | cons a as ih =>
    obtain ⟨⟨ha, hd⟩, has⟩ := List.forall_mem_cons.mp h
    obtain ⟨u, hu, hquiet⟩ := hs.arrive ha hd
    obtain ⟨t, ht, hquiet⟩ := ih hquiet has
    exact ⟨t, except_bind_ok.mpr ⟨u, hu, ht⟩, hquiet⟩

/-- Following a head succeeds, and what it sends comes to heads with frames. -/
theorem Quiet.followed {head : Nat} {work : List Nat} {f : Frame} {out : List Arrival}
    {failure : Option ClassError} (hs : s.Quiet g.body entry g.thisClass)
    (hb : g.body.Framed entry g.thisClass)
    (hg : g.body.tryBlocks.mapM g.body.handler = .ok g.handlers) (hhead : g.Head = g.body.IsHead)
    (hw : s.work = head :: work) (hf : (g.body.declared? head).or (s.frame? head) = some f)
    (hfollow : g.follow head head f [] = (out, failure)) :
    failure = none ∧ ∃ t, out.reverse.foldlM (FlowState.arrive g.body) { s with work } = .ok t ∧
      t.Quiet g.body entry g.thisClass := by
  have hall := hs.reached
  rw [hw] at hall
  obtain ⟨hreached, hwork⟩ := List.forall_mem_cons.mp hall
  have hframe : f = g.body.headFrame entry head := by
    unfold Body.headFrame
    cases hd : g.body.declared? head with
    | some k =>
      rw [hd, Option.some_or] at hf
      exact (Option.some.inj hf).symm
    | none =>
      rw [hd, Option.none_or] at hf
      exact hs.entered head f hf hd
  have hchecks := hb.checks head hreached
  rw [← hhead, ← hframe] at hchecks
  have hsucceeds := FlowGraph.follow_succeeds hchecks .start []
  have hstart : g.body.Passes g.thisClass g.Head head f head f := .start
  have hsends : ∀ a ∈ (g.follow head head f []).1,
      a ∈ [] ∨ g.body.Sends g.thisClass g.Head head f a.1 a.2 := FlowGraph.followed_sends hg hstart
  rw [hfollow] at hsucceeds hsends
  refine ⟨hsucceeds, Quiet.arrivals (s := { s with work }) ⟨hwork, hs.entered⟩ fun a ha => ?_⟩
  have hsend := (hsends a (List.mem_reverse.mp ha)).resolve_left List.not_mem_nil
  rw [hhead] at hsend
  exact ⟨.sent hreached (hframe ▸ hsend), hb.sent_declared hreached hsend⟩

/-- Where nothing is missing, following all heads succeeds. -/
theorem Quiet.run (hs : s.Quiet g.body entry g.thisClass) (hb : g.body.Framed entry g.thisClass)
    (hg : g.body.tryBlocks.mapM g.body.handler = .ok g.handlers)
    (hhead : g.Head = g.body.IsHead) : ∃ t, s.run g = .ok t := by
  fun_induction FlowState.run g s with
  | case1 s hw => exact ⟨s, rfl⟩
  | case2 s head work hw _ hn ih =>
    exact ih ⟨fun p hp => hs.reached p (by rw [hw]; exact List.mem_cons_of_mem _ hp), hs.entered⟩
  | case3 s head work hw _ f hf arrivals failure hfollow e harr =>
    obtain ⟨-, t, ht, -⟩ := hs.followed hb hg hhead hw hf hfollow
    cases harr.symm.trans ht
  | case4 s head work hw _ f hf arrivals s' harr _ e hfollow =>
    cases (hs.followed hb hg hhead hw hf hfollow).1
  | case5 s head work hw _ f hf arrivals s' harr _ hfollow ih =>
    obtain ⟨-, t, ht, hquiet⟩ := hs.followed hb hg hhead hw hf hfollow
    cases Except.ok.inj (harr.symm.trans ht)
    exact ih hquiet

end FlowState

namespace Body

variable {b b' : Body} {entry : Frame} {c : BinaryName} {p q : Nat} {place : Nat → Nat}

/-- Inference leaves a body alone that has all labels and frames. -/
theorem Framed.inferFrames (h : b.Framed entry c) : b.inferFrames entry c = .ok (0, b) := by
  refine except_bind_ok.mpr ⟨b, h.labelSites, ?_⟩
  cases hfirst : b.instructionFrom? 0 with
  | none => rfl
  | some first =>
    obtain ⟨points, hpoints, -⟩ := mapM_total fun p (_ : p ∈ List.range b.size) => h.pointsOf p
    obtain ⟨handlers, hhandlers, -⟩ := mapM_total (h.handlers (by rw [hfirst]; exact Option.some_ne_none _))
    have hmarks := marks_points hpoints hhandlers
    let isPoint := marks b.size (points.flatten ++ handlers.map Handler.head)
    let g : FlowGraph := {
      body := b, handlers, thisClass := c
      isHead := fun p => p == first || isPoint[p]?.getD false || (b.declared? p).isSome }
    have hhead : g.Head = b.IsHead := by
      funext p
      refine propext ?_
      unfold FlowGraph.Head IsHead
      rw [hfirst, Option.some.injEq]
      simp only [g, isPoint, Bool.or_eq_true, beq_iff_eq, hmarks, or_assoc]
      exact or_congr eq_comm ⟨fun hp => hp.elim (h.framed p) id, .inr⟩
    obtain ⟨s, hs, hquiet⟩ := FlowState.start_quiet entry c hfirst
    obtain ⟨t, ht⟩ := hquiet.run (g := g) h hhandlers hhead
    have hmissing : b.missingFrames t
        ((List.range b.size).filter fun p => isPoint[p]?.getD false) = .ok [] :=
      missingFrames_none fun p hp => h.framed p ((hmarks p).mp (List.mem_filter.mp hp).2)
    exact except_bind_ok.mpr ⟨points, hpoints, except_bind_ok.mpr ⟨handlers, hhandlers,
      except_bind_ok.mpr ⟨s, hs, except_bind_ok.mpr ⟨t, ht,
        except_bind_ok.mpr ⟨[], hmissing, rfl⟩⟩⟩⟩⟩

theorem instructionFrom?_none (h : b.instructionFrom? 0 = none) {n : Node} (hn : b.get? p = some n) :
    n.isPseudo = true := by
  cases hr : n.isPseudo with
  | true => rfl
  | false =>
    obtain ⟨r, hfrom, -⟩ := instructionFrom?_least (Nat.zero_le p) hn hr
    cases h.symm.trans hfrom

theorem position?_eq_some {id : NodeId} : b.position? id = some p ↔
    b.idAt? p = some id ∧ ∀ j < p, b.idAt? j ≠ some id := by
  unfold position? idAt?
  rw [Array.findIdx?_eq_some_iff_getElem]
  constructor
  · rintro ⟨hlt, he, hbefore⟩
    refine ⟨by rw [Array.getElem?_eq_getElem hlt]; simpa using he, fun j hj => ?_⟩
    have := hbefore j hj
    rw [Array.getElem?_eq_getElem (Nat.lt_trans hj hlt)]
    simpa using this
  · rintro ⟨he, hbefore⟩
    obtain ⟨e, hp, rfl⟩ := Option.map_eq_some_iff.mp he
    obtain ⟨hlt, rfl⟩ := Array.getElem?_eq_some_iff.mp hp
    refine ⟨hlt, by simp, fun j hj => ?_⟩
    have := hbefore j hj
    rw [Array.getElem?_eq_getElem (Nat.lt_trans hj hlt)] at this
    simpa using this

/-- An old node is found where it has been moved to. -/
theorem Embeds.position?_place {added : Node → Prop} {id : NodeId} (h : b.Embeds added b' place)
    (hid : id.index < b.nextId) (hp : b.position? id = some p) :
    b'.position? id = some (place p) := by
  obtain ⟨hat, hbefore⟩ := position?_eq_some.mp hp
  refine position?_eq_some.mpr ⟨by rw [idAt?, h.kept]; exact hat, fun j hj he => ?_⟩
  rcases h.fresh j with ⟨r, rfl⟩ | ⟨id', n, hn, -, hnew, -⟩
  · rw [idAt?, h.kept] at he
    exact hbefore r (h.lt_iff.mp hj) he
  · rw [idAt?, hn] at he
    obtain rfl : id' = id := Option.some.inj he
    omega

theorem lastBefore?_isSome {α : Type} {f : Node → Option α} {n : Node} (hlt : q < p)
    (hn : b.get? q = some n) (hf : (f n).isSome = true)
    (h : ∀ k, q ≤ k → k < p → ∃ m, b.get? k = some m ∧ m.isPseudo = true) :
    (b.lastBefore? f p).isSome = true := by
  induction p with
  | zero => cases hlt
  | succ p ih =>
    obtain ⟨m, hm, hp⟩ := h p (Nat.le_of_lt_succ hlt) (Nat.lt_succ_self p)
    unfold lastBefore?
    rw [hm]
    simp only [hp, if_true]
    cases hfm : f m with
    | some a => rfl
    | none =>
      rcases Nat.lt_or_eq_of_le (Nat.le_of_lt_succ hlt) with hlt | rfl
      · exact ih hlt fun k hk hkp => h k hk (Nat.lt_succ_of_lt hkp)
      · cases hn.symm.trans hm
        rw [hfm] at hf
        cases hf

/-- New pseudo nodes do not hide what comes before a node. -/
theorem Embeds.lastBefore?_place {α : Type} {f : Node → Option α} {added : Node → Prop}
    (h : b.Embeds added b' place) (hadded : ∀ n, added n → n.isPseudo = true)
    (hs : (b.lastBefore? f p).isSome = true) : (b'.lastBefore? f (place p)).isSome = true := by
  obtain ⟨a, ha⟩ := Option.isSome_iff_exists.mp hs
  obtain ⟨q, n, hlt, hn, hf, hpseudo⟩ := lastBefore?_mem ha
  refine lastBefore?_isSome (h.mono hlt) ((h.get?_place q).trans hn) (by rw [hf]; rfl) fun k hk hkp => ?_
  rcases h.fresh k with ⟨r, rfl⟩ | ⟨id, m, hm, hnew, -⟩
  · rw [h.get?_place]
    exact hpseudo r (h.le_iff.mp hk) (h.lt_iff.mp hkp)
  · exact ⟨m, get?_of_entry hm, hadded m hnew⟩

theorem Labelled.placed {added : Node → Prop} {id : NodeId} (hl : b.Labelled id)
    (h : b.Embeds added b' place) (hadded : ∀ n, added n → n.isPseudo = true) : b'.Labelled id := by
  obtain ⟨hid, p, hp, hs⟩ := hl
  exact ⟨Nat.lt_of_lt_of_le hid h.nextId, place p, h.position?_place hid hp,
    h.lastBefore?_place hadded hs⟩

theorem labelSite_labelled {id : NodeId} (hid : id.index < b.nextId) (h : b.labelSite id = .ok b') :
    b'.Labelled id := by
  obtain ⟨p, hp, h⟩ := except_bind_ok.mp h
  have hp := position_ok.mp hp
  split at h
  next hs =>
    cases h
    exact ⟨hid, p, hp, hs⟩
  next =>
    obtain ⟨⟨_, b₁⟩, hi, h⟩ := except_bind_ok.mp h
    cases h
    have hle : p ≤ b.newLabel.2.size := Nat.le_of_lt (position_lt (b := b) hp)
    have he : b.newLabel.2.Embeds IsMark b₁ (shift p) :=
      insertUnrecorded_embeds hle (.inl rfl) rfl hi
    refine ⟨Nat.lt_of_lt_of_le hid he.nextId, shift p p, he.position?_place hid hp, ?_⟩
    have hshift : shift p p = p + 1 := if_neg (Nat.lt_irrefl p)
    rw [hshift, site?, lastBefore?_at hle rfl hi]
    rfl

/-- In the end every `new` has its label. -/
theorem labelSites_labelled (hids : ∀ id ∈ b.ids, id.index < b.nextId) (h : b.labelSites = .ok b') :
    ∀ e ∈ b.entries.toList, e.2.isNew = true → b'.Labelled e.1 := by
  have hstep (id : NodeId) (hid : id ∈ (b.entries.toList.filter fun e => e.2.isNew).map Prod.fst)
      (b₁ b₂ : Body) (hle : b.nextId ≤ b₁.nextId) (h : b₁.labelSite id = .ok b₂) :
      b.nextId ≤ b₂.nextId ∧ b₂.Labelled id ∧ ∀ id', b₁.Labelled id' → b₂.Labelled id' := by
    obtain ⟨e, he, rfl⟩ := List.mem_map.mp hid
    obtain ⟨place, hembeds, -⟩ := labelSite_embeds (Nat.le_refl _) h
    have hlt : e.1.index < b.nextId := hids _ (List.mem_map_of_mem (List.mem_filter.mp he).1)
    exact ⟨Nat.le_trans hle hembeds.nextId, labelSite_labelled (Nat.lt_of_lt_of_le hlt hle) h,
      fun id' hl => hl.placed hembeds fun n hn => hn.mark.pseudo⟩
  obtain ⟨-, hall, -⟩ := foldlM_each hstep (Nat.le_refl _) h
  exact fun e he hnew => hall e.1 (List.mem_map_of_mem (List.mem_filter.mpr ⟨he, hnew⟩))

theorem Embeds.mem_entries {added : Node → Prop} {e : Entry} (h : b.Embeds added b' place)
    (he : e ∈ b'.entries.toList) (hr : e.2.isPseudo = false) : e ∈ b.entries.toList := by
  have hmem : e ∈ b'.instructions := List.mem_filter.mpr ⟨he, by rw [hr]; rfl⟩
  rw [h.instructions] at hmem
  exact (List.mem_filter.mp hmem).1

theorem isNew_real {n : Node} (h : n.isNew = true) : n.isPseudo = false := by
  cases n with
  | insn i => rfl
  | branch br | label l | line m | frame f => cases h

/-- A body without instructions lacks nothing but labels. -/
theorem framed_of_empty (hnone : b.instructionFrom? 0 = none)
    (hlabelled : ∀ e ∈ b.entries.toList, e.2.isNew = true → b.Labelled e.1) : b.Framed entry c := by
  have empty {p : Nat} (h : ∃ n, b.get? p = some n ∧ n.isPseudo = false) : False := by
    obtain ⟨n, hn, hr⟩ := h
    rw [instructionFrom?_none hnone hn] at hr
    cases hr
  exact ⟨hlabelled, fun p br l hn _ => (empty ⟨_, hn, rfl⟩).elim,
    fun h => absurd hnone h, fun q hq => (empty hq.instruction).elim,
    fun p hp => (empty hp.instruction).elim⟩

/-- The result of inference lacks nothing. -/
theorem Inferred.complete {n first : Nat} {isPoint : Nat → Bool} {g : FlowGraph} {s : FlowState}
    {missing : List Arrival} (h : b.Inferred b' entry n first isPoint g s missing)
    (hlabelled : ∀ e ∈ b.entries.toList, e.2.isNew = true → b.Labelled e.1) :
    b'.Framed entry g.thisClass := by
  obtain ⟨place, hf⟩ := h.inserted
  have hmark : ∀ n, IsMark n → n.isPseudo = true := fun _ hn => hn.pseudo
  have hs := h.settled (I := .any) (h.proper (fun _ _ _ => trivial)
    ⟨fun _ _ _ _ _ _ _ => trivial, fun _ _ _ _ _ => trivial, fun _ _ _ _ => trivial⟩) trivial
  refine ⟨fun e he hnew => ?_, fun q br l hn hl => ?_, fun _ t ht => ?_, fun q hq => h.framed hf hq,
    fun q hq => ?_⟩
  · have hold := hf.embeds.mem_entries he (isNew_real hnew)
    exact (hlabelled e hold hnew).placed hf.embeds hmark
  · obtain ⟨p, rfl, hold⟩ := hf.embeds.real hmark hn rfl
    obtain ⟨r, hr⟩ := h.targets p br l hold hl
    exact ⟨place r, hf.embeds.targetPosition_place hmark hr⟩
  · rw [hf.embeds.tryBlocks] at ht
    obtain ⟨x, hx⟩ := mapM_ok_each h.handlers t ht
    exact ⟨_, hf.embeds.handler_place hmark hx⟩
  · obtain ⟨p, k, rfl, hp, hk⟩ := h.reached_back hf hs hq
    exact (h.carries hf).checks (h.followed hf hs hp hk).1

/-- Wherever inference succeeds it lacks nothing in the end. -/
theorem inferFrames_framed {n : Nat} (hids : ∀ id ∈ b.ids, id.index < b.nextId)
    (h : b.inferFrames entry c = .ok (n, b')) : b'.Framed entry c := by
  obtain ⟨b₁, hlabels, hparts⟩ := inferFrames_ok h
  obtain ⟨place, hembeds, -⟩ := labelSites_embeds hlabels
  have hlabelled (e : Entry) (he : e ∈ b₁.entries.toList) (hnew : e.2.isNew = true) :
      b₁.Labelled e.1 :=
    labelSites_labelled hids hlabels e (hembeds.mem_entries he (isNew_real hnew)) hnew
  rcases hparts with ⟨hnone, -, rfl⟩ | ⟨first, isPoint, g, s, missing, rfl, hparts⟩
  · exact framed_of_empty hnone hlabelled
  · exact hparts.complete hlabelled

end Body

end ClassGraft
