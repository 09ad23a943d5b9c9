import ClassGraft.Proofs.DepthRuns

namespace ClassGraft

namespace Body

open DepthState

variable {b : Body} {parameters : Nat}

/-- The depths behind the nodes that are reached. -/
def depthsAfter (b : Body) : Set Nat :=
  {k | ∃ p d n, b.Reaches p d ∧ b.get? p = some n ∧ k = n.depthAfter d}

/-- The slots that the parameters and the nodes that are reached need. -/
def localsNeeded (b : Body) (parameters : Nat) : Set Nat :=
  {k | k = parameters ∨ ∃ p d n, b.Reaches p d ∧ b.get? p = some n ∧ k = n.localExtent}

/-- The analysis says exactly what the paths of a body say, by position and by id. -/
structure Describes (b : Body) (parameters : Nat) (a : StackAnalysis) : Prop where
  depths : ∀ p d, a.depths[p]? = some (some d) ↔ b.Reaches p d
  depthsById : ∀ id d, (id, d) ∈ b.depthsById a ↔ ∃ p, b.idAt? p = some id ∧ b.Reaches p d
  maxStack : IsGreatest b.depthsAfter a.maxStack
  maxLocals : IsGreatest (b.localsNeeded parameters) a.maxLocals

theorem mem_depthsById {a : StackAnalysis} {id : NodeId} {d : Nat} :
    (id, d) ∈ b.depthsById a ↔ ∃ p, b.idAt? p = some id ∧ a.depths[p]? = some (some d) := by
  unfold Body.depthsById
  rw [List.mem_mergeSort, List.mem_filterMap]
  constructor
  · rintro ⟨⟨i, o⟩, hm, he⟩
    obtain ⟨e, rfl, hi⟩ := Option.map_eq_some_iff.mp he
    obtain ⟨rfl, rfl⟩ := Prod.mk.inj hi
    obtain ⟨p, hp⟩ := List.mem_iff_getElem?.mp hm
    obtain ⟨hi, hd⟩ := List.getElem?_zip_eq_some.mp hp
    exact ⟨p, by simpa [Body.ids, Body.idAt?] using hi, by simpa using hd⟩
  · rintro ⟨p, hi, hd⟩
    refine ⟨(id, some d), List.mem_iff_getElem?.mpr ⟨p, List.getElem?_zip_eq_some.mpr ⟨?_, ?_⟩⟩, rfl⟩
    · simpa [Body.ids, Body.idAt?] using hi
    · simpa using hd

/-- The state from which the computation of depths starts. -/
theorem start_invariant (b : Body) (parameters : Nat) :
    Invariant b parameters ⟨Array.replicate b.size none, 0, parameters, [(0, 0)]⟩ := by
  have hn : ∀ q d : Nat, (Array.replicate b.size (none : Option Nat))[q]? ≠ some (some d) := by
    intro q d h
    have := Array.mem_replicate.mp (Array.mem_of_getElem? h)
    cases this.2
  constructor
  · exact Array.size_replicate
  · rintro q d (h | h)
    · exact (hn q d h).elim
    · obtain ⟨rfl, rfl⟩ := Prod.mk.inj (List.mem_singleton.mp h)
      exact .start
  · exact fun q d n h => (hn q d h).elim
  · exact fun q d q' d' h => (hn q d h).elim
  · exact fun q d br h => (hn q d h).elim
  · exact fun q d n h => (hn q d h).elim
  · exact .inl rfl
  · exact ⟨Nat.le_refl _, fun q d n h => (hn q d h).elim⟩
  · exact .inl rfl

theorem Settled.describes {s : DepthState} (hs : Settled b parameters s) (h0 : s.Covers 0 0) :
    Describes b parameters ⟨s.depths, s.maxStack, s.maxLocals⟩ := by
  have hk := hs.known_iff h0
  have hi := hs.invariant
  have hnode : ∀ q d, s.depths[q]? = some (some d) → ∃ n, b.get? q = some n := by
    intro q d h
    have hlt : q < b.entries.size :=
      Nat.lt_of_lt_of_eq (Array.getElem?_eq_some_iff.mp h).1 hi.size
    exact ⟨_, get?_of_entry (Array.getElem?_eq_getElem hlt)⟩
  refine ⟨hk, ?_, ⟨?_, ?_⟩, ⟨?_, ?_⟩⟩
  · intro id d
    rw [mem_depthsById]
    simp only [hk]
  · rcases hi.stackMet with h | ⟨q, d, n, hq, hn, he⟩
    · obtain ⟨n, hn⟩ := hnode 0 0 ((hk 0 0).mpr .start)
      have := hi.stackBound 0 0 n ((hk 0 0).mpr .start) hn
      exact ⟨0, 0, n, .start, hn, by dsimp only at *; omega⟩
    · exact ⟨q, d, n, (hk q d).mp hq, hn, he.symm⟩
  · rintro k ⟨q, d, n, hr, hn, rfl⟩
    exact hi.stackBound q d n ((hk q d).mpr hr) hn
  · rcases hi.localsMet with h | ⟨q, d, n, hq, hn, he⟩
    · exact .inl h
    · exact .inr ⟨q, d, n, (hk q d).mp hq, hn, he.symm⟩
  · rintro k (rfl | ⟨q, d, n, hr, hn, rfl⟩)
    · exact hi.localsBound.1
    · exact hi.localsBound.2 q d n ((hk q d).mpr hr) hn

theorem Settled.balanced {s : DepthState} (hs : Settled b parameters s) (h0 : s.Covers 0 0) :
    b.Balanced := by
  have hk := hs.known_iff h0
  intro p d hr
  have hd := (hk p d).mpr hr
  refine ⟨?_, ?_, fun n hn => hs.invariant.fits p d n hd hn⟩
  · exact hs.invariant.size ▸ (Array.getElem?_eq_some_iff.mp hd).1
  · intro e he
    exact Option.some.inj (Option.some.inj (((hk p e).mpr he).symm.trans hd))

theorem Settled.closed {s : DepthState} (hs : Settled b parameters s) (h0 : s.Covers 0 0) :
    b.Closed where
  targets p d br hr := hs.invariant.placed p d br ((hs.known_iff h0 p d).mpr hr)
  bounds := hs.bounded
  handlers t ht p d hr hp := by
    rcases hs.handlers t ht with ⟨-, q, hq, -⟩ | hn
    · exact ⟨q, hq⟩
    · exact (hn p d ((hs.known_iff h0 p d).mpr hr) hp).elim

/-- An analysis is read off a settled state. -/
theorem settled_of_analyzeStack {a : StackAnalysis} (hne : b.entries.isEmpty = false)
    (h : b.analyzeStack parameters = .ok a) : ∃ s, Settled b parameters s ∧ s.Covers 0 0 ∧
      a = ⟨s.depths, s.maxStack, s.maxLocals⟩ := by
  unfold analyzeStack at h
  simp only [hne, Bool.false_eq_true, ↓reduceIte] at h
  obtain ⟨s, hs, h⟩ := except_bind_ok.mp h
  cases h
  have hsettled := settleDepths_decides (start_invariant b parameters) (fun t ht => ht)
    (fun t ht => .inl ht)
  rw [hs] at hsettled
  obtain ⟨hset, hg⟩ := hsettled
  exact ⟨s, hset, hg 0 0 (.inr (List.mem_cons_self ..)), rfl⟩

theorem analyzeStack_size {a : StackAnalysis} (hne : b.entries.isEmpty = false)
    (h : b.analyzeStack parameters = .ok a) : a.depths.size = b.size := by
  obtain ⟨s, hs, -, rfl⟩ := settled_of_analyzeStack hne h
  exact hs.invariant.size

/-- What is known of a body whose depths have been computed, whatever labels it refers to. -/
theorem analyzeStack_ok {a : StackAnalysis} (hne : b.entries.isEmpty = false)
    (h : b.analyzeStack parameters = .ok a) : Describes b parameters a ∧ b.Balanced ∧ b.Closed := by
  obtain ⟨s, hs, h0, rfl⟩ := settled_of_analyzeStack hne h
  exact ⟨hs.describes h0, hs.balanced h0, hs.closed h0⟩

/-- Where the labels that matter are placed and all paths agree, depths are computed. -/
theorem analyzeStack_total (hne : b.entries.isEmpty = false) (hc : b.Closed) (hb : b.Balanced)
    (parameters : Nat) : ∃ a, b.analyzeStack parameters = .ok a := by
  have hs := settleDepths_decides (start_invariant b parameters) (fun t ht => ht)
    (fun t ht => .inl ht)
  unfold analyzeStack
  simp only [hne, Bool.false_eq_true, ↓reduceIte]
  cases hr : b.settleDepths b.tryBlocks ⟨Array.replicate b.size none, 0, parameters, [(0, 0)]⟩ with
  | error e =>
    rw [hr] at hs
    exact (hs hc hb).elim
  | ok s => exact ⟨_, rfl⟩

/-- Depths are computed exactly for the bodies whose paths agree, and they are those of the paths. -/
theorem analyzeStack_describes_paths {b : Body} (hne : b.entries.isEmpty = false)
    (hl : b.checkLabels = .ok ()) (parameters : Nat) :
    ((∃ a, b.analyzeStack parameters = .ok a) ↔ b.Balanced) ∧
      ∀ a, b.analyzeStack parameters = .ok a → Describes b parameters a := by
  have hc := complete_iff.mp hl
  have hs := settleDepths_settles (start_invariant b parameters) (fun t ht => ht)
    (fun t ht => .inl ht)
  unfold analyzeStack
  simp only [hne, Bool.false_eq_true, ↓reduceIte]
  cases hr : b.settleDepths b.tryBlocks ⟨Array.replicate b.size none, 0, parameters, [(0, 0)]⟩ with
  | error e =>
    rw [hr] at hs
    refine ⟨⟨?_, fun hb => (hs hc hb).elim⟩, ?_⟩
    · rintro ⟨a, ha⟩
      cases ha
    · intro a ha
      cases ha
  | ok s =>
    rw [hr] at hs
    obtain ⟨hset, hg⟩ := hs
    have h0 : s.Covers 0 0 := hg 0 0 (.inr (List.mem_cons_self ..))
    refine ⟨⟨fun _ => hset.balanced h0, fun _ => ⟨_, rfl⟩⟩, ?_⟩
    intro a ha
    cases ha
    exact hset.describes h0

theorem drain_done {b : Body} {s : DepthState} (h : s.work = []) : b.drain s = .ok s := by
  unfold drain
  split
  next => rfl
  next hw => cases h.symm.trans hw

theorem drain_next {b : Body} {s t : DepthState} {p d : Nat} {work : List (Nat × Nat)}
    (hw : s.work = (p, d) :: work) (h : b.flowFrom p d { s with work } = .ok t) :
    b.drain s = b.drain t := by
  rw [drain]
  split
  next hnil => cases hnil.symm.trans hw
  next hcons =>
    cases hw.symm.trans hcons
    split
    next e he => cases h.symm.trans he
    next u hu => cases h.symm.trans hu; rfl

theorem settleDepths_next {b : Body} {pending rest : List TryBlock} {s t u : DepthState}
    (hd : b.drain s = .ok t) (hh : b.enterHandlers pending t = .ok (rest, u)) :
    b.settleDepths pending s =
      if rest.length < pending.length then b.settleDepths rest u else .ok u := by
  rw [settleDepths, hd]
  simp only [hh, bind, Except.bind, dite_eq_ite]
  rfl

theorem analyzeStack_settled {b : Body} {slots : Nat} {s : DepthState}
    (hb : b.entries.isEmpty = false)
    (h : b.settleDepths b.tryBlocks ⟨Array.replicate b.size none, 0, slots, [(0, 0)]⟩ = .ok s) :
    b.analyzeStack slots = .ok ⟨s.depths, s.maxStack, s.maxLocals⟩ := by
  unfold analyzeStack
  simp only [hb, h, bind, Except.bind]
  rfl

/-- A body without try blocks is analyzed in one go. -/
theorem analyzeStack_drained {b : Body} {slots : Nat} {s : DepthState}
    (hb : b.entries.isEmpty = false) (ht : b.tryBlocks = [])
    (h : b.drain ⟨Array.replicate b.size none, 0, slots, [(0, 0)]⟩ = .ok s) :
    b.analyzeStack slots = .ok ⟨s.depths, s.maxStack, s.maxLocals⟩ := by
  refine analyzeStack_settled hb ?_
  rw [ht]
  exact settleDepths_next h rfl

/-- A loop in which an exception is thrown on. -/
def guardedLoop : Body := {
  Body.empty with
  entries := #[(⟨0⟩, .label ⟨0⟩), (⟨1⟩, .insn (.load .int 0)), (⟨2⟩, .branch (.ifZero .eq ⟨0⟩)),
    (⟨3⟩, .branch (.leave none)), (⟨4⟩, .label ⟨1⟩), (⟨5⟩, .branch .athrow)]
  tryBlocks := [⟨⟨0⟩, ⟨1⟩, ⟨1⟩, none⟩] }

theorem guardedLoop_described :
    guardedLoop.entries.isEmpty = false ∧ guardedLoop.checkLabels = .ok () ∧
      ((∃ a, guardedLoop.analyzeStack 0 = .ok a) ↔ guardedLoop.Balanced) ∧
      ∀ a, guardedLoop.analyzeStack 0 = .ok a → Describes guardedLoop 0 a :=
  have hl : guardedLoop.checkLabels = .ok () := by cbv
  ⟨rfl, hl, analyzeStack_describes_paths rfl hl 0⟩

end Body

end ClassGraft
