import ClassGraft.Flow.Inference
import ClassGraft.Proofs.Outcomes

namespace ClassGraft

namespace Body

variable {b b' : Body} {p q r : Nat} {n : Node} {l : Label}

theorem get?_of_entry {id : NodeId} (h : b.entries[p]? = some (id, n)) : b.get? p = some n := by
  simp [get?, h]

theorem lt_size_of_get? (h : b.get? p = some n) : p < b.size := by
  obtain ⟨e, he, _⟩ := Option.map_eq_some_iff.mp h
  exact (Array.getElem?_eq_some_iff.mp he).1

theorem labelPosition_ok : b.labelPosition l = .ok q ↔ b.labelPosition? l = some q := by
  unfold labelPosition
  split
  next p hp => simp [hp]
  next hp => simp [hp]

theorem get?_eq_none : b.get? p = none ↔ b.size ≤ p := by
  unfold get?
  rw [Option.map_eq_none_iff, Array.getElem?_eq_none_iff]
  rfl

theorem instructionFrom?_pseudo (h : b.get? p = some n) (hn : n.isPseudo = true) :
    b.instructionFrom? p = b.instructionFrom? (p + 1) := by
  have hlt := lt_size_of_get? h
  unfold size at hlt
  rw [instructionFrom?, dif_pos hlt, if_pos]
  have he : some b.entries[p].2 = some n := by rw [← h, get?, Array.getElem?_eq_getElem hlt]; rfl
  rw [Option.some.inj he, hn]

theorem instructionFrom?_real (h : b.get? p = some n) (hn : n.isPseudo = false) :
    b.instructionFrom? p = some p := by
  have hlt := lt_size_of_get? h
  unfold size at hlt
  rw [instructionFrom?, dif_pos hlt, if_neg]
  have he : some b.entries[p].2 = some n := by rw [← h, get?, Array.getElem?_eq_getElem hlt]; rfl
  rw [Option.some.inj he, hn]
  exact Bool.false_ne_true

theorem instructionFrom?_end (h : b.size ≤ p) : b.instructionFrom? p = none := by
  unfold size at h
  rw [instructionFrom?, dif_neg (Nat.not_lt.mpr h)]

/-- Only pseudo nodes lie between a position and the instruction that it leads to. -/
theorem instructionFrom?_skip (hle : p ≤ q)
    (h : ∀ k, p ≤ k → k < q → ∃ n, b.get? k = some n ∧ n.isPseudo = true) :
    b.instructionFrom? p = b.instructionFrom? q := by
  induction hle with
  | refl => rfl
  | step hle ih =>
    obtain ⟨n, hn, hp⟩ := h _ hle (Nat.lt_succ_self _)
    rw [ih fun k hk hlt => h k hk (Nat.lt_succ_of_lt hlt), instructionFrom?_pseudo hn hp]

theorem labelPosition?_eq_some : b.labelPosition? l = some p ↔
    (∃ n, b.get? p = some n ∧ n.label? = some l) ∧
      ∀ j < p, ∀ n, b.get? j = some n → n.label? ≠ some l := by
  unfold labelPosition? get?
  rw [Array.findIdx?_eq_some_iff_getElem]
  constructor
  · rintro ⟨hlt, hl, hbefore⟩
    refine ⟨⟨b.entries[p].2, by rw [Array.getElem?_eq_getElem hlt]; rfl, by simpa using hl⟩, ?_⟩
    intro j hj n hn
    rw [Array.getElem?_eq_getElem (Nat.lt_trans hj hlt)] at hn
    cases Option.some.inj hn
    simpa using hbefore j hj
  · rintro ⟨⟨n, hn, hl⟩, hbefore⟩
    obtain ⟨e, he, rfl⟩ := Option.map_eq_some_iff.mp hn
    obtain ⟨hlt, rfl⟩ := Array.getElem?_eq_some_iff.mp he
    refine ⟨hlt, by simpa using hl, fun j hj => ?_⟩
    have := hbefore j hj b.entries[j].2 (by rw [Array.getElem?_eq_getElem (Nat.lt_trans hj hlt)]; rfl)
    simpa using this

theorem isPlaced_iff : b.isPlaced l = true ↔ ∃ p n, b.get? p = some n ∧ n.label? = some l := by
  unfold isPlaced
  constructor
  · intro h
    obtain ⟨p, hp⟩ := Option.isSome_iff_exists.mp h
    obtain ⟨⟨n, hn, hl⟩, -⟩ := labelPosition?_eq_some.mp hp
    exact ⟨p, n, hn, hl⟩
  · rintro ⟨p, n, hn, hl⟩
    obtain ⟨e, he, rfl⟩ := Option.map_eq_some_iff.mp hn
    cases hnone : b.labelPosition? l with
    | some r => rfl
    | none =>
      unfold labelPosition? at hnone
      rw [Array.findIdx?_eq_none_iff] at hnone
      have := hnone e (Array.mem_of_getElem? he)
      simp [hl] at this

theorem instructionFrom?_spec (h : b.instructionFrom? p = some r) :
    p ≤ r ∧ ∃ n, b.get? r = some n ∧ n.isPseudo = false := by
  fun_induction b.instructionFrom? p with
  | case1 p hlt hp ih =>
    obtain ⟨hle, hn⟩ := ih h
    exact ⟨by omega, hn⟩
  | case2 p hlt hp =>
    cases h
    refine ⟨Nat.le_refl _, _, ?_, Bool.eq_false_iff.mpr hp⟩
    simp [Body.get?, Array.getElem?_eq_getElem hlt]
  | case3 => cases h

/-- The first instruction from a position on comes before all others. -/
theorem instructionFrom?_least (hle : p ≤ q) (hn : b.get? q = some n) (hr : n.isPseudo = false) :
    ∃ r, b.instructionFrom? p = some r ∧ r ≤ q := by
  fun_induction b.instructionFrom? p with
  | case1 p hlt hp ih =>
    refine ih (Nat.lt_of_le_of_ne hle fun he => ?_)
    subst he
    rw [get?, Array.getElem?_eq_getElem hlt] at hn
    rw [← Option.some.inj hn, hp] at hr
    cases hr
  | case2 p hlt hp => exact ⟨p, rfl, hle⟩
  | case3 p hge =>
    have hlt := lt_size_of_get? hn
    unfold size at hlt
    omega

theorem number_nodes (first : Nat) (ns : List Node) : (number first ns).map Prod.snd = ns := by
  refine List.ext_getElem? fun i => ?_
  rw [List.getElem?_map, number, List.getElem?_mapIdx, Option.map_map]
  exact Option.map_id'

theorem nodes_get? (b : Body) (p : Nat) : b.nodes[p]? = b.get? p := by
  rw [Body.nodes, List.getElem?_map, Array.getElem?_toList, Body.get?]

/-- The instruction that a position leads to is the first one behind pseudo nodes. -/
theorem instructionFrom?_eq_some : b.instructionFrom? p = some r ↔ p ≤ r ∧
    (∃ n, b.get? r = some n ∧ n.isPseudo = false) ∧
      ∀ k, p ≤ k → k < r → ∃ n, b.get? k = some n ∧ n.isPseudo = true := by
  constructor
  · intro h
    obtain ⟨hle, hr⟩ := instructionFrom?_spec h
    refine ⟨hle, hr, fun k hk hlt => ?_⟩
    obtain ⟨m, hm, -⟩ := hr
    cases hn : b.get? k with
    | none =>
      have := lt_size_of_get? hm
      have := get?_eq_none.mp hn
      omega
    | some n =>
      refine ⟨n, rfl, ?_⟩
      cases hp : n.isPseudo with
      | true => rfl
      | false =>
        obtain ⟨s, hs, hsk⟩ := instructionFrom?_least hk hn hp
        cases Option.some.inj (h.symm.trans hs)
        omega
  · rintro ⟨hle, ⟨n, hn, hr⟩, hskip⟩
    rw [instructionFrom?_skip hle hskip, instructionFrom?_real hn hr]

theorem labelTarget_ok : b.labelTarget l = .ok (some q) ↔
    ∃ p, b.labelPosition? l = some p ∧ b.instructionFrom? p = some q := by
  unfold labelTarget
  rw [except_bind_ok]
  constructor
  · rintro ⟨p, hp, hq⟩
    exact ⟨p, labelPosition_ok.mp hp, Except.ok.inj hq⟩
  · rintro ⟨p, hp, hq⟩
    exact ⟨p, labelPosition_ok.mpr hp, congrArg Except.ok hq⟩

theorem labelTarget_congr (h : ∀ p, b'.get? p = b.get? p) :
    b'.labelTarget l = .ok (some q) ↔ b.labelTarget l = .ok (some q) := by
  simp only [labelTarget_ok, labelPosition?_eq_some, instructionFrom?_eq_some, h]

theorem position_lt {id : NodeId} (h : b.position? id = some p) : p < b.size :=
  (Array.findIdx?_eq_some_iff_getElem.mp h).1

theorem position_ok {id : NodeId} : b.position id = .ok p ↔ b.position? id = some p := by
  unfold position
  split
  next r hr => simp [hr]
  next hr => simp [hr]

theorem targetPosition_ok : b.targetPosition l = .ok q ↔
    ∃ p, b.labelPosition? l = some p ∧ b.instructionFrom? p = some q := by
  unfold targetPosition labelTarget labelPosition
  cases hl : b.labelPosition? l with
  | none => simp [bind, Except.bind]
  | some p =>
    cases hi : b.instructionFrom? p with
    | none => simp [bind, Except.bind, pure, Except.pure, hi, throw, throwThe, MonadExceptOf.throw]
    | some r => simp [bind, Except.bind, pure, Except.pure, hi]

theorem targetPosition_instruction (h : b.targetPosition l = .ok q) :
    ∃ n, b.get? q = some n ∧ n.isPseudo = false := by
  obtain ⟨p, -, hi⟩ := targetPosition_ok.mp h
  exact (instructionFrom?_spec hi).2

theorem handler_ok {t : TryBlock} {h : Handler} : b.handler t = .ok h ↔
    b.targetPosition t.handler = .ok h.head ∧ b.labelPosition? t.start = some h.start ∧
      b.labelPosition? t.stop = some h.stop ∧
      h.caught = .ofClass (t.caught.getD BinaryName.throwable) := by
  unfold handler
  simp only [except_bind_ok, labelPosition_ok]
  constructor
  · rintro ⟨head, hh, start, hs, stop, hp, he⟩
    cases he
    exact ⟨hh, hs, hp, rfl⟩
  · rintro ⟨hh, hs, hp, hc⟩
    exact ⟨h.head, hh, h.start, hs, h.stop, hp, by rw [← hc]; rfl⟩

/-- What comes last right before a position depends on the node before it, and where that is a pseudo
node on what comes last before that. -/
theorem lastBefore?_succ_congr {α : Type} {f : Node → Option α} (hg : b'.get? q = b.get? p)
    (h : (∃ n, b.get? p = some n ∧ n.isPseudo = false) ∨
      b'.lastBefore? f q = b.lastBefore? f p) :
    b'.lastBefore? f (q + 1) = b.lastBefore? f (p + 1) := by
  unfold lastBefore?
  rw [hg]
  rcases h with ⟨n, hn, hr⟩ | h
  · rw [hn]
    simp only [hr]
    rfl
  · rw [h]

theorem lastBefore?_congr {α : Type} {f : Node → Option α}
    (h : ∀ k < p, b'.get? k = b.get? k) : b'.lastBefore? f p = b.lastBefore? f p := by
  induction p with
  | zero => rfl
  | succ p ih =>
    exact lastBefore?_succ_congr (h p (Nat.lt_succ_self p))
      (.inr (ih fun k hk => h k (Nat.lt_succ_of_lt hk)))

/-- What comes last before a position has only pseudo nodes between it and the position. -/
theorem lastBefore?_mem {α : Type} {f : Node → Option α} {a : α}
    (h : b.lastBefore? f p = some a) : ∃ q n, q < p ∧ b.get? q = some n ∧ f n = some a ∧
      ∀ k, q ≤ k → k < p → ∃ m, b.get? k = some m ∧ m.isPseudo = true := by
  induction p with
  | zero => cases h
  | succ p ih =>
    unfold lastBefore? at h
    split at h
    next n hn =>
      split at h
      next hp =>
        split at h
        next x hx =>
          cases h
          refine ⟨p, n, Nat.lt_succ_self p, hn, hx, fun k hk hlt => ?_⟩
          obtain rfl : k = p := by omega
          exact ⟨n, hn, hp⟩
        next =>
          obtain ⟨q, m, hlt, hm, hf, hpseudo⟩ := ih h
          refine ⟨q, m, by omega, hm, hf, fun k hk hkp => ?_⟩
          by_cases hkp' : k < p
          · exact hpseudo k hk hkp'
          · obtain rfl : k = p := by omega
            exact ⟨n, hn, hp⟩
      next => cases h
    next => cases h

end Body

end ClassGraft
