import ClassGraft.Code.Arena
import ClassGraft.Proofs.Outcomes
import Mathlib

namespace ClassGraft

namespace Arena

variable {a : Arena} {p q : Nat} {id j : NodeId} {n : Node} {l : Label} {os₁ os₂ : List NodeId}

/-- The tables agree: the order has no id twice, positions are those in the order, ids have nodes where
they have positions, and the labels that are found are those of the nodes. -/
structure Sound (a : Arena) : Prop where
  nodup : a.order.Nodup
  placed : ∀ id p, a.position? id = some p ↔ a.order[p]? = some id
  live : ∀ id, (a.node? id).isSome = (a.position? id).isSome
  labels : ∀ l id, a.labelNodes[l]? = some id ↔ a.node? id = some (.label l)
  sizes : a.positions.size = a.slots.size

/-- The tables agree, but for the positions from some position on. -/
structure Loose (a : Arena) (start : Nat) : Prop where
  nodup : a.order.Nodup
  low : ∀ p id, p < start → a.order[p]? = some id → a.position? id = some p
  known : ∀ id p, a.position? id = some p → id ∈ a.order
  live : ∀ id, (a.node? id).isSome = true ↔ id ∈ a.order
  labels : ∀ l id, a.labelNodes[l]? = some id ↔ a.node? id = some (.label l)
  sizes : a.positions.size = a.slots.size

theorem empty_sound : empty.Sound where
  nodup := .nil
  placed id p := by simp [empty, position?]
  live _ := rfl
  labels l id := by simp [empty, node?]
  sizes := rfl

theorem mem_middle {α : Type} {x y : α} {xs ys : List α} :
    x ∈ xs ++ y :: ys ↔ x = y ∨ x ∈ xs ++ ys := by
  simp only [List.mem_append, List.mem_cons, or_left_comm]

theorem Sound.mem_order (h : a.Sound) : id ∈ a.order ↔ (a.node? id).isSome = true := by
  rw [h.live, Option.isSome_iff_exists, List.mem_iff_getElem?]
  simp only [h.placed]

theorem Sound.position_of_mem (h : a.Sound) (hid : id ∈ a.order) : ∃ p, a.position? id = some p := by
  rwa [h.mem_order, h.live, Option.isSome_iff_exists] at hid

theorem Sound.loose (h : a.Sound) (start : Nat) : a.Loose start where
  nodup := h.nodup
  low p id _ hp := (h.placed id p).mpr hp
  known id p hp := List.mem_of_getElem? ((h.placed id p).mp hp)
  live _ := h.mem_order.symm
  labels := h.labels
  sizes := h.sizes

theorem Loose.sound (h : a.Loose p) (hp : a.order.length ≤ p) : a.Sound where
  nodup := h.nodup
  placed id q := by
    have low {r : Nat} (hr : a.order[r]? = some id) : a.position? id = some r :=
      h.low r id (Nat.lt_of_lt_of_le (List.getElem?_eq_some_iff.mp hr).1 hp) hr
    refine ⟨fun hq => ?_, low⟩
    obtain ⟨r, hr⟩ := List.mem_iff_getElem?.mp (h.known id q hq)
    cases Option.some.inj ((low hr).symm.trans hq)
    exact hr
  live id := by
    rw [Bool.eq_iff_iff, h.live]
    constructor
    · intro hid
      obtain ⟨r, hr⟩ := List.mem_iff_getElem?.mp hid
      rw [h.low r id (Nat.lt_of_lt_of_le (List.getElem?_eq_some_iff.mp hr).1 hp) hr]
      rfl
    · intro hid
      obtain ⟨q, hq⟩ := Option.isSome_iff_exists.mp hid
      exact h.known id q hq
  labels := h.labels
  sizes := h.sizes

theorem node?_lt (h : (a.node? id).isSome = true) : id.index < a.slots.size := by
  unfold node? at h
  cases hs : a.slots[id.index]? with
  | none => rw [hs] at h; cases h
  | some s => exact (Array.getElem?_eq_some_iff.mp hs).1

theorem Loose.lt_size (h : a.Loose p) (hid : id ∈ a.order) : id.index < a.slots.size :=
  node?_lt ((h.live id).mpr hid)

theorem numbered_size (ps : Array (Option Nat)) (first : Nat) (ids : List NodeId) :
    (numbered ps first ids).size = ps.size := by
  induction ids generalizing ps first with
  | nil => rfl
  | cons id ids ih => exact (ih _ _).trans Array.size_setIfInBounds

theorem numbered_other {ids : List NodeId} (h : id ∉ ids) (ps : Array (Option Nat)) (first : Nat) :
    (numbered ps first ids)[id.index]? = ps[id.index]? := by
  induction ids generalizing ps first with
  | nil => rfl
  | cons j ids ih =>
    rw [List.mem_cons, not_or] at h
    have hne : j.index ≠ id.index := fun he => h.1 (congrArg NodeId.mk he.symm)
    rw [numbered, ih h.2, Array.getElem?_setIfInBounds_ne hne]

theorem numbered_mem {ids : List NodeId} (hids : ids.Nodup) (hp : ids[p]? = some id)
    {ps : Array (Option Nat)} (hlt : id.index < ps.size) (first : Nat) :
    (numbered ps first ids)[id.index]? = some (some (first + p)) := by
  induction ids generalizing ps first p with
  | nil => cases hp
  | cons j ids ih =>
    obtain ⟨hj, hids⟩ := List.nodup_cons.mp hids
    cases p with
    | zero =>
      cases hp
      rw [numbered, numbered_other hj, Array.getElem?_setIfInBounds_self_of_lt hlt]
      rfl
    | succ p =>
      rw [numbered, ih hids hp (Array.size_setIfInBounds.symm ▸ hlt), Nat.add_assoc,
        Nat.add_comm 1 p]

/-- Positions that are computed anew are right. -/
theorem Loose.reindexed (h : a.Loose p) : (a.reindexed p).Sound := by
  have hdrop : (a.order.drop p).Nodup := h.nodup.sublist (List.drop_sublist p a.order)
  have hsame {id : NodeId} (hid : id ∉ a.order.drop p) :
      (a.reindexed p).position? id = a.position? id :=
    congrArg Option.join (numbered_other hid a.positions p)
  refine Loose.sound (p := a.order.length) ⟨h.nodup, fun q id _ hq => ?_, fun id q hq => ?_, h.live,
    h.labels, (numbered_size _ _ _).trans h.sizes⟩ (Nat.le_refl _)
  · rcases Nat.lt_or_ge q p with hlt | hge
    · rw [hsame fun hid => ?_, h.low q id hlt hq]
      obtain ⟨r, hr⟩ := List.mem_iff_getElem?.mp hid
      rw [List.getElem?_drop] at hr
      have := (List.getElem?_inj (List.getElem?_eq_some_iff.mp hq).1 h.nodup).mp (hq.trans hr.symm)
      omega
    · have hr : (a.order.drop p)[q - p]? = some id := by
        rw [List.getElem?_drop, Nat.add_sub_cancel' hge]
        exact hq
      have hid := h.lt_size (List.mem_of_getElem? hq)
      have := numbered_mem hdrop hr (h.sizes.symm ▸ hid) p
      rw [Nat.add_sub_cancel' hge] at this
      exact congrArg Option.join this
  · by_cases hid : id ∈ a.order.drop p
    · exact List.mem_of_mem_drop hid
    · exact h.known id q ((hsame hid).symm.trans hq)

theorem node?_allocated (a : Arena) (n : Node) (id : NodeId) :
    (a.allocated n).node? id = if id = ⟨a.slots.size⟩ then some n else a.node? id := by
  unfold node? allocated
  rw [Array.getElem?_push]
  split
  next h => rw [if_pos (congrArg NodeId.mk h)]; rfl
  next h => rw [if_neg fun he : id = ⟨a.slots.size⟩ => h (congrArg NodeId.index he)]

theorem position?_allocated (a : Arena) (n : Node) (id : NodeId) :
    (a.allocated n).position? id = a.position? id := by
  unfold position? allocated
  rw [Array.getElem?_push]
  split
  next h => rw [Array.getElem?_eq_none (Nat.le_of_eq h.symm)]; rfl
  next => rfl

theorem labelNodes_allocated (a : Arena) (n : Node) (l : Label) :
    (a.allocated n).labelNodes[l]? =
      if n.label? = some l then some ⟨a.slots.size⟩ else a.labelNodes[l]? := by
  unfold allocated
  cases n.label? with
  | none => rfl
  | some k => simp only [Std.HashMap.getElem?_insert, beq_iff_eq, Option.some.injEq]

theorem label_of_label? (h : n.label? = some l) : n = .label l := by
  cases n with
  | label k => cases h; rfl
  | _ => cases h

theorem node?_fresh (a : Arena) : a.node? ⟨a.slots.size⟩ = none := by
  unfold node?
  rw [Array.getElem?_eq_none (Nat.le_refl _)]
  rfl

/-- A node with a new label is found by it. -/
theorem Loose.labels_allocated (h : a.Loose p) (hn : ∀ l, n.label? = some l → a.labelNodes[l]? = none)
    (l : Label) (id : NodeId) :
    (a.allocated n).labelNodes[l]? = some id ↔ (a.allocated n).node? id = some (.label l) := by
  rw [labelNodes_allocated, node?_allocated]
  by_cases hl : n.label? = some l
  · rw [if_pos hl]
    have hfree := hn l hl
    split
    next he => simp [he, label_of_label? hl]
    next he =>
      constructor
      · intro hid
        exact absurd (Option.some.inj hid).symm he
      · intro hid
        rw [(h.labels l id).mpr hid] at hfree
        cases hfree
  · rw [if_neg hl, h.labels]
    split
    next he =>
      rw [he, node?_fresh]
      constructor
      · intro hid
        cases hid
      · intro hid
        rw [Option.some.inj hid] at hl
        exact absurd rfl hl
    next => exact Iff.rfl

/-- A node with a new label can come anywhere behind the positions that are right. -/
theorem Loose.allocated (h : a.Loose p) (ho : a.order = os₁ ++ os₂) (hp : p ≤ os₁.length)
    (hn : ∀ l, n.label? = some l → a.labelNodes[l]? = none) :
    Loose { a.allocated n with order := os₁ ++ ⟨a.slots.size⟩ :: os₂ } p where
  nodup := by
    have hnew : (⟨a.slots.size⟩ : NodeId) ∉ os₁ ++ os₂ := fun hid =>
      Nat.lt_irrefl _ (h.lt_size (ho ▸ hid))
    exact List.nodup_middle.mpr (List.nodup_cons.mpr ⟨hnew, ho ▸ h.nodup⟩)
  low q id hq hid := by
    refine (position?_allocated a n id).trans (h.low q id hq ?_)
    rw [ho, List.getElem?_append_left (by omega)]
    rwa [List.getElem?_append_left (by omega)] at hid
  known id q hid := by
    have hid := h.known id q ((position?_allocated a n id).symm.trans hid)
    rw [ho] at hid
    exact mem_middle.mpr (.inr hid)
  live id := by
    have hmem : id ∈ os₁ ++ ⟨a.slots.size⟩ :: os₂ ↔ id = ⟨a.slots.size⟩ ∨ id ∈ a.order := by
      rw [mem_middle, ho]
    change ((a.allocated n).node? id).isSome = true ↔ _
    rw [node?_allocated, hmem, ← h.live]
    split
    next he => simp [he]
    next he => simp [he]
  labels := h.labels_allocated hn
  sizes := (Array.size_push ..).trans ((congrArg (· + 1) h.sizes).trans (Array.size_push ..).symm)

theorem node?_released (a : Arena) (id : NodeId) (n : Node) (j : NodeId) :
    (a.released id n).node? j = if j = id then none else a.node? j := by
  unfold node? released
  by_cases h : j = id
  · rw [if_pos h, h, Array.getElem?_setIfInBounds_self]
    split <;> rfl
  · rw [if_neg h, Array.getElem?_setIfInBounds_ne fun he => h (congrArg NodeId.mk he.symm)]

theorem position?_released (a : Arena) (id : NodeId) (n : Node) (j : NodeId) :
    (a.released id n).position? j = if j = id then none else a.position? j := by
  unfold position? released
  by_cases h : j = id
  · rw [if_pos h, h, Array.getElem?_setIfInBounds_self]
    split <;> rfl
  · rw [if_neg h, Array.getElem?_setIfInBounds_ne fun he => h (congrArg NodeId.mk he.symm)]

theorem labelNodes_released (a : Arena) (id : NodeId) (n : Node) (l : Label) :
    (a.released id n).labelNodes[l]? = if n.label? = some l then none else a.labelNodes[l]? := by
  unfold released
  cases n.label? with
  | none => rfl
  | some k => simp only [Std.HashMap.getElem?_erase, beq_iff_eq, Option.some.injEq]

/-- The label of a node that is taken out is no longer found, and all others are. -/
theorem Loose.labels_released (h : a.Loose p) (hn : a.node? id = some n) (l : Label) (j : NodeId) :
    (a.released id n).labelNodes[l]? = some j ↔ (a.released id n).node? j = some (.label l) := by
  rw [labelNodes_released, node?_released]
  by_cases hl : n.label? = some l
  · rw [if_pos hl]
    rw [label_of_label? hl] at hn
    constructor
    · intro hj
      cases hj
    · intro hj
      split at hj
      next => cases hj
      next hne =>
        have hfirst := (h.labels l id).mpr hn
        rw [(h.labels l j).mpr hj] at hfirst
        exact absurd (Option.some.inj hfirst) hne
  · rw [if_neg hl, h.labels]
    split
    next he =>
      rw [he, hn]
      constructor
      · intro hid
        rw [Option.some.inj hid] at hl
        exact absurd rfl hl
      · intro hid
        cases hid
    next => exact Iff.rfl

theorem Loose.mem_released (h : a.Loose p) (ho : a.order = os₁ ++ id :: os₂) :
    j ∈ os₁ ++ os₂ ↔ j ≠ id ∧ j ∈ a.order := by
  have hnodup := h.nodup
  rw [ho, List.nodup_middle, List.nodup_cons] at hnodup
  rw [ho, mem_middle]
  constructor
  · intro hj
    exact ⟨fun he => hnodup.1 (he ▸ hj), .inr hj⟩
  · rintro ⟨hne, hj⟩
    exact hj.resolve_left hne

/-- A node behind the positions that are right can be taken out. -/
theorem Loose.released (h : a.Loose p) (ho : a.order = os₁ ++ id :: os₂) (hp : p ≤ os₁.length)
    (hn : a.node? id = some n) : Loose { a.released id n with order := os₁ ++ os₂ } p where
  nodup := by
    have hnodup := h.nodup
    rw [ho, List.nodup_middle, List.nodup_cons] at hnodup
    exact hnodup.2
  low q j hq hj := by
    refine (position?_released a id n j).trans ?_
    rw [if_neg ((h.mem_released ho).mp (List.mem_of_getElem? hj)).1]
    refine h.low q j hq ?_
    rw [ho, List.getElem?_append_left (by omega)]
    rwa [List.getElem?_append_left (by omega)] at hj
  known j q hj := by
    have hj := (position?_released a id n j).symm.trans hj
    split at hj
    next => cases hj
    next hne => exact (h.mem_released ho).mpr ⟨hne, h.known j q hj⟩
  live j := by
    change ((a.released id n).node? j).isSome = true ↔ _
    rw [node?_released, h.mem_released ho, ← h.live]
    split
    next he => simp [he]
    next he => simp [he]
  labels := h.labels_released hn
  sizes := (Array.size_setIfInBounds ..).trans (h.sizes.trans (Array.size_setIfInBounds ..).symm)

end Arena

end ClassGraft
