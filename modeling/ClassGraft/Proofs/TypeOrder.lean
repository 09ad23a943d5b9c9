import ClassGraft.Proofs.FrameMerging

namespace ClassGraft

instance (ts : List VerifyType) : Decidable (Padded ts) :=
  decidable_of_iff (∀ i < ts.length, (slotOf ts i).isWide = true → ts[i + 1]? = some .top) <| by
    constructor
    · intro h i t ht hw
      exact h i (List.getElem?_eq_some_iff.mp ht).1 (by rwa [slotOf, ht])
    · intro h i hi hw
      rw [slotOf, List.getElem?_eq_getElem hi] at hw
      exact h i ts[i] (List.getElem?_eq_getElem hi) hw

instance (f : Frame) : Decidable f.Padded := inferInstanceAs (Decidable (ClassGraft.Padded f.locals))

theorem trimReversed_wide_behind {t : VerifyType} (n : Nat) (ts : List VerifyType) (h : t.isWide = true) :
    trimReversed (List.replicate (n + 1) .top ++ t :: ts) = .top :: t :: ts := by
  rw [trimReversed_top_replicate, trimReversed_top_wide ts h]

/-- Trimming keeps the second half of a wide local. -/
theorem trimLocals_half {ts : List VerifyType} {i : Nat} (hw : (slotOf ts i).isWide = true) :
    i + 1 < (trimLocals ts).length ↔ i + 1 < ts.length := by
  obtain ⟨n, he⟩ := trimLocals_append ts
  have hlen := congrArg List.length he
  rw [List.length_append, List.length_replicate] at hlen
  constructor
  · intro h
    omega
  · intro h
    by_contra hout
    rw [← slotOf_trimLocals] at hw
    have hin : i < (trimLocals ts).length := by
      by_contra hge
      rw [slotOf, List.getElem?_eq_none (by omega)] at hw
      cases hw
    have hlast : (trimLocals ts).reverse.head? = some (slotOf (trimLocals ts) i) := by
      rw [List.head?_reverse, List.getLast?_eq_getElem?, slotOf, List.getElem?_eq_getElem hin,
        show (trimLocals ts).length - 1 = i by omega, List.getElem?_eq_getElem hin]
      rfl
    obtain ⟨rest, hrest⟩ := List.head?_eq_some_iff.mp hlast
    obtain ⟨k, rfl⟩ : ∃ k, n = k + 1 := ⟨n - 1, by omega⟩
    have hkept : (trimLocals ts).length = (trimLocals ts).length + 1 := by
      conv_lhs => rw [he, trimLocals, List.reverse_append, List.reverse_replicate, hrest,
        trimReversed_wide_behind k rest hw, ← hrest]
      simp
    omega

/-- A longer list with the same types in its slots has only unusable ones behind. -/
theorem append_tops_of_slots {as bs : List VerifyType} (hle : as.length ≤ bs.length)
    (h : ∀ i, slotOf as i = slotOf bs i) :
    bs = as ++ List.replicate (bs.length - as.length) .top := by
  apply List.ext_getElem (by simp; omega)
  intro i hi _
  have hs := h i
  simp only [slotOf, List.getElem?_eq_getElem hi, Option.getD_some] at hs
  rw [← hs, List.getElem_append]
  split
  next hlt => rw [List.getElem?_eq_getElem hlt, Option.getD_some]
  next hge => rw [List.getElem?_eq_none (by omega), List.getElem_replicate]; rfl

theorem trimLocals_append_tops {ts : List VerifyType} (n : Nat)
    (h : n = 0 ∨ ∀ t, ts.getLast? = some t → t.isWide = false) :
    trimLocals (ts ++ List.replicate n .top) = trimLocals ts := by
  cases n with
  | zero => rw [List.replicate_zero, List.append_nil]
  | succ n =>
    rw [trimLocals_tops, settle, trimLocals, trimLocals, List.reverse_append]
    cases hr : ts.reverse with
    | nil => rfl
    | cons t rest =>
      have hl : ts.getLast? = some t := by rw [← List.head?_reverse, hr]; rfl
      exact congrArg List.reverse (trimReversed_top_cons rest (h.resolve_left (by omega) t hl))

/-- Trimmed locals are known by the types in their slots and by which wide ones have a second half. -/
theorem trimLocals_eq_iff {as bs : List VerifyType} :
    trimLocals as = trimLocals bs ↔ (∀ i, slotOf as i = slotOf bs i) ∧
      ∀ i, (slotOf as i).isWide = true → (i + 1 < as.length ↔ i + 1 < bs.length) := by
  constructor
  · intro h
    have hslots (i : Nat) : slotOf as i = slotOf bs i := by
      rw [← slotOf_trimLocals as, h, slotOf_trimLocals]
    refine ⟨hslots, fun i hw => ?_⟩
    rw [← trimLocals_half hw, h, trimLocals_half (hslots i ▸ hw)]
  · have extend {as bs : List VerifyType} (hle : as.length ≤ bs.length)
        (hslots : ∀ i, slotOf as i = slotOf bs i)
        (hhalf : ∀ i, (slotOf as i).isWide = true → i + 1 < bs.length → i + 1 < as.length) :
        trimLocals as = trimLocals bs := by
      conv_rhs => rw [append_tops_of_slots hle hslots]
      refine (trimLocals_append_tops _ ?_).symm
      by_cases hlt : as.length < bs.length
      · right
        intro t ht
        rw [List.getLast?_eq_getElem?] at ht
        have hin := (List.getElem?_eq_some_iff.mp ht).1
        by_contra hw
        have := hhalf (as.length - 1) (by rw [slotOf, ht]; simpa using hw) (by omega)
        omega
      · left
        omega
    rintro ⟨hslots, hhalf⟩
    rcases Nat.le_total as.length bs.length with hle | hle
    · exact extend hle hslots fun i hw => (hhalf i hw).mpr
    · exact (extend hle (fun i => (hslots i).symm)
        fun i hw => (hhalf i ((hslots i).symm ▸ hw)).mp).symm

theorem trimLocals_trimLocals (ts : List VerifyType) : trimLocals (trimLocals ts) = trimLocals ts :=
  trimLocals_eq_iff.mpr ⟨slotOf_trimLocals ts, fun i hw => trimLocals_half (slotOf_trimLocals ts i ▸ hw)⟩

namespace VerifyType

/-- Can what is of the second type be taken for something of the first one? -/
inductive Above : VerifyType → VerifyType → Prop
  | same (t : VerifyType) : Above t t
  | null (c : RefType) : Above (.object c) .null
  | object (c : RefType) : Above (.object (.object BinaryName.object)) (.object c)

variable {s t a b c : VerifyType}

theorem Above.trans (h : s.Above t) (k : t.Above a) : s.Above a := by
  cases h with
  | same => exact k
  | null c => cases k; exact .null c
  | object c =>
    cases k with
    | same => exact .object c
    | null => exact .null _
    | object c => exact .object c

theorem Above.antisymm (h : t.Above a) (k : a.Above t) : t = a := by
  cases h with
  | same => rfl
  | null => cases k
  | object => cases k <;> rfl

theorem Above.isWide (h : t.Above a) : a.isWide = t.isWide := by cases h <;> rfl

theorem Above.of_isWide (h : t.Above a) (hw : a.isWide = true) : t = a := by
  cases h with
  | same => rfl
  | null | object => cases hw

/-- The merged type is the least one above both. -/
theorem mergeTypes_least (h : mergeTypes a b = some c) (t : VerifyType) :
    t.Above c ↔ t.Above a ∧ t.Above b := by
  unfold mergeTypes at h
  split at h
  next he =>
    cases h
    subst he
    exact ⟨fun h => ⟨h, h⟩, And.left⟩
  next hne =>
    split at h
    next => cases h; exact ⟨fun h => ⟨h.trans (.null _), h⟩, And.right⟩
    next => cases h; exact ⟨fun h => ⟨h, h.trans (.null _)⟩, And.left⟩
    next =>
      cases h
      refine ⟨fun h => ⟨h.trans (.object _), h.trans (.object _)⟩, fun ⟨ha, hb⟩ => ?_⟩
      cases ha with
      | same =>
        cases hb with
        | same => exact absurd rfl hne
        | object => exact .same _
      | object => exact .same _
    next => cases h

/-- Types with one above both can be merged. -/
theorem mergeTypes_of_above (ha : t.Above a) (hb : t.Above b) : ∃ c, mergeTypes a b = some c := by
  unfold mergeTypes
  split
  next => exact ⟨_, rfl⟩
  next hne =>
    cases ha with
    | same =>
      cases hb with
      | same => exact absurd rfl hne
      | null => exact ⟨_, rfl⟩
      | object => exact ⟨_, rfl⟩
    | null =>
      cases hb with
      | same => exact ⟨_, rfl⟩
      | null => exact absurd rfl hne
      | object => exact ⟨_, rfl⟩
    | object =>
      cases hb with
      | same => exact ⟨_, rfl⟩
      | null => exact ⟨_, rfl⟩
      | object => exact ⟨_, rfl⟩

/-- In a slot, what is unusable is above everything. -/
def Shades (t a : VerifyType) : Prop := t = .top ∨ t.Above a

theorem Shades.refl (t : VerifyType) : t.Shades t := .inr (.same t)

theorem Shades.trans (h : s.Shades t) (k : t.Shades a) : s.Shades a := by
  rcases h with rfl | h
  · exact .inl rfl
  · rcases k with rfl | k
    · cases h
      exact .inl rfl
    · exact .inr (h.trans k)

theorem Shades.antisymm (h : t.Shades a) (k : a.Shades t) : t = a := by
  rcases h with rfl | h
  · rcases k with rfl | k
    · rfl
    · cases k
      rfl
  · rcases k with rfl | k
    · cases h
      rfl
    · exact h.antisymm k

/-- Only a wide type itself or nothing usable is above it. -/
theorem Shades.of_isWide (h : t.Shades a) (hw : t.isWide = true) : a = t := by
  rcases h with rfl | h
  · cases hw
  · exact (h.of_isWide (h.isWide.trans hw)).symm

theorem joinTypes_least (a b t : VerifyType) :
    t.Shades (joinTypes a b) ↔ t.Shades a ∧ t.Shades b := by
  unfold joinTypes
  cases hm : mergeTypes a b with
  | some c =>
    have := mergeTypes_least hm t
    unfold Shades
    rw [Option.getD_some, this]
    tauto
  | none =>
    rw [Option.getD_none]
    constructor
    · rintro (rfl | h)
      · exact ⟨.inl rfl, .inl rfl⟩
      · cases h
        exact ⟨.inl rfl, .inl rfl⟩
    · rintro ⟨rfl | ha, hb⟩
      · exact .refl _
      · rcases hb with rfl | hb
        · exact .refl _
        · obtain ⟨c, hc⟩ := mergeTypes_of_above ha hb
          rw [hm] at hc
          cases hc

end VerifyType

end ClassGraft
