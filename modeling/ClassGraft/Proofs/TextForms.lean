import ClassGraft.Proofs.TextBytes

namespace ClassGraft

namespace ModifiedText

theorem toNat_masked (x mask : UInt32) {m : Nat} (hmask : mask.toNat = 2 ^ m - 1) (hm : m ≤ 8) :
    (x &&& mask).toUInt8.toNat = x.toNat % 2 ^ m := by
  have hpow : 2 ^ m ≤ 2 ^ 8 := Nat.pow_le_pow_right (by decide) hm
  have hlt : x.toNat % 2 ^ m < 2 ^ m := Nat.mod_lt _ (Nat.two_pow_pos m)
  rw [UInt32.toNat_toUInt8, UInt32.toNat_and, hmask, Nat.and_two_pow_sub_one_eq_mod,
    Nat.mod_eq_of_lt (Nat.lt_of_lt_of_le hlt hpow)]

/-- Some consecutive bits of a code point. -/
theorem toNat_field (c : Char) {k mask : UInt32} {m : Nat} (hk : k.toNat < 32)
    (hmask : mask.toNat = 2 ^ m - 1) (hm : m ≤ 8) :
    (c.val >>> k &&& mask).toUInt8.toNat = c.toNat / 2 ^ k.toNat % 2 ^ m := by
  rw [toNat_masked _ _ hmask hm, UInt32.toNat_shiftRight, Nat.mod_eq_of_lt hk,
    Nat.shiftRight_eq_div_pow]
  rfl

/-- The bits that lead the form of a character, which are those that lead the form of its unit. -/
theorem lead_eq {c : Char} {u j : UInt16} {k mask : UInt32} {m : Nat} (hu : u.toNat = c.toNat)
    (hk : k.toNat < 16) (hj : j.toNat = k.toNat) (hmask : mask.toNat = 2 ^ m - 1) (hm : m ≤ 8)
    (hlt : c.toNat / 2 ^ k.toNat < 2 ^ m) : (c.val >>> k &&& mask).toUInt8 = (u >>> j).toUInt8 := by
  have hpow : 2 ^ m ≤ 2 ^ 8 := Nat.pow_le_pow_right (by decide) hm
  apply UInt8.toNat_inj.mp
  rw [toNat_field c (Nat.lt_trans hk (by decide)) hmask hm, UInt16.toNat_toUInt8,
    toNat_shift u (hj ▸ hk), hu, hj, Nat.mod_eq_of_lt hlt, Nat.mod_eq_of_lt (Nat.lt_of_lt_of_le hlt hpow)]

theorem tail_eq {c : Char} {u : UInt16} (h : u.toNat % 64 = c.toNat % 64) :
    (c.val &&& 0x3F).toUInt8 = (u &&& 0x3F).toUInt8 := by
  apply UInt8.toNat_inj.mp
  rw [toNat_masked _ _ (m := 6) rfl (by decide), toNat_low, h]
  rfl

theorem formLength_eq {c : Char} (hc : c ≠ '\x00') : formLength c =
    if c.toNat < 0x80 then 1 else if c.toNat < 0x800 then 2 else if c.toNat < 0x10000 then 3 else 4 := by
  unfold formLength Char.utf8Size
  rw [if_neg hc]
  simp only [UInt32.le_iff_toNat_le, Char.toNat]
  grind

theorem encodeUnit_three {u : UInt16} (h : ¬ u < 0x800) : encodeUnit u =
    [(u >>> 12).toUInt8 ||| 0xE0, (u >>> 6 &&& 0x3F).toUInt8 ||| 0x80, (u &&& 0x3F).toUInt8 ||| 0x80] := by
  have hzero : u ≠ 0 := by rintro rfl; exact h (by decide)
  have hone : ¬ u < 0x80 := fun hlt => h (UInt16.lt_trans hlt (by decide))
  unfold encodeUnit
  rw [if_neg hzero, if_neg hone, if_neg h]

/-- The form of a character of one code unit is that of the unit. -/
theorem encodeChar_unit {c : Char} (h : c.toNat < 0x10000) :
    encodeChar c = encodeUnit c.toNat.toUInt16 := by
  have hu : c.toNat.toUInt16.toNat = c.toNat := by
    rw [Nat.toUInt16_eq, UInt16.toNat_ofNat']
    omega
  generalize c.toNat.toUInt16 = u at hu
  by_cases hc : c = '\x00'
  · subst hc
    cases UInt16.toNat_inj.mp (show u.toNat = (0 : UInt16).toNat from hu)
    rfl
  have hzero : u ≠ 0 := by
    rintro rfl
    exact hc (Char.toNat_inj.mp hu.symm)
  have htail : (c.val &&& 0x3F).toUInt8 = (u &&& 0x3F).toUInt8 := tail_eq (congrArg (· % 64) hu)
  have hform := formLength_eq hc
  have hone : u < 0x80 ↔ c.toNat < 0x80 := by rw [UInt16.lt_iff_toNat_lt, hu]; rfl
  have htwo : u < 0x800 ↔ c.toNat < 0x800 := by rw [UInt16.lt_iff_toNat_lt, hu]; rfl
  by_cases h1 : c.toNat < 0x80
  · rw [if_pos h1] at hform
    have hbyte : c.val.toUInt8 = u.toUInt8 := by
      apply UInt8.toNat_inj.mp
      rw [UInt32.toNat_toUInt8, UInt16.toNat_toUInt8, hu]
      rfl
    rw [encodeUnit, if_neg hzero, if_pos (hone.mpr h1), ← hbyte]
    simp only [encodeChar, hform]
  by_cases h2 : c.toNat < 0x800
  · rw [if_neg h1, if_pos h2] at hform
    have hlead : (c.val >>> 6 &&& 0x1F).toUInt8 = (u >>> 6).toUInt8 :=
      lead_eq (m := 5) hu (by decide) rfl rfl (by decide) (Nat.div_lt_of_lt_mul h2)
    rw [encodeUnit, if_neg hzero, if_neg (h1 ∘ hone.mp), if_pos (htwo.mpr h2), ← hlead, ← htail]
    simp only [encodeChar, hform]
  · rw [if_neg h1, if_neg h2, if_pos h] at hform
    have hlead : (c.val >>> 12 &&& 0x0F).toUInt8 = (u >>> 12).toUInt8 :=
      lead_eq (m := 4) hu (by decide) rfl rfl (by decide) (Nat.div_lt_of_lt_mul h)
    have hmid : (c.val >>> 6 &&& 0x3F).toUInt8 = (u >>> 6 &&& 0x3F).toUInt8 := by
      apply UInt8.toNat_inj.mp
      rw [toNat_field c (m := 6) (by decide) rfl (by decide), toNat_low, toNat_shift u (by decide), hu]
      rfl
    rw [encodeUnit_three (h2 ∘ htwo.mp), ← hlead, ← hmid, ← htail]
    simp only [encodeChar, hform]

/-- The plane of a character counts from one, that of a surrogate from zero. -/
theorem plane_byte : ∀ x : UInt8, x < 0x10 →
    (x - 1 &&& 0x0F) ||| 0xA0 = ((x - 1 &&& 0x0F) + 32) ||| 0x80 := by
  apply forall_byte
  decide +kernel

/-- The mask leaves one bit too many, which is set in any case. -/
theorem rest_byte : ∀ x : UInt8, x < 0x20 → x ||| 0xB0 = (x % 16 + 48) ||| 0x80 := by
  apply forall_byte
  decide +kernel

theorem encodeUnit_surrogate {u : UInt16} (h : u.toNat / 2 ^ 12 = 13) : encodeUnit u =
    ([0xED, (u >>> 6 &&& 0x3F).toUInt8 ||| 0x80, (u &&& 0x3F).toUInt8 ||| 0x80] : Bytes) := by
  have hbig : ¬ u < 0x800 := by
    rw [UInt16.lt_iff_toNat_lt]
    show ¬ _ < 2048
    omega
  have hlead : (u >>> 12).toUInt8 = 13 := by
    apply UInt8.toNat_inj.mp
    rw [UInt16.toNat_toUInt8, toNat_shift u (by decide)]
    show u.toNat / 2 ^ 12 % 2 ^ 8 = 13
    omega
  rw [encodeUnit_three hbig, hlead]
  rfl

/-- Two surrogates of three bytes each. -/
def IsSurrogatePair (bs : Bytes) : Prop :=
  ∃ high low, isHigh high = true ∧ isLow low = true ∧ (encodeUnit high).length = 3 ∧
    (encodeUnit low).length = 3 ∧ bs = encodeUnit high ++ encodeUnit low

theorem length_three {u : UInt16} (h : isHigh u = true ∨ isLow u = true) : (encodeUnit u).length = 3 := by
  rw [isHigh_iff, isLow_iff] at h
  rw [encodeUnit_surrogate (by omega)]
  rfl

/-- The second byte of the first surrogate holds the plane. -/
theorem high_second {c : Char} {high : UInt16} (h : 0x10000 ≤ c.toNat) (hmax : c.toNat < 0x110000)
    (hhigh : high.toNat = 0xD800 + (c.toNat - 0x10000) / 0x400) :
    ((high >>> 6 &&& 0x3F).toUInt8 ||| 0x80 : UInt8) =
      (c.val >>> 16 &&& 0x0F).toUInt8 - 1 &&& 0x0F ||| 0xA0 := by
  have hplane : (c.val >>> 16 &&& 0x0F).toUInt8.toNat = c.toNat / 2 ^ 16 % 2 ^ 4 :=
    toNat_field c (m := 4) (by decide) rfl (by decide)
  have hbits : (high >>> 6 &&& 0x3F).toUInt8 = ((c.val >>> 16 &&& 0x0F).toUInt8 - 1 &&& 0x0F) + 32 := by
    apply UInt8.toNat_inj.mp
    rw [toNat_low, toNat_shift high (by decide), UInt8.toNat_add, UInt8.toNat_and, UInt8.toNat_sub,
      hplane, hhigh]
    show _ / 2 ^ 6 % 64 = ((_ &&& (2 ^ 4 - 1)) + 32) % 2 ^ 8
    rw [Nat.and_two_pow_sub_one_eq_mod]
    show _ = ((2 ^ 8 - 1 + c.toNat / 2 ^ 16 % 2 ^ 4) % 2 ^ 8 % 2 ^ 4 + 32) % 2 ^ 8
    omega
  rw [hbits, plane_byte _ (UInt8.lt_iff_toNat_lt.mpr (hplane ▸ Nat.mod_lt _ (by decide)))]

/-- The second byte of the second surrogate holds the bits above the last six. -/
theorem low_second {c : Char} {low : UInt16} (h : 0x10000 ≤ c.toNat)
    (hlow : low.toNat = 0xDC00 + (c.toNat - 0x10000) % 0x400) :
    ((low >>> 6 &&& 0x3F).toUInt8 ||| 0x80 : UInt8) = (c.val >>> 6 &&& 0x1F).toUInt8 ||| 0xB0 := by
  have hrest : (c.val >>> 6 &&& 0x1F).toUInt8.toNat = c.toNat / 2 ^ 6 % 2 ^ 5 :=
    toNat_field c (m := 5) (by decide) rfl (by decide)
  have hbits : (low >>> 6 &&& 0x3F).toUInt8 = (c.val >>> 6 &&& 0x1F).toUInt8 % 16 + 48 := by
    apply UInt8.toNat_inj.mp
    rw [toNat_low, toNat_shift low (by decide), UInt8.toNat_add, UInt8.toNat_mod, hrest, hlow]
    show _ / 2 ^ 6 % 64 = (c.toNat / 2 ^ 6 % 2 ^ 5 % 16 + 48) % 2 ^ 8
    omega
  rw [hbits, rest_byte _ (UInt8.lt_iff_toNat_lt.mpr (hrest ▸ Nat.mod_lt _ (by decide)))]

theorem encodeChar_pair {c : Char} {high low : UInt16} (h : 0x10000 ≤ c.toNat)
    (hhigh : high.toNat = 0xD800 + (c.toNat - 0x10000) / 0x400)
    (hlow : low.toNat = 0xDC00 + (c.toNat - 0x10000) % 0x400) :
    encodeChar c = encodeUnit high ++ encodeUnit low := by
  have hc : c ≠ '\x00' := by rintro rfl; exact absurd h (by decide)
  have hmax : c.toNat < 0x110000 := by
    rcases c.valid with hv | hv
    · exact Nat.lt_trans hv (by decide)
    · exact hv.2
  have hform : formLength c = 4 := by
    rw [formLength_eq hc, if_neg (by omega), if_neg (by omega), if_neg (by omega)]
  have hthird : (c.val >>> 10 &&& 0x3F).toUInt8 = (high &&& 0x3F).toUInt8 := by
    apply UInt8.toNat_inj.mp
    rw [toNat_field c (m := 6) (by decide) rfl (by decide), toNat_low, hhigh]
    show c.toNat / 2 ^ 10 % 2 ^ 6 = _
    omega
  have htail : (c.val &&& 0x3F).toUInt8 = (low &&& 0x3F).toUInt8 := tail_eq (by omega)
  rw [encodeUnit_surrogate (by omega), encodeUnit_surrogate (by omega), high_second h hmax hhigh,
    low_second h hlow, ← hthird, ← htail]
  simp only [encodeChar, hform, List.cons_append, List.nil_append]

theorem encodeChar_units (c : Char) : encodeChar c = (units c).flatMap encodeUnit := by
  by_cases h : c.toNat < 0x10000
  · have hunits : units c = [c.toNat.toUInt16] := if_pos h
    rw [hunits, List.flatMap_singleton, encodeChar_unit h]
  · have hle := Nat.le_of_not_lt h
    obtain ⟨high, low, hunits, hhigh, hlow, -⟩ := units_pair hle
    rw [hunits, List.flatMap_cons, List.flatMap_singleton, encodeChar_pair hle hhigh hlow]

/-- Neither a zero nor a byte that leads more than two others comes about. -/
theorem form_bytes : ∀ x : UInt8, (x < 0x40 → x ||| 0x80 ≠ 0 ∧ x ||| 0x80 < 0xF0) ∧
    (x < 0x20 → x ||| 0xC0 ≠ 0 ∧ x ||| 0xC0 < 0xF0) ∧
    (x < 0x10 → x ||| 0xE0 ≠ 0 ∧ x ||| 0xE0 < 0xF0) := by
  apply forall_byte
  decide +kernel

theorem encodeUnit_bytes (u : UInt16) : ∀ b ∈ encodeUnit u, b ≠ 0 ∧ b < 0xF0 := by
  have htail := (form_bytes _).1 (low_lt u)
  unfold encodeUnit
  split
  next =>
    simp only [List.forall_mem_cons]
    exact ⟨by decide, by decide, List.forall_mem_nil _⟩
  next hzero =>
    split
    next h =>
      have hu : u.toNat < 0x80 := h
      have hn : u.toUInt8.toNat = u.toNat := by
        rw [UInt16.toNat_toUInt8]
        omega
      refine List.forall_mem_singleton.mpr ⟨fun h0 => hzero ?_, ?_⟩
      · apply UInt16.toNat_inj.mp
        rw [← hn, h0]
        rfl
      · rw [UInt8.lt_iff_toNat_lt, hn]
        exact Nat.lt_trans hu (by decide)
    next =>
      split
      next h =>
        have hlead := (form_bytes _).2.1 (lead_two_lt h)
        simp only [List.forall_mem_cons]
        exact ⟨hlead, htail, List.forall_mem_nil _⟩
      next =>
        have hlead := (form_bytes _).2.2 (lead_three_lt u)
        have hmid := (form_bytes _).1 (low_lt (u >>> 6))
        simp only [List.forall_mem_cons]
        exact ⟨hlead, hmid, htail, List.forall_mem_nil _⟩

/-- A text is written character by character in bytes other than zero and below 0xF0, with two surrogates
for a character behind the first plane, and is read back. -/
theorem encode_undone (s : String) :
    decode (encode s) = s ∧ (∀ b ∈ encode s, b ≠ 0 ∧ b < 0xF0) ∧
      encode s = s.toList.flatMap encodeChar ∧
        ∀ c : Char, 0x10000 ≤ c.toNat → IsSurrogatePair (encodeChar c) := by
  refine ⟨decode_encode s, fun b hb => ?_, ?_, fun c hc => ?_⟩
  · obtain ⟨c, -, hb⟩ := List.mem_flatMap.mp hb
    obtain ⟨u, -, hb⟩ := List.mem_flatMap.mp hb
    exact encodeUnit_bytes u b hb
  · rw [encode]
    exact List.flatMap_congr fun c _ => (encodeChar_units c).symm
  · obtain ⟨high, low, -, hm, hl, hhigh, hlow⟩ := units_pair hc
    exact ⟨high, low, hhigh, hlow, length_three (.inl hhigh), length_three (.inr hlow), encodeChar_pair hc hm hl⟩

theorem encode_undone_mixed : encode "\x00é😀" = [0xC0, 0x80, 0xC3, 0xA9, 0xED, 0xA0, 0xBD, 0xED, 0xB8, 0x80] ∧
    decode (encode "\x00é😀") = "\x00é😀" ∧ ((0x80 : UInt8) ≠ 0 ∧ (0x80 : UInt8) < 0xF0) ∧
      IsSurrogatePair (encodeChar '😀') := by
  obtain ⟨hback, hbytes, hform, hpair⟩ := encode_undone "\x00é😀"
  have h : encode "\x00é😀" = [0xC0, 0x80, 0xC3, 0xA9, 0xED, 0xA0, 0xBD, 0xED, 0xB8, 0x80] := by
    rw [hform]
    decide
  exact ⟨h, hback, hbytes 0x80 (by rw [h]; decide), hpair '😀' (by decide)⟩

end ModifiedText

end ClassGraft
