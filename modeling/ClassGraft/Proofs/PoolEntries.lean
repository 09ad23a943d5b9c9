import ClassGraft.Proofs.PoolRequests

namespace ClassGraft

open Reader

namespace Pool

/-- The bytes of the entry at an index, where the entries of a pool come first. -/
def entryBytes? (s : Bytes) (i : PoolIndex) : Option Bytes :=
  match readEntries i.toNat empty s with
  | .error _ => none
  | .ok (p, rest) =>
    if p.size = i.toNat then
      match Constant.read rest with
      | .error _ => none
      | .ok (_, behind) => some (rest.take (rest.length - behind.length))
    else none

variable {p q : Pool} {c : Constant} {i : PoolIndex} {s rest bs : Bytes}

/-- An entry lies behind those that take the slots before its own. -/
theorem entryBytes?_some : entryBytes? s i = some bs ↔ ∃ before behind base c,
    s = before ++ (bs ++ behind) ∧ Reads (readEntries i.toNat empty) before base ∧
      base.size = i.toNat ∧ Reads Constant.read bs c := by
  constructor
  · intro h
    unfold entryBytes? at h
    split at h
    next => cases h
    next base rest hbase =>
      split at h
      next hsize =>
        split at h
        next => cases h
        next c behind hc =>
          cases h
          obtain ⟨before, rfl, hbefore⟩ := readEntries_exact _ _ _ _ _ hbase
          obtain ⟨es, rfl, hes⟩ := Constant.read_exact _ _ _ hc
          have htake : (es ++ behind).take ((es ++ behind).length - behind.length) = es := by
            rw [List.length_append, Nat.add_sub_cancel, List.take_left]
          rw [htake]
          exact ⟨before, behind, base, c, rfl, hbefore, hsize, hes⟩
      next => cases h
  · rintro ⟨before, behind, base, c, rfl, hbefore, hsize, hc⟩
    have hbase := hbefore (bs ++ behind)
    have hentry := hc behind
    unfold entryBytes?
    simp only [hbase, hsize, ↓reduceIte, hentry]
    rw [List.length_append, Nat.add_sub_cancel, List.take_left]

/-- What follows the entries does not matter. -/
theorem entryBytes?_append (h : entryBytes? s i = some bs) (t : Bytes) :
    entryBytes? (s ++ t) i = some bs := by
  obtain ⟨before, behind, base, c, rfl, hbefore, hsize, hc⟩ := entryBytes?_some.mp h
  refine entryBytes?_some.mpr ⟨before, behind ++ t, base, c, ?_, hbefore, hsize, hc⟩
  rw [List.append_assoc, List.append_assoc]

theorem readEntries_slots {count n : Nat} (h : readEntries count p s = .ok (q, rest))
    (hn : n < p.size) : q.slots[n]? = p.slots[n]? := by
  fun_induction readEntries count p s with
  | case1 => cases h
  | case2 p s hlt c rest' hc ih =>
    rw [ih h (Nat.lt_trans hn (size_lt_append p c)), append_slots_lt hn]
  | case3 p s hlt => cases h; rfl

/-- Each slot that is filled by reading entries is filled by some of the bytes. -/
theorem readEntries_entry {count n : Nat} (h : readEntries count p s = .ok (q, rest))
    (hq : q.slots[n]? = some (some c)) (hn : p.size ≤ n) : ∃ before bs behind base,
      s = before ++ (bs ++ behind) ∧ Reads (readEntries n p) before base ∧ base.size = n ∧
        Reads Constant.read bs c := by
  fun_induction readEntries count p s with
  | case1 => cases h
  | case3 p s hlt =>
    cases h
    exact absurd (Array.getElem?_eq_some_iff.mp hq).1 (Nat.not_lt.mpr hn)
  | case2 p s hlt d rest' hd ih =>
    obtain ⟨es, rfl, hes⟩ := Constant.read_exact _ _ _ hd
    by_cases hfurther : (p.append d).size ≤ n
    · obtain ⟨before, bs, behind, base, rfl, hbefore, hsize, hbs⟩ := ih h hfurther
      refine ⟨es ++ before, bs, behind, base, (List.append_assoc ..).symm, fun more => ?_, hsize, hbs⟩
      have hlt : p.size < n := Nat.lt_of_lt_of_le (size_lt_append p d) hfurther
      rw [readEntries, if_pos hlt, List.append_assoc, hes]
      exact hbefore more
    · -- The entry itself, since nothing stands in the slot behind a wide constant.
      have hfirst : (p.append d).slots[n]? = some (some c) := by
        rw [← readEntries_slots h (Nat.lt_of_not_le hfurther)]
        exact hq
      rcases append_slots_some hfirst with hold | ⟨rfl, rfl⟩
      · exact absurd (Array.getElem?_eq_some_iff.mp hold).1 (Nat.not_lt.mpr hn)
      · refine ⟨[], es, rest', p, rfl, fun more => ?_, rfl, hes⟩
        rw [readEntries, if_neg (Nat.lt_irrefl _)]
        rfl

/-- Each constant that was read is encoded by some of the bytes that were read. -/
theorem read_entry (h : Pool.read s = .ok (p, rest)) (hc : p.constant i = .ok c) :
    ∃ bs, entryBytes? p.source i = some bs ∧ Reads Constant.read bs c := by
  have hsound := (Reached.read h).sound
  obtain ⟨count, s', q, -, hq, -, rfl⟩ := read_ok h
  obtain ⟨es, rfl, hes⟩ := readEntries_exact _ _ _ _ _ hq
  have hsource : (es ++ rest).take ((es ++ rest).length - rest.length) = es := by
    rw [List.length_append, Nat.add_sub_cancel, List.take_left]
  have hne : i.toNat ≠ (0 : UInt16).toNat := fun heq => hsound.index_ne_zero hc (UInt16.toNat_inj.mp heq)
  have hfirst : empty.size ≤ i.toNat := Nat.one_le_iff_ne_zero.mpr hne
  obtain ⟨before, bs, behind, base, heq, hbefore, hsize, hbs⟩ :=
    readEntries_entry (hes []) (constant_ok.mp hc) hfirst
  rw [List.append_nil] at heq
  refine ⟨bs, entryBytes?_some.mpr ⟨before, behind, base, c, ?_, hbefore, hsize, hbs⟩, hbs⟩
  rw [hsource, heq]

end Pool

end ClassGraft
