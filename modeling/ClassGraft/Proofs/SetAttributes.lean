import ClassGraft.Proofs.ClassPatching
import ClassGraft.Proofs.EditedCode

namespace ClassGraft

theorem Attribute.head?_setIn (a : Attribute) (as : List Attribute) :
    (a.setIn as).head? =
      some (as.head?.elim a fun first => if first.name = a.name then a else first) := by
  cases as with
  | nil => rfl
  | cons b as =>
    rw [setIn, List.head?_cons, Option.elim_some]
    split <;> rfl

theorem ClassFile.attribute?_named (f : ClassFile) (name : String) :
    f.attribute? name = (f.pool.named name f.attributes).head? := by
  rw [Pool.named, List.head?_filter, attribute?]
  exact List.find?_congr fun a _ => Bool.eq_iff_iff.mpr (isNamed_iff.trans Pool.named_iff.symm)

namespace Pool

variable {p q : Pool} {name s : String} {i j : PoolIndex} {as : List Attribute}

/-- Interning a text leaves the texts of a pool as they are, but for that one, at the index that is
given. -/
theorem internUtf8_texts (hp : p.Reached) (h : internUtf8 name p = (.ok i, q)) :
    q.utf8 j = .ok s ↔ p.utf8 j = .ok s ∨ j = i ∧ s = name := by
  obtain ⟨hl, -, htext⟩ := internUtf8_ok hp h
  refine ⟨fun hq => ?_, ?_⟩
  · rw [internUtf8] at h
    unfold intern at h
    split at h
    next => cases h; exact .inl hq
    next =>
      split at h
      next => cases h
      next =>
        cases h
        rcases append_slots_some (constant_ok.mp (utf8_ok.mp hq)) with hold | ⟨hsize, hs⟩
        · exact .inl (utf8_ok.mpr (constant_ok.mpr hold))
        · cases hs
          refine .inr ⟨?_, rfl⟩
          rw [← hsize]
          exact UInt16.ofNat_toNat.symm
  · rintro (hold | ⟨rfl, rfl⟩)
    · exact hl.grows.utf8 hold
    · exact htext

/-- Attributes of other names are those of before. -/
theorem named_setIn_other (hp : p.Reached) (h : internUtf8 name p = (.ok i, q)) (hs : s ≠ name)
    (info : Bytes) : q.named s (Attribute.setIn ⟨i, info⟩ as) = p.named s as := by
  obtain ⟨-, -, htext⟩ := internUtf8_ok hp h
  have hother (b : Attribute) (hb : b.name = i) : ((q.utf8 b.name).toOption == some s) = false := by
    refine Bool.eq_false_iff.mpr fun hn => hs ?_
    rw [named_iff, hb, htext] at hn
    exact (Except.ok.inj hn).symm
  rw [named, Attribute.filter_setIn_other hother]
  refine List.filter_congr fun b _ => Bool.eq_iff_iff.mpr ?_
  rw [named_iff, named_iff, internUtf8_texts hp h]
  exact or_iff_left fun hb => hs hb.2

/-- Attributes get a name that no attribute had by having the index that the name is given. -/
theorem named_new (hp : p.Reached) (h : internUtf8 name p = (.ok i, q)) (hnone : p.named name as = []) :
    q.named name as = as.filter (·.name == i) := by
  refine List.filter_congr fun b hb => Bool.eq_iff_iff.mpr ?_
  have hold : p.utf8 b.name ≠ .ok name := fun hn => List.filter_eq_nil_iff.mp hnone b hb (named_iff.mpr hn)
  rw [named_iff, internUtf8_texts hp h, beq_iff_eq]
  simp [hold]

/-- If an attribute had the name, those that have it stay the same. -/
theorem named_known (hp : p.Reached) (hl : p.Leads q) (hsome : p.named name as ≠ []) :
    q.named name as = p.named name as := by
  obtain ⟨b, hb⟩ := List.exists_mem_of_ne_nil _ hsome
  exact named_leads hl hp (named_iff.mp (List.mem_filter.mp hb).2) as

/-- A text that a pool has is given an index that leads to it already. -/
theorem known_index (hp : p.Reached) (h : internUtf8 name p = (.ok i, q)) (hj : p.utf8 j = .ok name) :
    p.utf8 i = .ok name := by
  obtain ⟨hl, hindex, -⟩ := internUtf8_ok hp h
  obtain ⟨k, hk, -⟩ := hp.lowest j.toNat _ (constant_ok.mp (utf8_ok.mp hj))
  cases (hl.index hk).symm.trans hindex
  exact utf8_ok.mpr (hp.index_iff.mp hk).1

/-- The first attribute with the name that was set, by the first one with this name before. -/
theorem named_head (hp : p.Reached) (h : internUtf8 name p = (.ok i, q)) (info : Bytes) :
    (q.named name (Attribute.setIn ⟨i, info⟩ as)).head? =
      some ((p.named name as).head?.elim ⟨i, info⟩ fun first =>
        if first.name = i then ⟨i, info⟩ else first) := by
  obtain ⟨hl, -, htext⟩ := internUtf8_ok hp h
  rw [named_setIn_same htext, Attribute.head?_setIn]
  by_cases hnone : p.named name as = []
  · rw [hnone, named_new hp h hnone]
    cases hfirst : (as.filter (·.name == i)).head? with
    | none => rfl
    | some b =>
      have hb : b.name = i := beq_iff_eq.mp (List.mem_filter.mp (List.mem_of_head? hfirst)).2
      rw [Option.elim_some, if_pos hb]
      rfl
  · rw [named_known hp hl hnone]

/-- How many attributes have the name that was set. -/
theorem named_count (hp : p.Reached) (h : internUtf8 name p = (.ok i, q)) (info : Bytes) :
    (q.named name (Attribute.setIn ⟨i, info⟩ as)).length =
      if p.named name as = [] then max 1 (as.countP (·.name == i))
      else (p.named name as).length + if ∃ b ∈ as, b.name = i then 0 else 1 := by
  obtain ⟨hl, -, htext⟩ := internUtf8_ok hp h
  rw [named_setIn htext]
  by_cases hnone : p.named name as = []
  · have hpos : 0 < as.countP (·.name == i) ↔ ∃ b ∈ as, b.name = i := by
      rw [List.countP_pos_iff]
      simp only [beq_iff_eq]
    rw [if_pos hnone, named_new hp h hnone, ← List.countP_eq_length_filter]
    split
    next hsome => exact (Nat.max_eq_right (hpos.mpr hsome)).symm
    next hno =>
      have hzero : as.countP (·.name == i) = 0 := Nat.eq_zero_of_not_pos fun hn => hno (hpos.mp hn)
      rw [hzero]
      rfl
  · rw [if_neg hnone, named_known hp hl hnone]

end Pool

namespace ClassModel

open Pool

variable {c c' : ClassModel} {name : String} {info : Bytes}

/-- The attributes of the class with a name. -/
def attributesNamed (c : ClassModel) (name : String) : List Attribute :=
  c.file.pool.named name c.file.attributes

/-- An attribute that is set is what is read by the name if the first one that was read by it has the
lowest index of the name, or there was none. Otherwise the old one still is. One attribute more has the
name unless one had its lowest index. The name may come to be at an index that attributes had before it
was there. -/
theorem setAttribute_attributes (hc : c.Intact) (h : c.setAttribute name info = .ok c') :
    ∃ i, c'.file.pool.Least name i ∧
      (∀ s, s ≠ name → c'.file.attribute? s = c.file.attribute? s) ∧
      c'.file.attribute? name = some ((c.file.attribute? name).elim ⟨i, info⟩ fun first =>
        if first.name = i then ⟨i, info⟩ else first) ∧
      (c'.attributesNamed name).length =
        if c.attributesNamed name = [] then max 1 (c.file.attributes.countP (·.name == i))
        else (c.attributesNamed name).length + if ∃ b ∈ c.file.attributes, b.name = i then 0 else 1 := by
  obtain ⟨i, q, hi, rfl⟩ := setAttribute_ok h
  have hp := hc.reached
  obtain ⟨hl, hindex, htext⟩ := internUtf8_ok hp hi
  refine ⟨i, (hl.reached hp).least_iff.mpr hindex, fun s hs => ?_, ?_, named_count hp hi info⟩
  · rw [ClassFile.attribute?_named, ClassFile.attribute?_named, named_setIn_other hp hi hs]
  · rw [ClassFile.attribute?_named, ClassFile.attribute?_named, named_head hp hi]

/-- What is set is read where the pool has the name at one index only, and every attribute has a name. -/
theorem setAttribute_once (hc : c.Intact) (h : c.setAttribute name info = .ok c')
    (hone : ∀ j k, c.file.pool.utf8 j = .ok name → c.file.pool.utf8 k = .ok name → j = k)
    (hnamed : ∀ a ∈ c.file.attributes, ∃ s, c.file.pool.utf8 a.name = .ok s) :
    c'.attribute? name = some info ∧
      ((c.attributesNamed name).length ≤ 1 → (c'.attributesNamed name).length = 1) := by
  obtain ⟨i, q, hi, rfl⟩ := setAttribute_ok h
  have hp := hc.reached
  obtain ⟨hl, hindex, htext⟩ := internUtf8_ok hp hi
  -- an attribute has the name just if it has the one index that the name is given
  have hindices : c.attributesNamed name = c.file.attributes.filter (·.name == i) := by
    refine List.filter_congr fun a ha => Bool.eq_iff_iff.mpr ?_
    rw [named_iff, beq_iff_eq]
    refine ⟨fun hn => hone _ _ hn (known_index hp hi hn), ?_⟩
    rintro rfl
    obtain ⟨s, hs⟩ := hnamed a ha
    cases (hl.grows.utf8 hs).symm.trans htext
    exact hs
  have hof : ∀ b ∈ c.attributesNamed name, b ∈ c.file.attributes ∧ b.name = i := by
    intro b hb
    rw [hindices, List.mem_filter] at hb
    exact ⟨hb.1, beq_iff_eq.mp hb.2⟩
  refine ⟨?_, fun hle => ?_⟩
  · rw [attribute?, ClassFile.attribute?_named, named_head hp hi, ← attributesNamed]
    cases hfirst : (c.attributesNamed name).head? with
    | none => rfl
    | some first =>
      rw [Option.elim_some, if_pos (hof first (List.mem_of_head? hfirst)).2]
      rfl
  · rw [attributesNamed, named_count hp hi, ← attributesNamed, List.countP_eq_length_filter, ← hindices]
    cases hfound : c.attributesNamed name with
    | nil => rfl
    | cons b bs =>
      rw [hfound, List.length_cons] at hle
      rw [if_neg (List.cons_ne_nil b bs), if_pos ⟨b, hof b (hfound ▸ List.mem_cons_self)⟩,
        List.length_cons]
      omega

/-- A class whose pool holds "Mark" at two indices. Its attribute is under the second one. -/
def markedTwice : Bytes := [0xCA, 0xFE, 0xBA, 0xBE, 0, 0, 0, 52, 0, 7,
  1, 0, 16, 106, 97, 118, 97, 47, 108, 97, 110, 103, 47, 79, 98, 106, 101, 99, 116, 7, 0, 1,
  1, 0, 4, 77, 97, 114, 107, 1, 0, 4, 77, 97, 114, 107, 1, 0, 3, 97, 47, 66, 7, 0, 5,
  0, 33, 0, 6, 0, 2, 0, 0, 0, 0, 0, 0, 0, 1, 0, 4, 0, 0, 0, 1, 5]

theorem markedTwice_parsed : ∃ c, ClassModel.parse markedTwice = .ok c ∧
    c.file.attributes = [⟨4, [5]⟩] ∧ c.file.pool.slots.toList = [none, some (.utf8 "java/lang/Object"),
      some (.classRef 1), some (.utf8 "Mark"), some (.utf8 "Mark"), some (.utf8 "a/B"),
      some (.classRef 5)] := by
  have h : (ClassModel.parse markedTwice).toOption.any (fun c =>
      c.file.attributes = [⟨4, [5]⟩] ∧ c.file.pool.slots.toList = [none,
        some (.utf8 "java/lang/Object"), some (.classRef 1), some (.utf8 "Mark"), some (.utf8 "Mark"),
        some (.utf8 "a/B"), some (.classRef 5)]) = true := by
    decide +kernel
  obtain ⟨c, hc, hseen⟩ := toOption_any.mp h
  exact ⟨c, hc, of_decide_eq_true hseen⟩

/-- The old attribute is read on, and the new one is a second one. -/
theorem markedTwice_unread : ∃ c c', ClassModel.parse markedTwice = .ok c ∧
    c.setAttribute "Mark" [7] = .ok c' ∧ (c.attributesNamed "Mark").length = 1 ∧
    c'.attribute? "Mark" = some [5] ∧ (c'.attributesNamed "Mark").length = 2 := by
  obtain ⟨c, hc, hattributes, hslots⟩ := markedTwice_parsed
  have hintact := parse_intact hc
  have hfirst := constant_first [none, some (.utf8 "java/lang/Object"), some (.classRef 1)] hslots
    (by decide) (by decide)
  have hleast : c.file.pool.Least "Mark" 3 := ⟨utf8_ok.mpr hfirst.1, fun j hj => hfirst.2 j (utf8_ok.mp hj)⟩
  have hset : ∃ c', c.setAttribute "Mark" [7] = .ok c' := by
    refine ⟨_, except_bind_ok.mpr ⟨(3, c), withPool_ok.mpr ⟨c.file.pool, ?_, rfl⟩, rfl⟩⟩
    exact intern_known (hintact.reached.least_iff.mp hleast)
  obtain ⟨c', hc'⟩ := hset
  obtain ⟨i, hi, -, hfound, hcount⟩ := setAttribute_attributes hintact hc'
  have hi3 : i = 3 := by
    obtain ⟨j, q, hq, rfl⟩ := setAttribute_ok hc'
    have hq3 := hleast.leads hintact.reached (internUtf8_ok hintact.reached hq).1
    exact UInt16.le_antisymm (hi.2 3 hq3.1) (hq3.2 i hi.1)
  have hsecond : c.file.pool.utf8 4 = .ok "Mark" := by
    rw [utf8_ok, constant_ok, ← Array.getElem?_toList, hslots]
    rfl
  have hone : c.attributesNamed "Mark" = [⟨4, [5]⟩] := by
    rw [attributesNamed, hattributes]
    exact List.filter_cons_of_pos (named_iff.mpr hsecond)
  subst hi3
  refine ⟨c, c', hc, hc', congrArg List.length hone, ?_, ?_⟩
  · rw [attribute?, hfound, ClassFile.attribute?_named, ← attributesNamed, hone]
    rfl
  · rw [hcount, hone, hattributes]
    rfl

end ClassModel

end ClassGraft
