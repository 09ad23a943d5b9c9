import ClassGraft.Proofs.ClassBytes
import ClassGraft.Proofs.MethodStages

namespace ClassGraft

open Pool

namespace Attribute

variable {a : Attribute} {as : List Attribute} {P : Attribute → Bool}

theorem mem_setIn (a : Attribute) (as : List Attribute) : a ∈ a.setIn as := by
  induction as with
  | nil => exact List.mem_cons_self
  | cons b as ih =>
    rw [setIn]
    split
    next => exact List.mem_cons_self
    next => exact List.mem_cons_of_mem _ ih

/-- One attribute more is there if none had the index of the name. -/
theorem length_setIn (a : Attribute) (as : List Attribute) :
    (a.setIn as).length = as.length + if ∃ b ∈ as, b.name = a.name then 0 else 1 := by
  induction as with
  | nil => rw [if_neg (by simp)]; rfl
  | cons b as ih =>
    rw [setIn]
    by_cases hb : b.name = a.name
    · rw [if_pos hb, if_pos ⟨b, List.mem_cons_self, hb⟩]
      rfl
    · rw [if_neg hb, List.length_cons, ih, List.length_cons]
      simp only [List.exists_mem_cons_iff, hb, false_or]
      omega

/-- Setting an attribute and looking at those of some names go together. -/
theorem filter_setIn (ha : P a = true) (h : ∀ b ∈ as, b.name = a.name → P b = true) :
    (a.setIn as).filter P = a.setIn (as.filter P) := by
  induction as with
  | nil => exact List.filter_cons_of_pos ha
  | cons b as ih =>
    obtain ⟨hb, has⟩ := List.forall_mem_cons.mp h
    rw [setIn]
    split
    next heq => rw [List.filter_cons_of_pos ha, List.filter_cons_of_pos (hb heq), setIn, if_pos heq]
    next hne =>
      by_cases hp : P b = true
      · rw [List.filter_cons_of_pos hp, List.filter_cons_of_pos hp, setIn, if_neg hne, ih has]
      · rw [List.filter_cons_of_neg hp, List.filter_cons_of_neg hp, ih has]

end Attribute

namespace Pool

variable {p q : Pool} {i : PoolIndex}

/-- The index that a text is given, and the pool behind it. -/
theorem internUtf8_ok {s : String} (hp : p.Reached) (h : internUtf8 s p = (.ok i, q)) :
    p.Leads q ∧ q.index[Constant.utf8 s]? = some i ∧ q.utf8 i = .ok s := by
  have hl := (internUtf8_interns s).run h
  have hi : q.index[Constant.utf8 s]? = some i := intern_index h
  exact ⟨hl, hi, utf8_ok.mpr ((hl.reached hp).index_iff.mp hi).1⟩

end Pool

theorem ClassFile.parse_ok {s : Bytes} {f : ClassFile} (h : ClassFile.parse s = .ok f) :
    f.pool.Reached ∧ f.version.isSupported = true := by
  obtain ⟨hsupported, s₁, s₂, s₃, -, -, hpool, -⟩ := ClassFile.parse_stages h
  exact ⟨.read hpool, hsupported⟩

namespace ClassFile

variable {name : String}

theorem isNamed_iff {x : Except ClassError String} :
    (match x with | .ok s => s == name | .error _ => false) = true ↔ x = .ok name := by
  cases x <;> simp

end ClassFile

namespace ClassModel

variable {α : Type} {c c' : ClassModel}

theorem withPool_ok {x : PoolM α} {a : α} : c.withPool x = .ok (a, c') ↔
    ∃ p, x c.file.pool = (.ok a, p) ∧ c' = { c with file := { c.file with pool := p } } := by
  unfold withPool complete
  rcases x c.file.pool with ⟨e | b, p⟩
  · constructor
    · intro h
      cases h
    · rintro ⟨_, h, _⟩
      cases h
  · constructor
    · intro h
      cases h
      exact ⟨p, rfl, rfl⟩
    · rintro ⟨_, h, rfl⟩
      cases h
      rfl

theorem addField_ok {d : Field} (h : c.addField d = .ok c') :
    ∃ i j p q, internUtf8 d.name.text c.file.pool = (.ok i, p) ∧ internUtf8 d.type.text p = (.ok j, q) ∧
      c' = { c with
        file := { c.file with pool := q, fields := c.file.fields ++ [⟨d.flags, i, j, []⟩] }
        fields := c.fields ++ [d]
        membersModified := true } := by
  obtain ⟨⟨i, c₁⟩, hi, h⟩ := except_bind_ok.mp h
  obtain ⟨⟨j, c₂⟩, hj, h⟩ := except_bind_ok.mp h
  obtain ⟨p, hp, rfl⟩ := withPool_ok.mp hi
  obtain ⟨q, hq, rfl⟩ := withPool_ok.mp hj
  cases h
  exact ⟨i, j, p, q, hp, hq, rfl⟩

theorem setAttribute_ok {name : String} {info : Bytes} (h : c.setAttribute name info = .ok c') :
    ∃ i p, internUtf8 name c.file.pool = (.ok i, p) ∧
      c' = { c with
        file := { c.file with pool := p, attributes := Attribute.setIn ⟨i, info⟩ c.file.attributes }
        membersModified := true } := by
  obtain ⟨⟨i, c₁⟩, hi, h⟩ := except_bind_ok.mp h
  obtain ⟨p, hp, rfl⟩ := withPool_ok.mp hi
  cases h
  exact ⟨i, p, hp, rfl⟩

/-- What every class keeps: each of its constants was read or added as one that was missing, and its
version is one that is read. -/
structure Intact (c : ClassModel) : Prop where
  reached : c.file.pool.Reached
  supported : c.file.version.isSupported = true

theorem parse_intact {s : Bytes} (h : ClassModel.parse s = .ok c) : c.Intact := by
  obtain ⟨hreach, hv⟩ := ClassFile.parse_ok (parse_parts h).1
  exact ⟨hreach, hv⟩

namespace Intact

/-- Any other pool that has come about in the same way may take the place of that of a class. -/
theorem assigned {q : Pool} (h : c.Intact) (hq : q.Reached) :
    Intact { c with file := { c.file with pool := q } } :=
  ⟨hq, h.supported⟩

/-- What has been read of a class can be replaced. -/
theorem of_file (h : c.Intact) (hf : c'.file = c.file) : c'.Intact :=
  ⟨hf.symm ▸ h.reached, hf.symm ▸ h.supported⟩

theorem declared {d : Field} (h : c.Intact) (hd : c.addField d = .ok c') : c'.Intact := by
  obtain ⟨i, j, p, q, hi, hj, rfl⟩ := addField_ok hd
  exact ⟨.intern (.intern h.reached hi) hj, h.supported⟩

theorem set {name : String} {info : Bytes} (h : c.Intact) (hs : c.setAttribute name info = .ok c') :
    c'.Intact := by
  obtain ⟨i, p, hi, rfl⟩ := setAttribute_ok hs
  exact ⟨.intern h.reached hi, h.supported⟩

end Intact

end ClassModel

end ClassGraft
