import ClassGraft.Proofs.EditedCode
import ClassGraft.Proofs.PoolEntries
import ClassGraft.Proofs.SiteDecoding

namespace ClassGraft

open Pool

namespace Reader

theorem u16_drop {s rest : Bytes} {v : UInt16} (h : u16 s = .ok (v, rest)) : rest = s.drop 2 := by
  rw [u16_ok h]
  rfl

theorem u32_drop {s rest : Bytes} {v : UInt32} (h : u32 s = .ok (v, rest)) : rest = s.drop 4 := by
  rw [u32_ok h]
  rfl

end Reader

theorem Version.read_drop {s rest : Bytes} {v : Version} (h : Version.read s = .ok (v, rest)) :
    rest = s.drop 4 := by
  obtain ⟨⟨minor, s'⟩, hminor, h⟩ := except_bind_ok.mp h
  obtain ⟨⟨major, s''⟩, hmajor, h⟩ := except_bind_ok.mp h
  cases h
  rw [Reader.u16_drop hmajor, Reader.u16_drop hminor, List.drop_drop]

theorem FlagOwner.keep_keep (o : FlagOwner) (bits : UInt16) : o.keep (o.keep bits) = o.keep bits := by
  rw [keep, keep, UInt16.and_assoc, UInt16.and_self]

theorem RawMember.kept_kept (o : FlagOwner) (m : RawMember) : (m.kept o).kept o = m.kept o := by
  rw [kept, kept, FlagOwner.keep_keep]

/-- Only flags that are assigned are read of a class and its members. -/
theorem ClassContent.read_kept {s rest : Bytes} {c : ClassContent}
    (h : ClassContent.read s = .ok (c, rest)) : c.kept = c := by
  obtain ⟨_, -, raw, -, rfl⟩ := ClassContent.takes s c rest h
  have hmembers (o : FlagOwner) (ms : List RawMember) :
      (ms.map (RawMember.kept o)).map (RawMember.kept o) = ms.map (RawMember.kept o) := by
    rw [List.map_map]
    exact List.map_congr_left fun m _ => m.kept_kept o
  simp only [kept, FlagOwner.keep_keep, hmembers]

/-- The pool lies behind eight bytes, and the content of the class behind it. -/
theorem ClassFile.parse_layout {s : Bytes} {f : ClassFile} (h : ClassFile.parse s = .ok f) :
    ∃ rest, Pool.read (s.drop 8) = .ok (f.pool, rest) ∧
      ClassContent.read rest = .ok (f.toClassContent, []) := by
  obtain ⟨-, s₁, s₂, rest, hmagic, hversion, hpool, hcontent⟩ := ClassFile.parse_stages h
  have hbehind := Version.read_drop hversion
  rw [Reader.u32_drop hmagic, List.drop_drop] at hbehind
  exact ⟨rest, hbehind ▸ hpool, hcontent⟩

/-- The entries of a pool stand behind ten bytes. -/
theorem ClassFile.parse_entries {s : Bytes} {f : ClassFile} (h : ClassFile.parse s = .ok f) :
    ∃ rest, s.drop 10 = f.pool.source ++ rest := by
  obtain ⟨rest, hpool, -⟩ := ClassFile.parse_layout h
  refine ⟨rest, ?_⟩
  have hsource := congrArg (List.drop 2) (read_source hpool)
  rwa [List.drop_drop, List.append_assoc, List.drop_append_of_le_length (Nat.le_refl 2)] at hsource

/-- What was read has not been edited. -/
theorem Body.ofCode_unmodified {pool : Pool} {entry : Option Frame} {c : CodeAttribute} {b : Body}
    (h : Body.ofCode pool entry c = .ok b) : b.isModified = false := by
  obtain ⟨l, d, fs, hfrom⟩ := ofCode_readFrom h
  rw [hfrom.made]
  rfl

theorem Method.read_unmodified {pool : Pool} {owner : BinaryName} {hasFrames : Bool} {raw : RawMember}
    {index : Nat} {m : Method} (h : Method.read pool owner hasFrames raw index = .ok m) :
    m.isModified = false := by
  obtain ⟨-, found, -, hcode⟩ := Method.read_parts h
  cases found with
  | none =>
    rw [isModified, body?, hcode]
    rfl
  | some a =>
    obtain ⟨code, hread, hsome⟩ := hcode
    obtain ⟨content, hbody⟩ := MethodCode.read_body hread
    rw [isModified_eq hsome]
    exact Body.ofCode_unmodified hbody

/-- It is the lowest index of a text. -/
def Pool.Least (p : Pool) (s : String) (i : PoolIndex) : Prop :=
  p.utf8 i = .ok s ∧ ∀ j, p.utf8 j = .ok s → i ≤ j

theorem Pool.Reached.least_iff {p : Pool} {s : String} {i : PoolIndex} (h : p.Reached) :
    p.Least s i ↔ p.index[Constant.utf8 s]? = some i := by
  simp only [Least, utf8_ok, h.index_iff]

theorem Pool.Least.leads {p q : Pool} {s : String} {i : PoolIndex} (h : p.Least s i) (hp : p.Reached)
    (hl : p.Leads q) : q.Least s i :=
  (hl.reached hp).least_iff.mpr (hl.index (hp.least_iff.mp h))

namespace Attribute

/-- The attribute takes the place of the first one with its index, or it comes behind all others if there
is none. -/
inductive Puts (a : Attribute) : List Attribute → List Attribute → Prop
  | replaced {before behind : List Attribute} {old : Attribute} : (∀ b ∈ before, b.name ≠ a.name) →
      old.name = a.name → Puts a (before ++ old :: behind) (before ++ a :: behind)
  | added {as : List Attribute} : (∀ b ∈ as, b.name ≠ a.name) → Puts a as (as ++ [a])

theorem puts_setIn (a : Attribute) (as : List Attribute) : a.Puts as (a.setIn as) := by
  induction as with
  | nil => exact .added fun b hb => absurd hb List.not_mem_nil
  | cons b as ih =>
    rw [setIn]
    split
    next heq => exact @Puts.replaced a [] as b (fun c hc => absurd hc List.not_mem_nil) heq
    next hne =>
      generalize a.setIn as = as' at ih
      cases ih with
      | @replaced before behind old hbefore hold =>
        exact @Puts.replaced a (b :: before) behind old (List.forall_mem_cons.mpr ⟨hne, hbefore⟩) hold
      | added has => exact .added (List.forall_mem_cons.mpr ⟨hne, has⟩)

variable {a : Attribute}

/-- Among attributes of other names nothing changes. -/
theorem filter_setIn_other {P : Attribute → Bool} (hP : ∀ b, b.name = a.name → P b = false)
    (as : List Attribute) : (a.setIn as).filter P = as.filter P := by
  have ha : ¬P a = true := by simp [hP a rfl]
  induction as with
  | nil => exact List.filter_cons_of_neg ha
  | cons b as ih =>
    rw [setIn]
    split
    next heq =>
      have hb : ¬P b = true := by simp [hP b heq]
      rw [List.filter_cons_of_neg ha, List.filter_cons_of_neg hb]
    next => rw [List.filter_cons, List.filter_cons, ih]

theorem find?_setIn_index (a : Attribute) (as : List Attribute) (i : PoolIndex) :
    (a.setIn as).find? (·.name == i) = if a.name = i then some a else as.find? (·.name == i) := by
  have found {b : Attribute} {as : List Attribute} (h : b.name = i) :
      (b :: as).find? (·.name == i) = some b := List.find?_cons_of_pos (by simpa using h)
  have passed {b : Attribute} {as : List Attribute} (h : b.name ≠ i) :
      (b :: as).find? (·.name == i) = as.find? (·.name == i) := List.find?_cons_of_neg (by simpa using h)
  induction as with
  | nil => rw [setIn, List.find?_singleton]; simp
  | cons b as ih =>
    rw [setIn]
    split
    next heq =>
      by_cases hi : a.name = i
      · rw [found hi, if_pos hi]
      · rw [passed hi, passed (heq ▸ hi), if_neg hi]
    next hne =>
      by_cases hb : b.name = i
      · rw [found hb, found hb, if_neg fun ha => hne (hb.trans ha.symm)]
      · rw [passed hb, passed hb, ih]

/-- Attributes set one after the other. -/
def setAllIn (new as : List Attribute) : List Attribute := new.foldl (fun as a => a.setIn as) as

/-- Setting some attributes leaves the others as they are, and in order. -/
theorem filter_setAllIn {P : Attribute → Bool} {new : List Attribute}
    (hP : ∀ a ∈ new, ∀ b : Attribute, b.name = a.name → P b = false) (as : List Attribute) :
    (setAllIn new as).filter P = as.filter P := by
  induction new generalizing as with
  | nil => rfl
  | cons a new ih =>
    obtain ⟨ha, hnew⟩ := List.forall_mem_cons.mp hP
    rw [setAllIn, List.foldl_cons]
    exact (ih hnew _).trans (filter_setIn_other ha as)

/-- An index leads to what was set last for it. -/
theorem find?_setAllIn (new as : List Attribute) (i : PoolIndex) :
    (setAllIn new as).find? (·.name == i) =
      (new.reverse.find? (·.name == i)).or (as.find? (·.name == i)) := by
  induction new generalizing as with
  | nil => rfl
  | cons a new ih =>
    rw [setAllIn, List.foldl_cons]
    refine (ih _).trans ?_
    rw [find?_setIn_index, List.reverse_cons, List.find?_append, List.find?_singleton, Option.or_assoc]
    by_cases hi : a.name = i <;> simp [hi]

end Attribute

end ClassGraft
