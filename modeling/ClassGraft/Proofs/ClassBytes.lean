import ClassGraft.ClassFile
import ClassGraft.Proofs.TakenBytes

namespace ClassGraft

open Reader

/-- The number of attributes fits in two bytes, and the length of each in four. -/
def AttributesFit (as : List Attribute) : Prop :=
  as.length ≤ 65535 ∧ ∀ a ∈ as, a.info.length ≤ 4294967295

instance (as : List Attribute) : Decidable (AttributesFit as) := inferInstanceAs (Decidable (_ ∧ _))

/-- Each text that was added has a length that is written in full, and so has each list. -/
structure ClassFile.Fits (f : ClassFile) : Prop where
  texts : ∀ c ∈ f.pool.added, c.Fits
  interfaces : f.interfaces.length ≤ 65535
  fields : f.fields.length ≤ 65535
  methods : f.methods.length ≤ 65535
  members : ∀ m ∈ f.fields ++ f.methods, AttributesFit m.attributes
  attributes : AttributesFit f.attributes

theorem Attribute.reads_write (a : Attribute) (h : a.info.length ≤ 4294967295) :
    Reads Attribute.read a.write a :=
  (Reads.u16 a.name).bind ((Reads.sized a.info h).map _)

theorem AttributesFit.reads_write {as : List Attribute} (h : AttributesFit as) :
    Reads (counted Attribute.read) (Write.counted Attribute.write as) as :=
  .counted as (fun a ha => a.reads_write (h.2 a ha)) h.1

theorem Attribute.takes : Takes Attribute.read fun bs a =>
    bs = a.write ∧ a.info.length ≤ 4294967295 :=
  Takes.u16.bind fun _ name hn => Takes.sized.map fun _ info ⟨hi, hlen⟩ =>
    ⟨by rw [hn, hi, Attribute.write], hlen⟩

theorem AttributesFit.takes : Takes (counted Attribute.read) fun bs as =>
    bs = Write.counted Attribute.write as ∧ AttributesFit as := Attribute.takes.countedAs

theorem FlagOwner.reads_write (o : FlagOwner) (bits : UInt16) :
    Reads o.read (Write.u16 bits) (o.keep bits) := (Reads.u16 bits).map o.keep

theorem FlagOwner.takes (o : FlagOwner) : Takes o.read fun bs v =>
    ∃ bits, bs = Write.u16 bits ∧ v = o.keep bits :=
  Takes.u16.map fun _ bits h => ⟨bits, h, rfl⟩

/-- The member without the flags that are not assigned. -/
def RawMember.kept (o : FlagOwner) (m : RawMember) : RawMember := { m with flags := o.keep m.flags }

theorem RawMember.reads_write (o : FlagOwner) (m : RawMember) (h : AttributesFit m.attributes) :
    Reads (RawMember.read o) m.write (m.kept o) := by
  unfold RawMember.write
  simp only [List.append_assoc]
  exact (o.reads_write m.flags).bind ((Reads.u16 m.name).bind ((Reads.u16 m.descriptor).bind
    (h.reads_write.map _)))

theorem RawMember.takes (o : FlagOwner) : Takes (RawMember.read o) fun bs m =>
    ∃ raw : RawMember, bs = raw.write ∧ raw.kept o = m :=
  o.takes.bind fun _ _ ⟨bits, h₁, hv⟩ => Takes.u16.bind fun _ name h₂ =>
    Takes.u16.bind fun _ descriptor h₃ => AttributesFit.takes.map fun _ attributes ⟨h₄, _⟩ =>
      ⟨⟨bits, name, descriptor, attributes⟩, by rw [h₁, h₂, h₃, h₄]; simp [RawMember.write],
        by rw [hv]; rfl⟩

/-- The content without the flags that are not assigned. -/
def ClassContent.kept (c : ClassContent) : ClassContent := {
  c with
  flags := FlagOwner.ofClass.keep c.flags
  fields := c.fields.map (RawMember.kept .ofField)
  methods := c.methods.map (RawMember.kept .ofMethod) }

theorem ClassContent.takes : Takes ClassContent.read fun bs c =>
    ∃ raw : ClassContent, bs = raw.write ∧ raw.kept = c :=
  (FlagOwner.takes _).bind fun _ _ ⟨flags, h₁, hv⟩ => Takes.u16.bind fun _ this h₂ =>
    Takes.u16.bind fun _ super h₃ => Takes.u16.always.countedAs.bind fun _ interfaces ⟨h₄, _, _⟩ =>
      (RawMember.takes _).countedFrom.bind fun _ _ ⟨fields, h₅, hf⟩ =>
        (RawMember.takes _).countedFrom.bind fun _ _ ⟨methods, h₆, hm⟩ =>
          AttributesFit.takes.map fun _ attributes ⟨h₇, _⟩ =>
            ⟨⟨flags, this, super, interfaces, fields, methods, attributes⟩,
              by rw [h₁, h₂, h₃, h₄, h₅, h₆, h₇]; simp [ClassContent.write],
              by rw [hv, ← hf, ← hm]; rfl⟩

namespace ClassFile

variable {f : ClassFile}

/-- The parts of a class file lie one behind another. -/
theorem parse_stages {s : Bytes} (h : ClassFile.parse s = .ok f) : f.version.isSupported = true ∧
    ∃ s₁ s₂ s₃, Reader.u32 s = .ok (magic, s₁) ∧ Version.read s₁ = .ok (f.version, s₂) ∧
      Pool.read s₂ = .ok (f.pool, s₃) ∧ ClassContent.read s₃ = .ok (f.toClassContent, []) := by
  unfold ClassFile.parse at h
  obtain ⟨⟨found, s₁⟩, hmagic, h⟩ := except_bind_ok.mp h
  dsimp only at h
  split at h
  next => cases h
  next hfound =>
    obtain ⟨⟨version, s₂⟩, hversion, h⟩ := except_bind_ok.mp h
    dsimp only at h
    split at h
    next => cases h
    next hsupported =>
      obtain ⟨⟨pool, s₃⟩, hpool, h⟩ := except_bind_ok.mp h
      obtain ⟨⟨content, s₄⟩, hcontent, h⟩ := except_bind_ok.mp h
      dsimp only at h
      split at h
      next => cases h
      next hempty =>
        cases h
        have hnil : s₄ = [] := by simpa using hempty
        have hm : found = magic := by simpa using hfound
        subst hnil hm
        exact ⟨by simpa using hsupported, s₁, s₂, s₃, except_mapError_ok.mp hmagic,
          except_mapError_ok.mp hversion, hpool, except_mapError_ok.mp hcontent⟩

theorem Fits.reads_write (h : f.Fits) :
    Reads ClassContent.read f.toClassContent.write f.toClassContent.kept := by
  unfold ClassContent.write
  simp only [List.append_assoc]
  refine (FlagOwner.ofClass.reads_write f.flags).bind ?_
  refine (Reads.u16 f.thisClass).bind ((Reads.u16 f.superClass).bind ?_)
  refine (Reads.counted f.interfaces (fun i _ => .u16 i) h.interfaces).bind ?_
  refine (Reads.countedMap f.fields (fun m hm => m.reads_write .ofField
    (h.members m (List.mem_append_left _ hm))) h.fields).bind ?_
  refine (Reads.countedMap f.methods (fun m hm => m.reads_write .ofMethod
    (h.members m (List.mem_append_right _ hm))) h.methods).bind ?_
  exact h.attributes.reads_write.map _

/-- A class file of a known version is read back, with all constants at their indices. -/
theorem Fits.parse_write (h : f.Fits) (hp : f.pool.Reached) (hv : f.version.isSupported = true) :
    ClassFile.parse f.write =
      .ok { f.toClassContent.kept with version := f.version, pool := f.pool.settled } := by
  have hmagic := Reads.u32 magic (f.version.write ++ (f.pool.write ++ f.toClassContent.write))
  have hversion : Reads Version.read f.version.write f.version :=
    (Reads.u16 f.version.minor).bind ((Reads.u16 f.version.major).map _)
  have hpool := hp.read_write h.texts f.toClassContent.write
  have hcontent := h.reads_write []
  rw [List.append_nil] at hcontent
  rw [write, List.append_assoc, List.append_assoc]
  unfold ClassFile.parse
  simp only [hmagic, hversion _, hpool, hcontent, Except.mapError, bind, Except.bind, hv]
  rfl

end ClassFile

end ClassGraft
