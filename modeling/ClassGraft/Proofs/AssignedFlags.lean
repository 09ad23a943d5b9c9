import ClassGraft.Proofs.ClassBytes
import ClassGraft.Proofs.PoolRequests

namespace ClassGraft

open Reader

/-- The owner assigns all of the flags that are set. -/
def FlagOwner.Owns (o : FlagOwner) (bits : UInt16) : Prop := bits &&& ~~~o.assigned = 0

theorem FlagOwner.keep_eq (o : FlagOwner) (bits : UInt16) : o.keep bits = bits ↔ o.Owns bits := by
  unfold FlagOwner.keep FlagOwner.Owns
  constructor
  · intro h
    rw [← h, UInt16.and_assoc, UInt16.and_not_self, UInt16.and_zero]
  · intro h
    refine UInt16.toBitVec_inj.mp (BitVec.eq_of_getElem_eq fun i hi => ?_)
    have hbit := congrArg (fun v : UInt16 => v.toBitVec[i]) h
    simp only [UInt16.toBitVec_and, UInt16.toBitVec_not, BitVec.getElem_and, BitVec.getElem_not] at hbit ⊢
    cases hset : bits.toBitVec[i] with
    | false => rfl
    | true => simpa [hset] using hbit

/-- No flag is set on the class, its fields and its methods that is not assigned. -/
structure ClassContent.Assigned (c : ClassContent) : Prop where
  ofClass : FlagOwner.ofClass.Owns c.flags
  ofFields : ∀ m ∈ c.fields, FlagOwner.ofField.Owns m.flags
  ofMethods : ∀ m ∈ c.methods, FlagOwner.ofMethod.Owns m.flags

/-- A mask that clears nothing of the bytes. -/
def fullMask (bs : Bytes) : Bytes := bs.map fun _ => 0xFF

/-- The mask of a member in its bytes: all but the flags that are not assigned. -/
def RawMember.mask (o : FlagOwner) (m : RawMember) : Bytes :=
  Write.u16 o.assigned ++ fullMask (Write.u16 m.name ++ Write.u16 m.descriptor ++
    Write.counted Attribute.write m.attributes)

def RawMember.maskAll (o : FlagOwner) (ms : List RawMember) : Bytes :=
  fullMask (Write.u16 ms.length.toUInt16) ++ ms.flatMap (RawMember.mask o)

def ClassContent.mask (c : ClassContent) : Bytes :=
  Write.u16 FlagOwner.ofClass.assigned ++ fullMask (Write.u16 c.thisClass ++ Write.u16 c.superClass ++
    Write.counted Write.u16 c.interfaces) ++ RawMember.maskAll .ofField c.fields ++
    RawMember.maskAll .ofMethod c.methods ++ fullMask (Write.counted Attribute.write c.attributes)

def ClassFile.mask (f : ClassFile) : Bytes :=
  fullMask (Write.u32 magic ++ f.version.write ++ f.pool.write) ++ f.toClassContent.mask

/-- The second bytes are the first ones without what is not in the mask, and nothing is cleared just if the
condition holds. -/
structure Clears (before mask after : Bytes) (clear : Prop) : Prop where
  length : before.length = mask.length
  masked : List.zipWith (· &&& ·) before mask = after
  same : after = before ↔ clear

namespace Clears

variable {bs bs' mask mask' cs cs' : Bytes} {p q : Prop}

theorem after_length (h : Clears bs mask cs p) : cs.length = bs.length := by
  rw [← h.masked, List.length_zipWith, ← h.length, Nat.min_self]

theorem append (h : Clears bs mask cs p) (h' : Clears bs' mask' cs' q) :
    Clears (bs ++ bs') (mask ++ mask') (cs ++ cs') (p ∧ q) where
  length := by rw [List.length_append, List.length_append, h.length, h'.length]
  masked := by rw [List.zipWith_append h.length, h.masked, h'.masked]
  same := by rw [List.append_eq_append_iff_of_size_eq_left h.after_length, h.same, h'.same]

theorem nothing (bs : Bytes) : Clears bs (fullMask bs) bs True where
  length := (List.length_map _).symm
  masked := by
    rw [fullMask, List.zipWith_map_right, List.zipWith_self]
    exact (List.map_congr_left fun _ _ => UInt8.and_neg_one).trans (List.map_id bs)
  same := iff_true_intro rfl

theorem flags (o : FlagOwner) (bits : UInt16) :
    Clears (Write.u16 bits) (Write.u16 o.assigned) (Write.u16 (o.keep bits)) (o.Owns bits) where
  length := rfl
  masked := by
    unfold FlagOwner.keep Write.u16
    rw [UInt16.shiftRight_and, UInt16.toUInt8_and, UInt16.toUInt8_and]
    rfl
  same := by
    refine Iff.trans ⟨fun h => ?_, fun h => by rw [h]⟩ (o.keep_eq bits)
    have hread := Reads.u16 (o.keep bits) []
    rw [h, Reads.u16 bits []] at hread
    exact (congrArg Prod.fst (Except.ok.inj hread)).symm

theorem member (o : FlagOwner) (m : RawMember) :
    Clears m.write ((m.kept o).mask o) (m.kept o).write (o.Owns m.flags) := by
  have h := (flags o m.flags).append (nothing (Write.u16 m.name ++ Write.u16 m.descriptor ++
    Write.counted Attribute.write m.attributes))
  simpa only [RawMember.write, RawMember.mask, RawMember.kept, List.append_assoc, and_true] using h

theorem members (o : FlagOwner) (ms : List RawMember) :
    Clears (Write.counted RawMember.write ms) (RawMember.maskAll o (ms.map (RawMember.kept o)))
      (Write.counted RawMember.write (ms.map (RawMember.kept o))) (∀ m ∈ ms, o.Owns m.flags) := by
  have hall : Clears (ms.flatMap RawMember.write) ((ms.map (RawMember.kept o)).flatMap (RawMember.mask o))
      ((ms.map (RawMember.kept o)).flatMap RawMember.write) (∀ m ∈ ms, o.Owns m.flags) := by
    induction ms with
    | nil => exact ⟨rfl, rfl, iff_of_true rfl (List.forall_mem_nil _)⟩
    | cons m ms ih =>
      rw [List.forall_mem_cons]
      exact (member o m).append ih
  have h := (nothing (Write.u16 ms.length.toUInt16)).append hall
  simpa only [Write.counted, RawMember.maskAll, List.length_map, true_and] using h

theorem content (c : ClassContent) : Clears c.write c.kept.mask c.kept.write c.Assigned := by
  have h := ((((flags .ofClass c.flags).append (nothing (Write.u16 c.thisClass ++ Write.u16 c.superClass ++
    Write.counted Write.u16 c.interfaces))).append (members .ofField c.fields)).append
      (members .ofMethod c.methods)).append (nothing (Write.counted Attribute.write c.attributes))
  have hiff : (((FlagOwner.ofClass.Owns c.flags ∧ True) ∧ ∀ m ∈ c.fields, FlagOwner.ofField.Owns m.flags) ∧
      ∀ m ∈ c.methods, FlagOwner.ofMethod.Owns m.flags) ∧ True ↔ c.Assigned :=
    ⟨fun ⟨⟨⟨⟨hc, _⟩, hf⟩, hm⟩, _⟩ => ⟨hc, hf, hm⟩, fun ⟨hc, hf, hm⟩ => ⟨⟨⟨⟨hc, trivial⟩, hf⟩, hm⟩, trivial⟩⟩
  rw [hiff] at h
  simpa only [ClassContent.write, ClassContent.mask, ClassContent.kept, List.append_assoc] using h

end Clears

theorem Version.takes : Takes Version.read fun bs v => bs = v.write :=
  Takes.u16.bind fun _ minor h => Takes.u16.map fun _ major h' => by rw [h, h']; rfl

namespace ClassFile

variable {f : ClassFile} {b : Bytes}

/-- Only flags are read otherwise than they were written. -/
theorem parse_bytes (h : ClassFile.parse b = .ok f) : ∃ c : ClassContent,
    b = Write.u32 magic ++ f.version.write ++ f.pool.write ++ c.write ∧ c.kept = f.toClassContent := by
  obtain ⟨-, s₁, s₂, s₃, hmagic, hversion, hpool, hcontent⟩ := parse_stages h
  obtain ⟨_, rfl, rfl⟩ := Version.takes s₁ _ s₂ hversion
  obtain ⟨_, rfl, c, rfl, hc⟩ := ClassContent.takes s₃ _ [] hcontent
  refine ⟨c, ?_, hc⟩
  rw [u32_ok hmagic, Pool.read_bytes hpool]
  simp only [List.append_assoc, List.append_nil]

/-- A class file is written as it was read, but for flags that are not assigned to a class, a field or a
method. These are cleared, so that the bytes are the same just if none was set. -/
theorem write_parsed (h : ClassFile.parse b = .ok f) :
    f.write.length = b.length ∧ f.write = List.zipWith (· &&& ·) b f.mask ∧ ∃ c : ClassContent,
      b = Write.u32 magic ++ f.version.write ++ f.pool.write ++ c.write ∧ c.kept = f.toClassContent ∧
      (f.write = b ↔ c.Assigned) := by
  obtain ⟨c, rfl, hc⟩ := parse_bytes h
  have hclears := (Clears.nothing (Write.u32 magic ++ f.version.write ++ f.pool.write)).append
    (Clears.content c)
  rw [hc, true_and] at hclears
  exact ⟨hclears.after_length, hclears.masked.symm, c, rfl, hc, hclears.same⟩

end ClassFile

namespace Unassigned

/-- A class with an interface, a wide constant, a field, and a method with an attribute. A flag is set on the
class, on the field and on the method that is assigned elsewhere. -/
def source : Bytes := [0xCA, 0xFE, 0xBA, 0xBE, 0, 3, 0, 61, 0, 6, 1, 0, 1, 65, 7, 0, 1, 5, 0, 0, 0, 0, 0, 0, 0, 9,
  1, 0, 1, 73, 0, 0x23, 0, 2, 0, 0, 0, 1, 0, 2, 0, 1, 0x80, 0x01, 0, 1, 0, 5, 0, 0,
  0, 1, 0x02, 0x01, 0, 1, 0, 5, 0, 1, 0, 1, 0, 0, 0, 2, 7, 8, 0, 0]

/-- The bytes without these flags. -/
def cleared : Bytes := [0xCA, 0xFE, 0xBA, 0xBE, 0, 3, 0, 61, 0, 6, 1, 0, 1, 65, 7, 0, 1, 5, 0, 0, 0, 0, 0, 0, 0, 9,
  1, 0, 1, 73, 0, 0x21, 0, 2, 0, 0, 0, 1, 0, 2, 0, 1, 0x00, 0x01, 0, 1, 0, 5, 0, 0,
  0, 1, 0x00, 0x01, 0, 1, 0, 5, 0, 1, 0, 1, 0, 0, 0, 2, 7, 8, 0, 0]

theorem mask_found : ∃ f, ClassFile.parse source = .ok f ∧ List.zipWith (· &&& ·) source f.mask = cleared := by
  have h : (ClassFile.parse source).toOption.any fun f =>
      decide (List.zipWith (· &&& ·) source f.mask = cleared) := by decide +kernel
  obtain ⟨f, hf, hmask⟩ := toOption_any.mp h
  exact ⟨f, hf, of_decide_eq_true hmask⟩

end Unassigned

open Unassigned in
/-- The flags go when the class is written, and nothing else changes. -/
theorem Unassigned.dropped : ∃ f, ClassFile.parse source = .ok f ∧ f.write = cleared ∧ cleared ≠ source ∧
    ∃ c : ClassContent, c.kept = f.toClassContent ∧ ¬c.Assigned := by
  obtain ⟨f, hf, hmask⟩ := mask_found
  obtain ⟨-, hwrite, c, -, hc, hsame⟩ := ClassFile.write_parsed hf
  have hcleared := hwrite.trans hmask
  have hne : cleared ≠ source := by decide
  exact ⟨f, hf, hcleared, hne, c, hc, fun h => hne (hcleared.symm.trans (hsame.mpr h))⟩

end ClassGraft
