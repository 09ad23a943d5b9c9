import ClassGraft.Proofs.CheckedSteps
import ClassGraft.Proofs.ClassBytes

namespace ClassGraft

open Reader

theorem ExceptionEntry.takes : Takes ExceptionEntry.read fun bs e => bs = e.write :=
  Takes.u16.bind fun _ start h₁ => Takes.u16.bind fun _ stop h₂ => Takes.u16.bind fun _ handler h₃ =>
    Takes.u16.map fun _ c h₄ => by rw [h₁, h₂, h₃, h₄]; simp [ExceptionEntry.write]

theorem LineEntry.takes : Takes LineEntry.read fun bs e => bs = e.write :=
  Takes.u16.bind fun _ start h₁ => Takes.u16.map fun _ line h₂ => by rw [h₁, h₂, LineEntry.write]

theorem LocalEntry.takes : Takes LocalEntry.read fun bs e => bs = e.write :=
  Takes.u16.bind fun _ start h₁ => Takes.u16.bind fun _ length h₂ => Takes.u16.bind fun _ name h₃ =>
    Takes.u16.bind fun _ descriptor h₄ => Takes.u16.map fun _ index h₅ => by
      rw [h₁, h₂, h₃, h₄, h₅]
      simp [LocalEntry.write]

namespace CodeAttribute

/-- The code has a length in four bytes, and each list has one in two. -/
structure Fits (c : CodeAttribute) : Prop where
  code : c.code.length ≤ 4294967295
  exceptions : c.exceptions.length ≤ 65535
  attributes : AttributesFit c.attributes

theorem takes : Takes CodeAttribute.read fun bs c => bs = c.write ∧ c.Fits :=
  Takes.u16.bind fun _ maxStack h₁ => Takes.u16.bind fun _ maxLocals h₂ =>
    Takes.sized.bind fun _ code ⟨h₃, hcode⟩ =>
      ExceptionEntry.takes.always.countedAs.bind fun _ exceptions ⟨h₄, hexceptions, _⟩ =>
        AttributesFit.takes.map fun _ attributes ⟨h₅, hattributes⟩ =>
          ⟨by rw [h₁, h₂, h₃, h₄, h₅]; simp [CodeAttribute.write], hcode, hexceptions, hattributes⟩

theorem Fits.reads_write {c : CodeAttribute} (h : c.Fits) : Reads CodeAttribute.read c.write c := by
  have hexception (e : ExceptionEntry) : Reads ExceptionEntry.read e.write e := by
    unfold ExceptionEntry.write
    simp only [List.append_assoc]
    exact (Reads.u16 e.start).bind ((Reads.u16 e.stop).bind ((Reads.u16 e.handler).bind
      ((Reads.u16 e.catchIndex).map _)))
  unfold CodeAttribute.write
  simp only [List.append_assoc]
  exact (Reads.u16 c.maxStack).bind ((Reads.u16 c.maxLocals).bind ((Reads.sized c.code h.code).bind
    ((Reads.counted c.exceptions (fun e _ => hexception e) h.exceptions).bind
      (h.attributes.reads_write.map _))))

end CodeAttribute

theorem RawType.takes : Takes RawType.read fun bs t => bs = t.write := by
  refine Takes.u8.bind fun _ tag htag => ?_
  subst htag
  unfold RawType.readBody
  split
  case h_8 => exact Takes.u16.map fun _ c hc => by rw [hc]; rfl
  case h_9 => exact Takes.u16.map fun _ o ho => by rw [ho]; rfl
  case h_10 => exact .fail _
  all_goals exact .pure rfl

namespace StackMapFrame

/-- The operands that lie in a tag are in their ranges. -/
theorem tag_ranges : ∀ tag : UInt8, (tag ≤ 63 → tag.toUInt16 ≤ 63) ∧
    (¬tag ≤ 63 → tag ≤ 127 → tag.toUInt16 - 64 ≤ 63) ∧
    (¬tag < 247 → tag ≠ 247 → tag ≤ 250 → 251 - tag = 1 ∨ 251 - tag = 2 ∨ 251 - tag = 3) ∧
    (¬tag ≤ 250 → tag ≠ 251 → tag ≤ 254 → 0 < tag.toNat - 251 ∧ tag.toNat - 251 < 4) := by
  apply ModifiedText.forall_byte
  decide +kernel

theorem write_same_le (d : UInt16) : (same d).write.length ≤ 3 := by
  rw [write]
  split <;> simp [Write.u16]

theorem write_sameOne_le (d : UInt16) (t : RawType) :
    (sameOne d t).write.length ≤ 3 + t.write.length := by
  rw [write, List.length_append]
  refine Nat.add_le_add_right ?_ _
  split <;> simp [Write.u16]

/-- An entry can be written, and is not written longer than it was read. -/
theorem readBody_takes (tag : UInt8) : Takes (readBody tag) fun bs e =>
    e.Fits ∧ e.write.length ≤ (tag :: bs).length := by
  obtain ⟨hsame, hone, hchop, happend⟩ := tag_ranges tag
  refine .ite (fun h => .pure ⟨trivial, ?_⟩) fun h63 => .ite (fun h => ?_) fun _ =>
    .ite (fun _ => .fail _) fun h247 => .ite (fun _ => ?_) fun hne => .ite (fun h => ?_) fun h250 =>
    .ite (fun _ => ?_) fun hne' => .ite (fun h => ?_) fun _ => ?_
  · simp [write, hsame h]
  · exact RawType.takes.map fun bs t ht => ⟨trivial, by simp [write, hone h63 h, ht]⟩
  · refine Takes.u16.bind fun _ d hd => RawType.takes.map fun _ t ht => ⟨trivial, ?_⟩
    have := write_sameOne_le d t
    simp only [hd, ht, Write.u16, List.length_cons, List.length_append, List.length_nil]
    omega
  · exact Takes.u16.map fun _ d hd => ⟨hchop h247 hne h, by simp [write, hd]⟩
  · refine Takes.u16.map fun _ d hd => ⟨trivial, ?_⟩
    have := write_same_le d
    simp only [hd, Write.u16, List.length_cons, List.length_nil]
    omega
  · refine Takes.u16.bind fun _ d hd => (RawType.takes.always.timesAs _).map fun _ ts hlist => ?_
    obtain ⟨hlen, hts, -⟩ := hlist
    have hcount := happend h250 hne' h
    rw [← hlen] at hcount
    exact ⟨hcount, by simp [write, hd, hts]⟩
  · refine Takes.u16.bind fun _ d hd => RawType.takes.always.countedAs.bind fun _ ls hlocals =>
      RawType.takes.always.countedAs.map fun _ ss hstack => ?_
    obtain ⟨hls, hl, -⟩ := hlocals
    obtain ⟨hss, hs, -⟩ := hstack
    exact ⟨⟨hl, hs⟩, by simp [write, hd, hls, hss]⟩

theorem takes : Takes StackMapFrame.read fun bs e => e.Fits ∧ e.write.length ≤ bs.length :=
  Takes.u8.bind fun _ tag htag => by
    subst htag
    exact readBody_takes tag

/-- A table is not written longer than it was read. -/
theorem takes_counted : Takes (counted StackMapFrame.read) fun bs es =>
    (es.length ≤ 65535 ∧ ∀ e ∈ es, e.Fits) ∧
      (Write.counted StackMapFrame.write es).length ≤ bs.length := by
  have hrow (n : Nat) : Takes (times n StackMapFrame.read) fun bs es => es.length = n ∧
      (∀ e ∈ es, e.Fits) ∧ (es.flatMap StackMapFrame.write).length ≤ bs.length := by
    intro s es rest h
    obtain ⟨_, hs, pieces, rfl, hlen, hall⟩ := takes.times n s es rest h
    refine ⟨_, hs, hlen, ?_⟩
    clear h hs hlen
    induction hall with
    | nil => exact ⟨List.forall_mem_nil _, Nat.le_refl _⟩
    | @cons bs e pieces es he _ ih =>
      refine ⟨List.forall_mem_cons.mpr ⟨he.1, ih.1⟩, ?_⟩
      rw [List.flatMap_cons, List.flatten_cons, List.length_append, List.length_append]
      exact Nat.add_le_add he.2 ih.2
  intro s es rest h
  obtain ⟨_, hs, cs, rfl, hlen, hfits, hle⟩ := Takes.counted hrow s es rest h
  refine ⟨_, hs, ⟨hlen, hfits⟩, ?_⟩
  rw [Write.counted, List.length_append, List.length_append]
  exact Nat.add_le_add_left hle _

end StackMapFrame

namespace AttributeKind

/-- Each list has a length in two bytes, and all that has one in four fits it. -/
def Fits : (k : AttributeKind) → k.Content → Prop
  | .code, c => c.Fits
  | .stackMapTable, es => es.length ≤ 65535 ∧ ∀ e ∈ es, e.Fits
  | .lineNumberTable, ls => ls.length ≤ 65535
  | .localVariableTable, vs | .localVariableTypeTable, vs => vs.length ≤ 65535

theorem Fits.reads_write {k : AttributeKind} {content : k.Content} (h : k.Fits content) :
    Reads k.read (k.write content) content := by
  cases k with
  | code => exact CodeAttribute.Fits.reads_write h
  | stackMapTable => exact .counted content (fun e he => .stackMapFrame (h.2 e he)) h.1
  | lineNumberTable => exact .counted content (fun e _ => .lineEntry e) h
  | localVariableTable | localVariableTypeTable => exact .counted content (fun e _ => .localEntry e) h

theorem takes (k : AttributeKind) : Takes k.read fun bs content => k.Fits content ∧
    (k.write content).length ≤ bs.length ∧ (k ≠ .stackMapTable → bs = k.write content) := by
  intro s content rest h
  cases k with
  | code =>
    obtain ⟨_, hs, rfl, hfits⟩ := CodeAttribute.takes s content rest h
    exact ⟨_, hs, hfits, Nat.le_refl _, fun _ => rfl⟩
  | stackMapTable =>
    obtain ⟨bs, hs, hfits, hle⟩ := StackMapFrame.takes_counted s content rest h
    exact ⟨bs, hs, hfits, hle, fun hne => absurd rfl hne⟩
  | lineNumberTable =>
    obtain ⟨_, hs, rfl, hlen, -⟩ := LineEntry.takes.always.countedAs s content rest h
    exact ⟨_, hs, hlen, Nat.le_refl _, fun _ => rfl⟩
  | localVariableTable | localVariableTypeTable =>
    obtain ⟨_, hs, rfl, hlen, -⟩ := LocalEntry.takes.always.countedAs s content rest h
    exact ⟨_, hs, hlen, Nat.le_refl _, fun _ => rfl⟩

end AttributeKind

namespace Attribute

theorem decode_iff {a : Attribute} {k : AttributeKind} {content : k.Content} :
    a.decode k = .ok content ↔ k.read a.info = .ok (content, []) := by
  unfold decode
  split
  next he => simp [he]
  next hr => simp [hr]
  next hr => simp [hr]

/-- What an attribute of a known kind holds is read back from what it is written as. What is decoded can be
written, takes no more bytes than before, and takes the same ones unless it is a stack map table. -/
theorem decode_restores (k : AttributeKind) (i : PoolIndex) :
    (∀ content, k.Fits content → (⟨i, k.write content⟩ : Attribute).decode k = .ok content) ∧
    (∀ info content, (⟨i, info⟩ : Attribute).decode k = .ok content → k.Fits content ∧
      (k.write content).length ≤ info.length ∧
      (⟨i, k.write content⟩ : Attribute).decode k = .ok content ∧
      (k ≠ .stackMapTable → k.write content = info)) ∧
    ∀ e : StackMapFrame, e.Fits → e.writeChecked = .ok e.write := by
  refine ⟨fun content h => decode_ok h.reads_write, fun info content h => ?_, fun e h => ?_⟩
  · obtain ⟨bs, hbs, hfits, hle, hsame⟩ := k.takes _ _ _ (decode_iff.mp h)
    obtain rfl : info = bs := by rw [← List.append_nil bs, ← hbs]
    exact ⟨hfits, hle, decode_ok hfits.reads_write, fun hne => (hsame hne).symm⟩
  · refine e.writeChecked_ok ?_
    cases e with
    | chop d count => rcases h with rfl | rfl | rfl <;> exact ⟨by decide, by decide⟩
    | append d locals => exact h
    | same d | sameOne d item | full d locals stack => trivial

/-- Entries on both sides of each bound, and a table that spells two short differences in the long form. -/
theorem decode_restores_bounds :
    let entries : List StackMapFrame := [.same 63, .same 64, .sameOne 63 .null, .sameOne 64 (.object 9),
      .chop 0 3, .chop 7 1, .append 1 [.long], .append 2 [.top, .top, .uninitialized 5],
      .full 65535 [.integer] [.double]]
    let wordy : Bytes := [0, 2, 251, 0, 5, 247, 0, 63, 1]
    AttributeKind.stackMapTable.Fits entries ∧
    (⟨7, AttributeKind.stackMapTable.write entries⟩ : Attribute).decode .stackMapTable = .ok entries ∧
    (⟨7, wordy⟩ : Attribute).decode .stackMapTable = .ok [.same 5, .sameOne 63 .integer] ∧
    (AttributeKind.stackMapTable.write [.same 5, .sameOne 63 .integer]).length ≤ wordy.length ∧
    (⟨7, [0, 1, 0, 3, 0, 12]⟩ : Attribute).decode .lineNumberTable = .ok [⟨3, 12⟩] ∧
    AttributeKind.lineNumberTable.write [⟨3, 12⟩] = [0, 1, 0, 3, 0, 12] ∧
    (StackMapFrame.chop 0 3).writeChecked = .ok [248, 0, 0] := by
  intro entries wordy
  have hfits : AttributeKind.stackMapTable.Fits entries := by
    refine ⟨by decide, ?_⟩
    simp [entries, StackMapFrame.Fits]
  have hwordy : (⟨7, wordy⟩ : Attribute).decode .stackMapTable = .ok [.same 5, .sameOne 63 .integer] := rfl
  have hlines : (⟨7, [0, 1, 0, 3, 0, 12]⟩ : Attribute).decode .lineNumberTable = .ok [⟨3, 12⟩] := rfl
  obtain ⟨hback, hread, hchecked⟩ := decode_restores .stackMapTable 7
  obtain ⟨-, hsame, -⟩ := decode_restores .lineNumberTable 7
  exact ⟨hfits, hback entries hfits, hwordy, (hread wordy _ hwordy).2.1, hlines,
    (hsame _ _ hlines).2.2.2 (by decide), hchecked (.chop 0 3) (.inr (.inr rfl))⟩

end Attribute

end ClassGraft
