import ClassGraft.Proofs.ByteReading

namespace ClassGraft

open Reader

namespace StackMapFrame

/-- The types in an entry. -/
def types : StackMapFrame → List RawType
  | .same _ | .chop _ _ => []
  | .sameOne _ item => [item]
  | .append _ locals => locals
  | .full _ locals stack => locals ++ stack

/-- Can an entry be written? Its lists have to be as long as its tag or its counts can say. -/
def Fits : StackMapFrame → Prop
  | .same _ | .sameOne _ _ => True
  | .chop _ count => count = 1 ∨ count = 2 ∨ count = 3
  | .append _ locals => 0 < locals.length ∧ locals.length < 4
  | .full _ locals stack => locals.length ≤ 65535 ∧ stack.length ≤ 65535

end StackMapFrame

theorem UInt16.toUInt8_small {d : UInt16} (h : d ≤ 63) :
    d.toUInt8.toUInt16 = d ∧ d.toUInt8 ≤ 63 := by
  have hd : d.toNat ≤ 63 := UInt16.le_iff_toNat_le.mp h
  constructor
  · apply UInt16.toNat_inj.mp
    rw [UInt8.toNat_toUInt16, UInt16.toNat_toUInt8]
    omega
  · apply UInt8.le_iff_toNat_le.mpr
    rw [UInt16.toNat_toUInt8]
    have h63 : (63 : UInt8).toNat = 63 := rfl
    omega

theorem UInt16.toUInt8_shifted {d : UInt16} (h : d ≤ 63) :
    (d.toUInt8 + 64).toUInt16 - 64 = d ∧ ¬ d.toUInt8 + 64 ≤ 63 ∧ d.toUInt8 + 64 ≤ 127 := by
  have hd : d.toNat ≤ 63 := UInt16.le_iff_toNat_le.mp h
  have h64 : (64 : UInt8).toNat = 64 := rfl
  have hsum : (d.toUInt8 + 64).toNat = d.toNat + 64 := by
    rw [UInt8.toNat_add, UInt16.toNat_toUInt8, h64]
    omega
  refine ⟨?_, fun hle => ?_, ?_⟩
  · apply UInt16.toNat_inj.mp
    have h64' : (64 : UInt16).toNat = 64 := rfl
    rw [UInt16.toNat_sub_of_le _ _ (UInt16.le_iff_toNat_le.mpr _), UInt8.toNat_toUInt16, hsum, h64']
    · omega
    · rw [UInt8.toNat_toUInt16, hsum, h64']
      omega
  · have := UInt8.le_iff_toNat_le.mp hle
    have h63 : (63 : UInt8).toNat = 63 := rfl
    omega
  · apply UInt8.le_iff_toNat_le.mpr
    have h127 : (127 : UInt8).toNat = 127 := rfl
    omega

namespace Reader.Reads

theorem rawType (t : RawType) : Reads RawType.read t.write t := by
  cases t with
  | object c => exact (u8 7).bind ((u16 c).map _)
  | uninitialized o => exact (u8 8).bind ((u16 o).map _)
  | top | integer | float | double | long | null | uninitializedThis =>
    exact (u8 _).bind (pure _)

theorem rawTypes (ts : List RawType) :
    Reads (Reader.times ts.length RawType.read) (ts.flatMap RawType.write) ts :=
  times ts fun t _ => rawType t

/-- An entry behind its tag. -/
theorem tagged {tag : UInt8} {bs : Bytes} {e : StackMapFrame}
    (h : Reads (StackMapFrame.readBody tag) bs e) : Reads StackMapFrame.read (tag :: bs) e :=
  (u8 tag).bind h

theorem same (d : UInt16) : Reads StackMapFrame.read (StackMapFrame.same d).write (.same d) := by
  rw [StackMapFrame.write]
  split
  next h =>
    obtain ⟨hback, hle⟩ := UInt16.toUInt8_small h
    refine tagged ?_
    rw [StackMapFrame.readBody, if_pos hle, hback]
    exact pure _
  next =>
    have h : StackMapFrame.readBody 251 = (do return .same (← Reader.u16)) := rfl
    exact tagged (h ▸ (u16 d).map _)

theorem sameOne (d : UInt16) (t : RawType) :
    Reads StackMapFrame.read (StackMapFrame.sameOne d t).write (.sameOne d t) := by
  rw [StackMapFrame.write]
  split
  next h =>
    obtain ⟨hback, hlow, hhigh⟩ := UInt16.toUInt8_shifted h
    refine tagged ?_
    rw [StackMapFrame.readBody, if_neg hlow, if_pos hhigh, hback]
    exact (rawType t).map _
  next =>
    have h : StackMapFrame.readBody 247 =
        (do return .sameOne (← Reader.u16) (← RawType.read)) := rfl
    exact tagged (h ▸ (u16 d).bind ((rawType t).map _))

theorem chop (d : UInt16) {count : UInt8} (h : count = 1 ∨ count = 2 ∨ count = 3) :
    Reads StackMapFrame.read (StackMapFrame.chop d count).write (.chop d count) := by
  have hbody : StackMapFrame.readBody (251 - count) =
      (do return .chop (← Reader.u16) count) := by
    rcases h with rfl | rfl | rfl <;> rfl
  exact tagged (hbody ▸ (u16 d).map _)

theorem append (d : UInt16) {ts : List RawType} (h : 0 < ts.length ∧ ts.length < 4) :
    Reads StackMapFrame.read (StackMapFrame.append d ts).write (.append d ts) := by
  have hbody : StackMapFrame.readBody (251 + ts.length.toUInt8) =
      (do return .append (← Reader.u16) (← Reader.times ts.length RawType.read)) := by
    obtain h1 | h2 | h3 : ts.length = 1 ∨ ts.length = 2 ∨ ts.length = 3 := by omega
    · rw [h1]; rfl
    · rw [h2]; rfl
    · rw [h3]; rfl
  exact tagged (hbody ▸ (u16 d).bind ((rawTypes ts).map _))

theorem full (d : UInt16) {ls ss : List RawType} (hl : ls.length ≤ 65535) (hs : ss.length ≤ 65535) :
    Reads StackMapFrame.read (StackMapFrame.full d ls ss).write (.full d ls ss) := by
  have hbody : StackMapFrame.readBody 255 = (do
    return .full (← Reader.u16) (← Reader.counted RawType.read) (← Reader.counted RawType.read)) := rfl
  simp only [StackMapFrame.write, List.cons_append, List.append_assoc]
  exact tagged (hbody ▸ (u16 d).bind ((counted ls (fun t _ => rawType t) hl).bind
    ((counted ss (fun t _ => rawType t) hs).map _)))

theorem stackMapFrame {e : StackMapFrame} (h : e.Fits) : Reads StackMapFrame.read e.write e := by
  cases e with
  | same d => exact same d
  | sameOne d t => exact sameOne d t
  | chop d count => exact chop d h
  | append d ts => exact append d h
  | full d ls ss => exact full d h.1 h.2

end Reader.Reads

end ClassGraft
