import ClassGraft.Attribute

namespace ClassGraft

theorem UInt16.join_bytes (v : UInt16) :
    (v >>> 8).toUInt8.toUInt16 <<< 8 ||| v.toUInt8.toUInt16 = v := by
  apply UInt16.toNat_inj.mp
  have h := v.toNat_lt
  have e : (8 : UInt16).toNat % 16 = 8 := rfl
  simp only [UInt16.toNat_or, UInt16.toNat_shiftLeft, UInt8.toNat_toUInt16, UInt16.toNat_toUInt8,
    UInt16.toNat_shiftRight, e, Nat.shiftRight_eq_div_pow, Nat.shiftLeft_eq]
  have hj := Nat.two_pow_add_eq_or_of_lt (i := 8) (b := v.toNat % 2 ^ 8) (by omega)
    (v.toNat / 2 ^ 8 % 2 ^ 8)
  rw [Nat.mod_eq_of_lt (a := v.toNat / 2 ^ 8 % 2 ^ 8 * 2 ^ 8) (by omega), Nat.mul_comm, ← hj]
  omega

theorem UInt16.split_bytes (hi lo : UInt8) :
    ((hi.toUInt16 <<< 8 ||| lo.toUInt16) >>> 8).toUInt8 = hi ∧
      (hi.toUInt16 <<< 8 ||| lo.toUInt16).toUInt8 = lo := by
  have hhi := hi.toNat_lt
  have hlo := lo.toNat_lt
  have e : (8 : UInt16).toNat % 16 = 8 := rfl
  have hjoin : (hi.toUInt16 <<< 8 ||| lo.toUInt16).toNat = 2 ^ 8 * hi.toNat + lo.toNat := by
    simp only [UInt16.toNat_or, UInt16.toNat_shiftLeft, UInt8.toNat_toUInt16, e, Nat.shiftLeft_eq]
    rw [Nat.mod_eq_of_lt (a := hi.toNat * 2 ^ 8) (by omega), Nat.mul_comm]
    exact (Nat.two_pow_add_eq_or_of_lt hlo hi.toNat).symm
  constructor
  · apply UInt8.toNat_inj.mp
    simp only [UInt16.toNat_toUInt8, UInt16.toNat_shiftRight, e, hjoin, Nat.shiftRight_eq_div_pow]
    omega
  · apply UInt8.toNat_inj.mp
    simp only [UInt16.toNat_toUInt8, hjoin]
    omega

theorem UInt16.toUInt8_toUInt16 {v : UInt16} (h : v < 256) : v.toUInt8.toUInt16 = v := by
  apply UInt16.toNat_inj.mp
  have hn : v.toNat < 256 := h
  rw [UInt8.toNat_toUInt16, UInt16.toNat_toUInt8]
  omega

theorem UInt32.join_halves (v : UInt32) :
    (v >>> 16).toUInt16.toUInt32 <<< 16 ||| v.toUInt16.toUInt32 = v := by
  apply UInt32.toNat_inj.mp
  have h := v.toNat_lt
  have e : (16 : UInt32).toNat % 32 = 16 := rfl
  simp only [UInt32.toNat_or, UInt32.toNat_shiftLeft, UInt16.toNat_toUInt32, UInt32.toNat_toUInt16,
    UInt32.toNat_shiftRight, e, Nat.shiftRight_eq_div_pow, Nat.shiftLeft_eq]
  have hj := Nat.two_pow_add_eq_or_of_lt (i := 16) (b := v.toNat % 2 ^ 16) (by omega)
    (v.toNat / 2 ^ 16 % 2 ^ 16)
  rw [Nat.mod_eq_of_lt (a := v.toNat / 2 ^ 16 % 2 ^ 16 * 2 ^ 16) (by omega), Nat.mul_comm, ← hj]
  omega

theorem UInt64.join_halves (v : UInt64) :
    (v >>> 32).toUInt32.toUInt64 <<< 32 ||| v.toUInt32.toUInt64 = v := by
  apply UInt64.toNat_inj.mp
  have h := v.toNat_lt
  have e : (32 : UInt64).toNat % 64 = 32 := rfl
  simp only [UInt64.toNat_or, UInt64.toNat_shiftLeft, UInt32.toNat_toUInt64, UInt64.toNat_toUInt32,
    UInt64.toNat_shiftRight, e, Nat.shiftRight_eq_div_pow, Nat.shiftLeft_eq]
  have hj := Nat.two_pow_add_eq_or_of_lt (i := 32) (b := v.toNat % 2 ^ 32) (by omega)
    (v.toNat / 2 ^ 32 % 2 ^ 32)
  rw [Nat.mod_eq_of_lt (a := v.toNat / 2 ^ 32 % 2 ^ 32 * 2 ^ 32) (by omega), Nat.mul_comm, ← hj]
  omega

theorem UInt32.split_halves (hi lo : UInt16) :
    ((hi.toUInt32 <<< 16 ||| lo.toUInt32) >>> 16).toUInt16 = hi ∧
      (hi.toUInt32 <<< 16 ||| lo.toUInt32).toUInt16 = lo := by
  have hhi := hi.toNat_lt
  have hlo := lo.toNat_lt
  have e : (16 : UInt32).toNat % 32 = 16 := rfl
  have hjoin : (hi.toUInt32 <<< 16 ||| lo.toUInt32).toNat = 2 ^ 16 * hi.toNat + lo.toNat := by
    simp only [UInt32.toNat_or, UInt32.toNat_shiftLeft, UInt16.toNat_toUInt32, e, Nat.shiftLeft_eq]
    rw [Nat.mod_eq_of_lt (a := hi.toNat * 2 ^ 16) (by omega), Nat.mul_comm]
    exact (Nat.two_pow_add_eq_or_of_lt hlo hi.toNat).symm
  constructor
  · apply UInt16.toNat_inj.mp
    simp only [UInt32.toNat_toUInt16, UInt32.toNat_shiftRight, e, hjoin, Nat.shiftRight_eq_div_pow]
    omega
  · apply UInt16.toNat_inj.mp
    simp only [UInt32.toNat_toUInt16, hjoin]
    omega

theorem UInt64.split_halves (hi lo : UInt32) :
    ((hi.toUInt64 <<< 32 ||| lo.toUInt64) >>> 32).toUInt32 = hi ∧
      (hi.toUInt64 <<< 32 ||| lo.toUInt64).toUInt32 = lo := by
  have hhi := hi.toNat_lt
  have hlo := lo.toNat_lt
  have e : (32 : UInt64).toNat % 64 = 32 := rfl
  have hjoin : (hi.toUInt64 <<< 32 ||| lo.toUInt64).toNat = 2 ^ 32 * hi.toNat + lo.toNat := by
    simp only [UInt64.toNat_or, UInt64.toNat_shiftLeft, UInt32.toNat_toUInt64, e, Nat.shiftLeft_eq]
    rw [Nat.mod_eq_of_lt (a := hi.toNat * 2 ^ 32) (by omega), Nat.mul_comm]
    exact (Nat.two_pow_add_eq_or_of_lt hlo hi.toNat).symm
  constructor
  · apply UInt32.toNat_inj.mp
    simp only [UInt64.toNat_toUInt32, UInt64.toNat_shiftRight, e, hjoin, Nat.shiftRight_eq_div_pow]
    omega
  · apply UInt32.toNat_inj.mp
    simp only [UInt64.toNat_toUInt32, hjoin]
    omega

namespace Reader

variable {α β : Type}

/-- The reader takes just these bytes for the value. -/
def Reads (r : Reader α) (bs : Bytes) (a : α) : Prop := ∀ rest, r (bs ++ rest) = .ok (a, rest)

namespace Reads

theorem pure (a : α) : Reads (Pure.pure a : Reader α) [] a := fun _ => rfl

theorem bind {r : Reader α} {f : α → Reader β} {bs cs : Bytes} {a : α} {b : β}
    (hr : Reads r bs a) (hf : Reads (f a) cs b) : Reads (r >>= f) (bs ++ cs) b := by
  intro rest
  have h := hr (cs ++ rest)
  simp only [Bind.bind, StateT.bind, List.append_assoc, h, Except.bind]
  exact hf rest

theorem map {r : Reader α} {bs : Bytes} {a : α} (hr : Reads r bs a) (f : α → β) :
    Reads (do return f (← r)) bs (f a) := by
  have h := bind (f := fun a => Pure.pure (f a)) hr (pure (f a))
  rwa [List.append_nil] at h

theorem u8 (v : UInt8) : Reads Reader.u8 [v] v := fun _ => rfl

theorem u16 (v : UInt16) : Reads Reader.u16 (Write.u16 v) v := by
  have h : Reads Reader.u16 (Write.u16 v)
      ((v >>> 8).toUInt8.toUInt16 <<< 8 ||| v.toUInt8.toUInt16) :=
    (u8 (v >>> 8).toUInt8).bind ((u8 v.toUInt8).map _)
  rwa [UInt16.join_bytes] at h

theorem u32 (v : UInt32) : Reads Reader.u32 (Write.u32 v) v := by
  have h : Reads Reader.u32 (Write.u32 v)
      ((v >>> 16).toUInt16.toUInt32 <<< 16 ||| v.toUInt16.toUInt32) :=
    (u16 (v >>> 16).toUInt16).bind ((u16 v.toUInt16).map _)
  rwa [UInt32.join_halves] at h

theorem u64 (v : UInt64) : Reads Reader.u64 (Write.u64 v) v := by
  have h : Reads Reader.u64 (Write.u64 v)
      ((v >>> 32).toUInt32.toUInt64 <<< 32 ||| v.toUInt32.toUInt64) :=
    (u32 (v >>> 32).toUInt32).bind ((u32 v.toUInt32).map _)
  rwa [UInt64.join_halves] at h

theorem i8 (v : Int8) : Reads Reader.i8 [v.toUInt8] v := (u8 v.toUInt8).map UInt8.toInt8

theorem i16 (v : Int16) : Reads Reader.i16 (Write.i16 v) v := (u16 v.toUInt16).map UInt16.toInt16

theorem i32 (v : Int32) : Reads Reader.i32 (Write.i32 v) v := (u32 v.toUInt32).map UInt32.toInt32

theorem i64 (v : Int64) : Reads Reader.i64 (Write.i64 v) v := (u64 v.toUInt64).map UInt64.toInt64

theorem raw (bs : Bytes) : Reads (Reader.raw bs.length) bs bs := by
  intro rest
  simp [Reader.raw]

/-- Bytes behind their number are read back as long as that fits in four bytes. -/
theorem sized (bs : Bytes) (hl : bs.length ≤ 4294967295) :
    Reads Reader.sized (Write.sized bs) bs := by
  refine (u32 bs.length.toUInt32).bind ?_
  have hn : bs.length.toUInt32.toNat = bs.length := by
    rw [Nat.toUInt32_eq, UInt32.toNat_ofNat']
    omega
  rw [hn]
  exact raw bs

theorem collect {item : Reader β} {write : α → Bytes} {f : α → β} (xs : List α) (acc : List β)
    (h : ∀ a ∈ xs, Reads item (write a) (f a)) :
    Reads (Reader.collect item xs.length acc) (xs.flatMap write) (acc.reverse ++ xs.map f) := by
  intro rest
  induction xs generalizing acc with
  | nil => simp [Reader.collect]
  | cons a xs ih =>
    have ha := h a (List.mem_cons_self ..) (xs.flatMap write ++ rest)
    have hx := ih (f a :: acc) fun b hb => h b (List.mem_cons_of_mem _ hb)
    rw [List.reverse_cons, List.append_assoc, List.singleton_append] at hx
    rw [List.flatMap_cons, List.append_assoc, List.length_cons, Reader.collect, ha, List.map_cons]
    exact hx

theorem times {item : Reader α} {write : α → Bytes} (xs : List α)
    (h : ∀ a ∈ xs, Reads item (write a) a) :
    Reads (Reader.times xs.length item) (xs.flatMap write) xs := by
  have hx := collect (f := id) xs [] h
  rwa [List.map_id] at hx

/-- Each value of a counted list is read as long as their number fits in two bytes. -/
theorem countedMap {item : Reader β} {write : α → Bytes} {f : α → β} (xs : List α)
    (h : ∀ a ∈ xs, Reads item (write a) (f a)) (hl : xs.length ≤ 65535) :
    Reads (Reader.counted item) (Write.counted write xs) (xs.map f) := by
  refine (u16 xs.length.toUInt16).bind ?_
  have hn : xs.length.toUInt16.toNat = xs.length := by
    rw [Nat.toUInt16_eq, UInt16.toNat_ofNat']
    omega
  rw [hn]
  exact collect xs [] h

/-- A counted list is read back. -/
theorem counted {item : Reader α} {write : α → Bytes} (xs : List α)
    (h : ∀ a ∈ xs, Reads item (write a) a) (hl : xs.length ≤ 65535) :
    Reads (Reader.counted item) (Write.counted write xs) xs := by
  have hx := countedMap (f := id) xs h hl
  rwa [List.map_id] at hx

theorem lineEntry (e : LineEntry) : Reads LineEntry.read e.write e :=
  (u16 e.start).bind ((u16 e.line).map _)

theorem localEntry (e : LocalEntry) : Reads LocalEntry.read e.write e := by
  unfold LocalEntry.write
  simp only [List.append_assoc]
  exact (u16 e.start).bind ((u16 e.length).bind ((u16 e.name).bind ((u16 e.descriptor).bind
    ((u16 e.index).map _))))

end Reads

/-- Two bytes that were read are those that are written for their value. -/
theorem u16_ok {s rest : Bytes} {v : UInt16} (h : Reader.u16 s = .ok (v, rest)) :
    s = Write.u16 v ++ rest := by
  match s with
  | [] => cases h
  | [_] => cases h
  | hi :: lo :: s =>
    obtain ⟨hhi, hlo⟩ := UInt16.split_bytes hi lo
    cases h
    rw [Write.u16, hhi, hlo]
    rfl

end Reader

end ClassGraft
