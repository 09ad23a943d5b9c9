import ClassGraft.Proofs.ByteReading
import ClassGraft.Proofs.PoolGrowth
import ClassGraft.Proofs.TextBytes

namespace ClassGraft

namespace Reader

variable {α β : Type}

/-- The reader looks at no byte behind those that it takes. -/
def Exact (r : Reader α) : Prop := ∀ s a rest, r s = .ok (a, rest) →
  ∃ bs, s = bs ++ rest ∧ Reads r bs a

namespace Exact

variable {r : Reader α} {f : α → Reader β}

theorem pure (a : α) : Exact (Pure.pure a : Reader α) := by
  intro s b rest h
  cases h
  exact ⟨[], rfl, .pure a⟩

theorem fail (e : ReadError) : Exact (Reader.fail e : Reader α) := by
  intro s a rest h
  cases h

theorem bind (hr : Exact r) (hf : ∀ a, Exact (f a)) : Exact (r >>= f) := by
  intro s b rest h
  obtain ⟨⟨a, s'⟩, ha, hb⟩ := except_bind_ok.mp h
  obtain ⟨bs, rfl, hbs⟩ := hr s a s' ha
  obtain ⟨cs, rfl, hcs⟩ := hf a s' b rest hb
  exact ⟨bs ++ cs, (List.append_assoc ..).symm, hbs.bind hcs⟩

theorem map {g : α → β} (hr : Exact r) : Exact (do return g (← r)) :=
  hr.bind fun _ => .pure _

theorem u8 : Exact Reader.u8 := by
  intro s a rest h
  cases s with
  | nil => cases h
  | cons b s => cases h; exact ⟨[a], rfl, .u8 a⟩

theorem u16 : Exact Reader.u16 := .bind u8 fun _ => .map u8

theorem u32 : Exact Reader.u32 := .bind u16 fun _ => .map u16

theorem u64 : Exact Reader.u64 := .bind u32 fun _ => .map u32

theorem raw (n : Nat) : Exact (Reader.raw n) := by
  intro s bs rest h
  unfold Reader.raw at h
  dsimp only at h
  split at h
  next hn =>
    cases h
    refine ⟨s.take n, (List.take_append_drop n s).symm, ?_⟩
    have hr := Reads.raw (s.take n)
    rwa [hn] at hr
  next => cases h

end Exact

theorem u32_ok {s rest : Bytes} {v : UInt32} (h : Reader.u32 s = .ok (v, rest)) :
    s = Write.u32 v ++ rest := by
  obtain ⟨⟨hi, s'⟩, hhi, h⟩ := except_bind_ok.mp h
  obtain ⟨⟨lo, s''⟩, hlo, h⟩ := except_bind_ok.mp h
  cases h
  obtain ⟨h₁, h₂⟩ := UInt32.split_halves hi lo
  rw [u16_ok hhi, u16_ok hlo, Write.u32, h₁, h₂, List.append_assoc]

theorem u64_ok {s rest : Bytes} {v : UInt64} (h : Reader.u64 s = .ok (v, rest)) :
    s = Write.u64 v ++ rest := by
  obtain ⟨⟨hi, s'⟩, hhi, h⟩ := except_bind_ok.mp h
  obtain ⟨⟨lo, s''⟩, hlo, h⟩ := except_bind_ok.mp h
  cases h
  obtain ⟨h₁, h₂⟩ := UInt64.split_halves hi lo
  rw [u32_ok hhi, u32_ok hlo, Write.u64, h₁, h₂, List.append_assoc]

end Reader

open Reader

namespace Constant

/-- The encoding of a text has a length in two bytes. -/
def Fits : Constant → Prop
  | .utf8 text => (ModifiedText.encode text).length ≤ 65535
  | _ => True

instance (c : Constant) : Decidable c.Fits := by
  unfold Fits
  split <;> infer_instance

theorem handleKind_exact : Exact HandleKind.read := by
  refine .bind .u8 fun t => ?_
  split
  next => exact .pure _
  next => exact .fail _

theorem readBody_exact (tag : UInt8) : Exact (readBody tag) := by
  unfold readBody
  split
  · exact .bind .u16 fun n => .map (.raw _)
  · exact .map (.map .u32)
  · exact .map .u32
  · exact .map (.map .u64)
  · exact .map .u64
  · exact .map .u16
  · exact .map .u16
  · exact .bind .u16 fun _ => .map .u16
  · exact .bind .u16 fun _ => .map .u16
  · exact .bind .u16 fun _ => .map .u16
  · exact .bind .u16 fun _ => .map .u16
  · exact .bind handleKind_exact fun _ => .map .u16
  · exact .map .u16
  · exact .bind .u16 fun _ => .map .u16
  · exact .bind .u16 fun _ => .map .u16
  · exact .map .u16
  · exact .map .u16
  · exact .fail _

theorem read_exact : Exact Constant.read := .bind .u8 readBody_exact

theorem reads_handleKind (k : HandleKind) : Reads HandleKind.read [k.tag] k := by
  cases k <;> exact (Reads.u8 _).bind (.pure _)

/-- A constant whose text is not too long is read back. -/
theorem reads_write {c : Constant} (hc : c.Fits) : Reads Constant.read c.write c := by
  have one (tag : UInt8) (i : PoolIndex) (f : PoolIndex → Constant)
      (hf : readBody tag = do return f (← Reader.u16)) : Reads Constant.read (tag :: Write.u16 i) (f i) :=
    (Reads.u8 tag).bind (hf ▸ (Reads.u16 i).map f)
  have two (tag : UInt8) (i j : PoolIndex) (f : PoolIndex → PoolIndex → Constant)
      (hf : readBody tag = do return f (← Reader.u16) (← Reader.u16)) :
      Reads Constant.read (tag :: Write.u16 i ++ Write.u16 j) (f i j) :=
    (Reads.u8 tag).bind (hf ▸ (Reads.u16 i).bind ((Reads.u16 j).map (f i)))
  cases c with
  | utf8 text =>
    have hn : (ModifiedText.encode text).length.toUInt16.toNat = (ModifiedText.encode text).length :=
      Pool.toNat_toUInt16 hc
    have ht := (Reads.raw (ModifiedText.encode text)).map fun bs => Constant.utf8 (ModifiedText.decode bs)
    rw [ModifiedText.decode_encode] at ht
    refine (Reads.u8 1).bind ((Reads.u16 _).bind ?_)
    rw [hn]
    exact ht
  | integer n => exact (Reads.u8 3).bind ((Reads.i32 n).map _)
  | float bits => exact (Reads.u8 4).bind ((Reads.u32 bits).map _)
  | long n => exact (Reads.u8 5).bind ((Reads.i64 n).map _)
  | double bits => exact (Reads.u8 6).bind ((Reads.u64 bits).map _)
  | classRef name => exact one 7 name _ rfl
  | string text => exact one 8 text _ rfl
  | fieldRef owner nt => exact two 9 owner nt _ rfl
  | methodRef owner nt isInterface =>
    cases isInterface with
    | false => exact two 10 owner nt (.methodRef · · false) rfl
    | true => exact two 11 owner nt (.methodRef · · true) rfl
  | nameAndType name descriptor => exact two 12 name descriptor _ rfl
  | methodHandle kind member =>
    exact (Reads.u8 15).bind ((reads_handleKind kind).bind ((Reads.u16 member).map _))
  | methodType descriptor => exact one 16 descriptor _ rfl
  | dynamic bootstrap nt => exact two 17 bootstrap nt _ rfl
  | invokeDynamic bootstrap nt => exact two 18 bootstrap nt _ rfl
  | moduleName name => exact one 19 name _ rfl
  | packageName name => exact one 20 name _ rfl

theorem handleKind_ok {s rest : Bytes} {k : HandleKind} (h : HandleKind.read s = .ok (k, rest)) :
    s = k.tag :: rest := by
  obtain ⟨⟨t, s'⟩, ht, hread⟩ := except_bind_ok.mp h
  cases s with
  | nil => cases ht
  | cons b s =>
    cases ht
    cases hk : HandleKind.ofTag? t with
    | none => simp only [hk] at hread; cases hread
    | some k' =>
      simp only [hk] at hread
      cases hread
      unfold HandleKind.ofTag? at hk
      split at hk <;> cases hk <;> rfl

theorem readBody_write {tag : UInt8} {s rest : Bytes} {c : Constant}
    (h : readBody tag s = .ok (c, rest)) (hc : ∀ text, c ≠ .utf8 text) : tag :: s = c.write ++ rest := by
  have one (f : PoolIndex → Constant) (hr : (do return f (← u16) : Reader Constant) s = .ok (c, rest)) :
      ∃ i, s = Write.u16 i ++ rest ∧ c = f i := by
    obtain ⟨⟨i, s₁⟩, hi, hr⟩ := except_bind_ok.mp hr
    cases hr
    exact ⟨i, u16_ok hi, rfl⟩
  have two (f : PoolIndex → PoolIndex → Constant)
      (hr : (do return f (← u16) (← u16) : Reader Constant) s = .ok (c, rest)) :
      ∃ i j, s = Write.u16 i ++ (Write.u16 j ++ rest) ∧ c = f i j := by
    obtain ⟨⟨i, s₁⟩, hi, hr⟩ := except_bind_ok.mp hr
    obtain ⟨⟨j, s₂⟩, hj, hr⟩ := except_bind_ok.mp hr
    cases hr
    exact ⟨i, j, by rw [u16_ok hi, u16_ok hj], rfl⟩
  unfold readBody at h
  split at h
  · obtain ⟨⟨n, s₁⟩, hn, h⟩ := except_bind_ok.mp h
    obtain ⟨⟨bs, s₂⟩, hbs, h⟩ := except_bind_ok.mp h
    cases h
    exact absurd rfl (hc _)
  · obtain ⟨⟨n, s₁⟩, hn, h⟩ := except_bind_ok.mp h
    obtain ⟨⟨v, s₂⟩, hv, hn⟩ := except_bind_ok.mp hn
    cases hn
    cases h
    rw [u32_ok hv]
    simp [write, Write.i32]
  · obtain ⟨⟨v, s₁⟩, hv, h⟩ := except_bind_ok.mp h
    cases h
    rw [u32_ok hv]
    rfl
  · obtain ⟨⟨n, s₁⟩, hn, h⟩ := except_bind_ok.mp h
    obtain ⟨⟨v, s₂⟩, hv, hn⟩ := except_bind_ok.mp hn
    cases hn
    cases h
    rw [u64_ok hv]
    simp [write, Write.i64]
  · obtain ⟨⟨v, s₁⟩, hv, h⟩ := except_bind_ok.mp h
    cases h
    rw [u64_ok hv]
    rfl
  · obtain ⟨i, rfl, rfl⟩ := one _ h; rfl
  · obtain ⟨i, rfl, rfl⟩ := one _ h; rfl
  · obtain ⟨i, j, rfl, rfl⟩ := two _ h; rfl
  · obtain ⟨i, j, rfl, rfl⟩ := two (.methodRef · · false) h; rfl
  · obtain ⟨i, j, rfl, rfl⟩ := two (.methodRef · · true) h; rfl
  · obtain ⟨i, j, rfl, rfl⟩ := two _ h; rfl
  · obtain ⟨⟨k, s₁⟩, hk, h⟩ := except_bind_ok.mp h
    obtain ⟨⟨i, s₂⟩, hi, h⟩ := except_bind_ok.mp h
    cases h
    rw [handleKind_ok hk, u16_ok hi]
    rfl
  · obtain ⟨i, rfl, rfl⟩ := one _ h; rfl
  · obtain ⟨i, j, rfl, rfl⟩ := two _ h; rfl
  · obtain ⟨i, j, rfl, rfl⟩ := two _ h; rfl
  · obtain ⟨i, rfl, rfl⟩ := one _ h; rfl
  · obtain ⟨i, rfl, rfl⟩ := one _ h; rfl
  · cases h

/-- A constant other than a text is encoded in one way only. -/
theorem read_write {s rest : Bytes} {c : Constant} (h : Constant.read s = .ok (c, rest))
    (hc : ∀ text, c ≠ .utf8 text) : s = c.write ++ rest := by
  obtain ⟨⟨tag, s'⟩, htag, hbody⟩ := except_bind_ok.mp h
  cases s with
  | nil => cases htag
  | cons b s =>
    cases htag
    exact readBody_write hbody hc

end Constant

namespace Pool

variable {p q : Pool} {c : Constant}

theorem readEntries_exact (count : Nat) (p : Pool) : Exact (readEntries count p) := by
  intro s q rest h
  fun_induction readEntries count p s with
  | case1 => cases h
  | case2 p s hlt c rest' hc ih =>
    obtain ⟨bs, rfl, hbs⟩ := Constant.read_exact s c rest' hc
    obtain ⟨cs, rfl, hcs⟩ := ih h
    refine ⟨bs ++ cs, (List.append_assoc ..).symm, fun more => ?_⟩
    rw [readEntries, if_pos hlt, List.append_assoc, hbs]
    exact hcs more
  | case3 p s hlt =>
    cases h
    refine ⟨[], rfl, fun more => ?_⟩
    rw [readEntries, if_neg hlt]
    rfl

/-- Entries that are read up to some number are the first ones of those up to a higher one. -/
theorem readEntries_further {m count : Nat} (hm : m ≤ count) {s rest : Bytes}
    (h : readEntries m p s = .ok (q, rest)) : readEntries count p s = readEntries count q rest := by
  fun_induction readEntries m p s with
  | case1 => cases h
  | case2 p s hlt c rest' hc ih =>
    rw [readEntries, if_pos (by omega), hc]
    exact ih h
  | case3 p s hlt => cases h; rfl

theorem size_lt_append (p : Pool) (c : Constant) : p.size < (p.append c).size := by
  rw [append_size, Constant.width]
  split <;> omega

theorem size_le_foldl (p : Pool) (cs : List Constant) : p.size ≤ (cs.foldl append p).size := by
  induction cs generalizing p with
  | nil => exact Nat.le_refl _
  | cons c cs ih => exact Nat.le_trans (Nat.le_of_lt (size_lt_append p c)) (ih _)

theorem readEntries_added {count : Nat} (cs : List Constant) (hc : ∀ c ∈ cs, c.Fits)
    (hsize : (cs.foldl append p).size ≤ count) (rest : Bytes) :
    readEntries count p (cs.flatMap Constant.write ++ rest) =
      readEntries count (cs.foldl append p) rest := by
  induction cs generalizing p with
  | nil => rfl
  | cons c cs ih =>
    obtain ⟨hfit, hcs⟩ := List.forall_mem_cons.mp hc
    have hlt : p.size < count :=
      Nat.lt_of_lt_of_le (Nat.lt_of_lt_of_le (size_lt_append p c) (size_le_foldl _ cs)) hsize
    rw [List.flatMap_cons, List.append_assoc, readEntries, if_pos hlt, Constant.reads_write hfit]
    exact ih hcs hsize

/-- The pools hold the same constants and look them up alike. -/
def Same (p q : Pool) : Prop := p.slots = q.slots ∧ p.index = q.index

theorem Same.append (h : p.Same q) (c : Constant) : (p.append c).Same (q.append c) := by
  obtain ⟨hs, hi⟩ := h
  refine ⟨?_, ?_⟩
  · rw [append_slots, append_slots, hs]
  · rw [append_index, append_index, hi, size, size, hs]

theorem added_append (h : p.sourceSlots ≤ p.size) (c : Constant) :
    (p.append c).added = p.added ++ [c] := by
  have hs : (p.append c).sourceSlots = p.sourceSlots := rfl
  have hlen : p.sourceSlots ≤ p.slots.toList.length := by rwa [Array.length_toList]
  unfold added
  rw [hs, append_slots]
  split
  · rw [Array.toList_push, Array.toList_push, List.append_assoc, List.drop_append_of_le_length hlen,
      List.filterMap_append]
    rfl
  · rw [Array.toList_push, List.drop_append_of_le_length hlen, List.filterMap_append]
    rfl

/-- Nothing is added while a pool is read. -/
theorem read_added {s rest : Bytes} (h : Pool.read s = .ok (p, rest)) : p.added = [] := by
  obtain ⟨count, s', q, -, -, hsize, rfl⟩ := read_ok h
  have hnone : q.slots.toList.drop count.toNat = [] :=
    List.drop_eq_nil_of_le (by rw [Array.length_toList]; exact Nat.le_of_eq hsize)
  simp only [added, hnone, List.filterMap_nil]

/-- The source of a pool holds the constants that were read, and those that were added come behind
them. -/
theorem Reached.kept (h : p.Reached) : ∃ base, Reads (readEntries p.sourceSlots Pool.empty) p.source base ∧
    base.size = p.sourceSlots ∧ p.Same (p.added.foldl append base) := by
  induction h with
  | empty =>
    refine ⟨Pool.empty, fun rest => ?_, rfl, rfl, rfl⟩
    rw [readEntries, if_neg (by decide)]
    rfl
  | read hr =>
    have hadded := read_added hr
    obtain ⟨count, s, q, -, hq, hsize, rfl⟩ := read_ok hr
    obtain ⟨bs, rfl, hbs⟩ := readEntries_exact _ _ _ _ _ hq
    refine ⟨q, ?_, hsize, ?_⟩
    · simpa using hbs
    · rw [hadded]
      exact ⟨rfl, rfl⟩
  | @intern c x p q hp hi ih =>
    rcases intern_cases hi with rfl | ⟨-, -, rfl⟩
    · exact ih
    · obtain ⟨base, hbase, hsize, hsame⟩ := ih
      have hle : p.sourceSlots ≤ p.size := by
        rw [size, hsame.1, ← hsize]
        exact size_le_foldl base p.added
      refine ⟨base, hbase, hsize, ?_⟩
      rw [added_append hle, List.foldl_append]
      exact hsame.append c

/-- The pool with all of its constants counted among those that were read. -/
def settled (p : Pool) : Pool :=
  ⟨p.slots, p.source ++ p.added.flatMap Constant.write, p.size, p.index⟩

/-- A pool is read back, with the same constants at the same indices. -/
theorem Reached.read_write (h : p.Reached) (hc : ∀ c ∈ p.added, c.Fits) (rest : Bytes) :
    Pool.read (p.write ++ rest) = .ok (p.settled, rest) := by
  obtain ⟨base, hbase, hsize, hslots, hindex⟩ := h.kept
  have hle : p.sourceSlots ≤ p.size := by
    rw [size, hslots, ← hsize]
    exact size_le_foldl base p.added
  have hall : (p.added.foldl append base).size = p.size := by rw [size, size, hslots]
  have hcount : p.size.toUInt16.toNat = p.size := toNat_toUInt16 h.sound.fits
  have hread : readEntries p.size Pool.empty (p.source ++ (p.added.flatMap Constant.write ++ rest)) =
      .ok (p.added.foldl append base, rest) := by
    rw [readEntries_further hle (hbase _), readEntries_added _ hc (Nat.le_of_eq hall), readEntries,
      if_neg (by omega)]
  have htake : (p.source ++ (p.added.flatMap Constant.write ++ rest)).take
      ((p.source ++ (p.added.flatMap Constant.write ++ rest)).length - rest.length) =
        p.source ++ p.added.flatMap Constant.write := by
    rw [← List.append_assoc, List.length_append, Nat.add_sub_cancel]
    exact List.take_left
  have hu := Reads.u16 p.size.toUInt16 (p.source ++ (p.added.flatMap Constant.write ++ rest))
  rw [write, List.append_assoc, List.append_assoc]
  unfold Pool.read
  simp only [hu, Except.mapError, bind, Except.bind, hcount, hread, hall, ↓reduceIte, htake]
  rw [settled, hslots, hindex]
  rfl

/-- A pool that has room for more, and whose new constants can be written. -/
structure Roomy (n : Nat) (p : Pool) : Prop where
  size : p.size ≤ n
  slots : p.sourceSlots ≤ p.size
  texts : ∀ k ∈ p.added, k.Fits

theorem Roomy.intern {n : Nat} (h : Roomy n p) (s : String) (hs : (Constant.utf8 s).Fits)
    (hn : n < 65535) : ∃ i q, internUtf8 s p = (.ok i, q) ∧ Roomy (n + 1) q := by
  have hsize := h.size
  have hw : (Constant.utf8 s).width = 1 := rfl
  obtain ⟨i, q, hi, hq⟩ := intern_room (p := p) (c := .utf8 s) (by omega)
  refine ⟨i, q, hi, ?_⟩
  rcases intern_cases hi with rfl | ⟨-, -, rfl⟩
  · exact ⟨by omega, h.slots, h.texts⟩
  · refine ⟨by omega, Nat.le_trans h.slots (Nat.le_of_lt (size_lt_append p _)), ?_⟩
    rw [added_append h.slots]
    exact List.forall_mem_append.mpr ⟨h.texts, List.forall_mem_singleton.mpr hs⟩

end Pool

end ClassGraft
