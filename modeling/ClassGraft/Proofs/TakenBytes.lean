import ClassGraft.Proofs.PoolBytes

namespace ClassGraft

namespace Reader

variable {α β γ : Type}

/-- Whatever value the reader gives, it takes the bytes described for it. -/
def Takes (r : Reader α) (P : Bytes → α → Prop) : Prop := ∀ s a rest, r s = .ok (a, rest) →
  ∃ bs, s = bs ++ rest ∧ P bs a

namespace Takes

variable {r : Reader α} {f : α → Reader β} {P : Bytes → α → Prop} {Q : Bytes → β → Prop}

theorem pure {a : α} (h : P [] a) : Takes (Pure.pure a) P := by
  intro s b rest hb
  cases hb
  exact ⟨[], rfl, h⟩

theorem fail (e : ReadError) : Takes (Reader.fail e) P := fun _ _ _ h => nomatch h

theorem bind (hr : Takes r P) (hf : ∀ bs a, P bs a → Takes (f a) fun cs b => Q (bs ++ cs) b) :
    Takes (r >>= f) Q := by
  intro s b rest h
  obtain ⟨⟨a, s'⟩, ha, hb⟩ := except_bind_ok.mp h
  obtain ⟨bs, rfl, hbs⟩ := hr s a s' ha
  obtain ⟨cs, rfl, hcs⟩ := hf bs a hbs s' b rest hb
  exact ⟨bs ++ cs, (List.append_assoc ..).symm, hcs⟩

theorem map {g : α → β} (hr : Takes r P) (h : ∀ bs a, P bs a → Q bs (g a)) :
    Takes (do return g (← r)) Q :=
  hr.bind fun bs a ha => .pure ((List.append_nil bs).symm ▸ h bs a ha)

theorem ite {p : Prop} [Decidable p] {r' : Reader α} (h : p → Takes r P) (h' : ¬p → Takes r' P) :
    Takes (if p then r else r') P := by
  split
  next hp => exact h hp
  next hp => exact h' hp

theorem u8 : Takes Reader.u8 fun bs v => bs = [v] := by
  intro s v rest h
  cases s with
  | nil => cases h
  | cons b s => cases h; exact ⟨[v], rfl, rfl⟩

theorem u16 : Takes Reader.u16 fun bs v => bs = Write.u16 v :=
  fun _ v _ h => ⟨Write.u16 v, u16_ok h, rfl⟩

theorem u32 : Takes Reader.u32 fun bs v => bs = Write.u32 v :=
  fun _ v _ h => ⟨Write.u32 v, u32_ok h, rfl⟩

theorem raw (n : Nat) : Takes (Reader.raw n) fun bs v => bs = v ∧ v.length = n := by
  intro s v rest h
  obtain ⟨hlen, h⟩ := guard_ok h
  cases h
  exact ⟨s.take n, (List.take_append_drop n s).symm, rfl, hlen⟩

theorem sized : Takes Reader.sized fun bs v => bs = Write.sized v ∧ v.length ≤ 4294967295 := by
  refine u32.bind fun _ n hn s v rest h => ?_
  obtain ⟨bs, hs, rfl, hlen⟩ := raw n.toNat s v rest h
  have hback : bs.length.toUInt32 = n := by rw [hlen]; exact UInt32.ofNat_toNat
  refine ⟨bs, hs, ?_, ?_⟩
  · rw [hn, Write.sized, hback]
  · have := n.toNat_lt
    omega

theorem collect {n : Nat} {acc as : List α} {s rest : Bytes} (hr : Takes r P)
    (h : Reader.collect r n acc s = .ok (as, rest)) : ∃ pieces bs, as = acc.reverse ++ bs ∧
      s = pieces.flatten ++ rest ∧ bs.length = n ∧ List.Forall₂ P pieces bs := by
  induction n generalizing acc s with
  | zero => cases h; exact ⟨[], [], (List.append_nil _).symm, rfl, rfl, .nil⟩
  | succ n ih =>
    unfold Reader.collect at h
    split at h
    next => cases h
    next a s' ha =>
      obtain ⟨piece, rfl, hpiece⟩ := hr s a s' ha
      obtain ⟨pieces, bs, rfl, rfl, hlen, hall⟩ := ih h
      refine ⟨piece :: pieces, a :: bs, ?_, ?_, congrArg (· + 1) hlen, .cons hpiece hall⟩
      · rw [List.reverse_cons, List.append_assoc, List.singleton_append]
      · rw [List.flatten_cons, List.append_assoc]

/-- Values that are read in a row are in pieces that stand in a row. -/
theorem times (n : Nat) (hr : Takes r P) : Takes (Reader.times n r) fun bs as =>
    ∃ pieces, bs = pieces.flatten ∧ as.length = n ∧ List.Forall₂ P pieces as := by
  intro s as rest h
  obtain ⟨pieces, bs, rfl, rfl, hlen, hall⟩ := hr.collect h
  exact ⟨pieces.flatten, rfl, pieces, rfl, hlen, hall⟩

/-- A counted list is so many values in a row behind their number. -/
theorem counted {P : Bytes → List α → Prop} (hr : ∀ n, Takes (Reader.times n r) fun bs as =>
    as.length = n ∧ P bs as) : Takes (Reader.counted r) fun bs as => ∃ cs,
      bs = Write.u16 as.length.toUInt16 ++ cs ∧ as.length ≤ 65535 ∧ P cs as := by
  refine u16.bind fun _ n hn s as rest h => ?_
  obtain ⟨cs, hs, hlen, hP⟩ := hr n.toNat s as rest h
  have hback : as.length.toUInt16 = n := by rw [hlen]; exact UInt16.ofNat_toNat
  refine ⟨cs, hs, cs, by rw [hn, hback], ?_, hP⟩
  have := n.toNat_lt
  omega

section Written

variable {write : γ → Bytes} {g : γ → α}

/-- Where each value is made from one that is written in its piece, all are made from a list that is
written. -/
theorem timesFrom (n : Nat) (hr : Takes r fun bs a => ∃ x, bs = write x ∧ g x = a) :
    Takes (Reader.times n r) fun bs as => as.length = n ∧
      ∃ xs : List γ, bs = xs.flatMap write ∧ xs.map g = as := by
  intro s as rest h
  obtain ⟨_, hs, pieces, rfl, hlen, hall⟩ := hr.times n s as rest h
  refine ⟨_, hs, hlen, ?_⟩
  clear h hs hlen
  induction hall with
  | nil => exact ⟨[], rfl, rfl⟩
  | @cons bs a pieces as hx _ ih =>
    obtain ⟨x, rfl, rfl⟩ := hx
    obtain ⟨xs, hflat, rfl⟩ := ih
    exact ⟨x :: xs, by rw [List.flatten_cons, hflat, List.flatMap_cons], rfl⟩

theorem countedFrom (hr : Takes r fun bs a => ∃ x, bs = write x ∧ g x = a) :
    Takes (Reader.counted r) fun bs as => ∃ xs : List γ, bs = Write.counted write xs ∧ xs.map g = as := by
  intro s as rest h
  obtain ⟨_, hs, _, hbs, -, xs, rfl, rfl⟩ := Takes.counted (fun n => hr.timesFrom n) s as rest h
  rw [List.length_map] at hbs
  exact ⟨_, hs, xs, hbs, rfl⟩

end Written

section Same

variable {write : α → Bytes} {F : α → Prop}

theorem always (hr : Takes r fun bs a => bs = write a) : Takes r fun bs a => bs = write a ∧ True :=
  fun s a rest h =>
    let ⟨bs, hs, hbs⟩ := hr s a rest h
    ⟨bs, hs, hbs, trivial⟩

theorem timesAs (n : Nat) (hr : Takes r fun bs a => bs = write a ∧ F a) :
    Takes (Reader.times n r) fun bs as => as.length = n ∧ bs = as.flatMap write ∧ ∀ a ∈ as, F a := by
  intro s as rest h
  obtain ⟨_, hs, pieces, rfl, hlen, hall⟩ := hr.times n s as rest h
  refine ⟨_, hs, hlen, ?_⟩
  clear h hs hlen
  induction hall with
  | nil => exact ⟨rfl, List.forall_mem_nil F⟩
  | @cons bs a pieces as ha _ ih =>
    exact ⟨by rw [List.flatten_cons, ih.1, ha.1, List.flatMap_cons], List.forall_mem_cons.mpr ⟨ha.2, ih.2⟩⟩

/-- A list is taken in the bytes that it is written in, if each of its values is. -/
theorem countedAs (hr : Takes r fun bs a => bs = write a ∧ F a) :
    Takes (Reader.counted r) fun bs as =>
      bs = Write.counted write as ∧ as.length ≤ 65535 ∧ ∀ a ∈ as, F a := by
  intro s as rest h
  obtain ⟨_, hs, _, hbs, hlen, rfl, has⟩ := Takes.counted (fun n => hr.timesAs n) s as rest h
  exact ⟨_, hs, hbs, hlen, has⟩

end Same

end Takes

end Reader

end ClassGraft
