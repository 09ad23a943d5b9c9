import ClassGraft.Code.Decoding
import ClassGraft.Proofs.DescriptorText
import ClassGraft.Proofs.Outcomes
import Mathlib.Data.List.Forall2

namespace ClassGraft

namespace Pool

/-- The pools that can arise: an empty one or one that was read, with constants added one by one. -/
inductive Reached : Pool → Prop
  | empty : Reached Pool.empty
  | read {s rest : Bytes} {p : Pool} : Pool.read s = .ok (p, rest) → Reached p
  | intern {c : Constant} {r : Except ClassError PoolIndex} {p p' : Pool} :
      Reached p → Pool.intern c p = (r, p') → Reached p'

/-- Each known constant lies at its index. -/
def Indexed (p : Pool) : Prop := ∀ (c : Constant) (i : PoolIndex),
  p.index[c]? = some i → p.slots[i.toNat]? = some (some c)

/-- Slot 0 is empty, and all indices are right and fit in two bytes. -/
structure Sound (p : Pool) : Prop where
  first : p.slots[0]? = some none
  fits : p.size ≤ 65535
  indexed : p.Indexed

/-- The second pool holds what the first one holds, at the same indices. -/
def Extends (p q : Pool) : Prop := ∀ (i : Nat) (c : Constant),
  p.slots[i]? = some (some c) → q.slots[i]? = some (some c)

/-- A property of pools that adding constants keeps, and that does not depend on what was read. -/
structure Lasts (P : Pool → Prop) : Prop where
  empty : P Pool.empty
  append : ∀ (p : Pool) (c : Constant), p.size ≤ 65535 → P p → P (p.append c)
  read : ∀ (p : Pool) (source : Bytes) (n : Nat), P p → P ⟨p.slots, source, n, p.index⟩

variable {p q r : Pool} {c : Constant} {i : PoolIndex}

theorem constant_ok : p.constant i = .ok c ↔ p.slots[i.toNat]? = some (some c) := by
  unfold constant
  split
  next d h => simp [h]
  next h =>
    constructor
    · intro hc
      cases hc
    · intro hc
      exact absurd hc (h c)

theorem Extends.refl (p : Pool) : p.Extends p := fun _ _ h => h

theorem Extends.trans (h : p.Extends q) (k : q.Extends r) : p.Extends r :=
  fun i c hc => k i c (h i c hc)

theorem Extends.constant (h : p.Extends q) (hc : p.constant i = .ok c) : q.constant i = .ok c :=
  constant_ok.mpr (h _ _ (constant_ok.mp hc))

theorem Sound.index_ne_zero (h : p.Sound) (hc : p.constant i = .ok c) : i ≠ 0 := by
  rintro rfl
  have h0 := constant_ok.mp hc
  have hf : p.slots[(0 : UInt16).toNat]? = some none := h.first
  rw [hf] at h0
  cases h0

theorem append_slots (p : Pool) (c : Constant) :
    (p.append c).slots = if c.isWide then (p.slots.push (some c)).push none
      else p.slots.push (some c) := rfl

theorem append_slots_lt {n : Nat} (h : n < p.size) (c : Constant) :
    (p.append c).slots[n]? = p.slots[n]? := by
  have h1 : n < p.slots.size := h
  have h2 : n < p.slots.size + 1 := by omega
  rw [append_slots]
  split
  · simp [Array.getElem?_push, Nat.ne_of_lt h1, Nat.ne_of_lt h2]
  · simp [Array.getElem?_push, Nat.ne_of_lt h1]

theorem append_slots_size (p : Pool) (c : Constant) :
    (p.append c).slots[p.size]? = some (some c) := by
  rw [append_slots, size]
  split
  · have hlast : p.slots.size ≠ (p.slots.push (some c)).size := by
      rw [Array.size_push]
      omega
    rw [Array.getElem?_push, if_neg hlast, Array.getElem?_push, if_pos rfl]
  · rw [Array.getElem?_push, if_pos rfl]

theorem append_size (p : Pool) (c : Constant) : (p.append c).size = p.size + c.width := by
  rw [size, append_slots, Constant.width, size]
  split <;> simp

theorem append_extends (p : Pool) (c : Constant) : p.Extends (p.append c) := by
  intro n d h
  have hn : n < p.size := (Array.getElem?_eq_some_iff.mp h).1
  rw [append_slots_lt hn, h]

theorem toNat_toUInt16 {n : Nat} (h : n ≤ 65535) : n.toUInt16.toNat = n := by
  rw [Nat.toUInt16_eq, UInt16.toNat_ofNat']
  omega

theorem append_indexed (h : p.Indexed) (hs : p.size ≤ 65535) (c : Constant) :
    (p.append c).Indexed := by
  intro d j hd
  have hi : (p.append c).index = p.index.insertIfNew c p.size.toUInt16 := rfl
  rw [hi, Std.HashMap.getElem?_insertIfNew] at hd
  split at hd
  next hnew =>
    obtain ⟨he, _⟩ := hnew
    cases hd
    rw [toNat_toUInt16 hs, ← eq_of_beq he]
    exact append_slots_size p c
  next => exact append_extends p c _ _ (h d j hd)

theorem append_first (h : p.slots[0]? = some none) (c : Constant) :
    (p.append c).slots[0]? = some none := by
  have h0 : 0 < p.size := (Array.getElem?_eq_some_iff.mp h).1
  rw [append_slots_lt h0, h]

theorem Sound.append (h : p.Sound) (hc : p.size + c.width ≤ 65535) : (p.append c).Sound where
  first := append_first h.first c
  fits := by rw [append_size]; exact hc
  indexed := append_indexed h.indexed h.fits c

theorem empty_slots (n : Nat) (c : Constant) : Pool.empty.slots[n]? ≠ some (some c) := by
  intro h
  have he : Pool.empty.slots = #[none] := rfl
  rw [he, Array.getElem?_singleton] at h
  split at h <;> cases h

/-- Slot 0 is empty, and all indices are right. -/
theorem lasts_indexed : Lasts fun p => p.slots[0]? = some none ∧ p.Indexed where
  empty := by
    refine ⟨rfl, fun c i h => ?_⟩
    have he : Pool.empty.index = ∅ := rfl
    rw [he, Std.HashMap.getElem?_empty] at h
    cases h
  append _ c hs h := ⟨append_first h.1 c, append_indexed h.2 hs c⟩
  read _ _ _ h := h

/-- What reading a pool has done: its entries stand behind their number. -/
theorem read_ok {s rest : Bytes} (h : Pool.read s = .ok (p, rest)) :
    ∃ (count : UInt16) (s' : Bytes) (q : Pool), Reader.u16 s = .ok (count, s') ∧
      readEntries count.toNat empty s' = .ok (q, rest) ∧ q.size = count.toNat ∧
      p = ⟨q.slots, s'.take (s'.length - rest.length), count.toNat, q.index⟩ := by
  unfold Pool.read at h
  obtain ⟨⟨count, s'⟩, hc, h⟩ := except_bind_ok.mp h
  obtain ⟨⟨q, rest'⟩, hq, h⟩ := except_bind_ok.mp h
  dsimp only at h
  split at h
  next hsize =>
    cases Except.ok.inj h
    exact ⟨count, s', q, except_mapError_ok.mp hc, except_mapError_ok.mp hq, hsize, rfl⟩
  next => cases h

theorem intern_cases {x : Except ClassError PoolIndex} (h : intern c p = (x, q)) :
    q = p ∨ p.index[c]? = none ∧ p.size + c.width ≤ 65535 ∧ q = p.append c := by
  unfold intern at h
  split at h
  next => cases h; exact .inl rfl
  next hnone =>
    split at h
    next => cases h; exact .inl rfl
    next hfits => cases h; exact .inr ⟨hnone, by omega, rfl⟩

/-- The constant is found at its index, and nothing is lost. -/
theorem intern_ok (h : p.Sound) (hi : Pool.intern c p = (.ok i, q)) :
    q.Sound ∧ p.Extends q ∧ q.constant i = .ok c := by
  unfold Pool.intern at hi
  split at hi
  next j hj =>
    cases hi
    exact ⟨h, .refl p, constant_ok.mpr (h.indexed c i hj)⟩
  next =>
    split at hi
    next => cases hi
    next hc =>
      cases hi
      refine ⟨h.append (by omega), append_extends p c, constant_ok.mpr ?_⟩
      rw [toNat_toUInt16 h.fits]
      exact append_slots_size p c

theorem intern_known (h : p.index[c]? = some i) : intern c p = (.ok i, p) := by
  unfold intern
  rw [h]

theorem intern_fresh (h : p.index[c]? = none) (hs : p.size + c.width ≤ 65535) :
    intern c p = (.ok p.size.toUInt16, p.append c) := by
  unfold intern
  rw [h]
  exact if_neg (by omega)

theorem Reached.fits (h : p.Reached) : p.size ≤ 65535 := by
  induction h with
  | empty => decide
  | read hr =>
    obtain ⟨count, s', q, -, -, hsize, rfl⟩ := read_ok hr
    exact Nat.le_trans (Nat.le_of_eq hsize) (Nat.le_of_lt_succ count.toNat_lt)
  | intern _ hi ih =>
    rcases intern_cases hi with rfl | ⟨-, hfits, rfl⟩
    · exact ih
    · exact Nat.le_trans (Nat.le_of_eq (append_size _ _)) hfits

/-- Adding constants one by one keeps it, whether they are read or asked for. -/
theorem Lasts.readEntries {P : Pool → Prop} (hP : Lasts P) {count : Nat} {s rest : Bytes}
    (hcount : count ≤ 65535) (h : P p) (hr : readEntries count p s = .ok (q, rest)) : P q := by
  fun_induction Pool.readEntries count p s with
  | case1 => cases hr
  | case2 p s hlt c rest hc ih => exact ih (hP.append p c (by omega) h) hr
  | case3 p s hlt =>
    cases Except.ok.inj hr
    exact h

theorem Reached.lasts {P : Pool → Prop} (h : p.Reached) (hP : Lasts P) : P p := by
  induction h with
  | empty => exact hP.empty
  | read hr =>
    obtain ⟨count, s', q, -, hq, -, rfl⟩ := read_ok hr
    exact hP.read q _ _ (hP.readEntries (Nat.le_of_lt_succ count.toNat_lt) hP.empty hq)
  | intern hp hi ih =>
    rcases intern_cases hi with rfl | ⟨-, -, rfl⟩
    · exact ih
    · exact hP.append _ _ hp.fits ih

theorem Reached.sound (h : p.Reached) : p.Sound where
  first := (h.lasts lasts_indexed).1
  fits := h.fits
  indexed := (h.lasts lasts_indexed).2

variable {α β : Type}

theorem run_bind_ok {ε : Type} {x : ExceptT ε (StateM Pool) α} {f : α → ExceptT ε (StateM Pool) β}
    {b : β} :
    (x >>= f) p = (.ok b, q) ↔ ∃ a r, x p = (.ok a, r) ∧ f a r = (.ok b, q) := by
  rw [run_bind]
  rcases x p with ⟨e | a, r⟩
  · constructor
    · intro hb
      cases hb
    · rintro ⟨_, _, ha, _⟩
      cases ha
  · constructor
    · intro hb
      exact ⟨a, r, rfl, hb⟩
    · rintro ⟨_, _, ha, hb⟩
      cases ha
      exact hb

theorem complete_ok {ε : Type} {x : ExceptT ε (StateM Pool) α} {a : α} :
    p.complete x = .ok (a, q) ↔ x p = (.ok a, q) := by
  unfold complete
  rcases x p with ⟨_ | b, r⟩
  · exact iff_of_false nofun nofun
  · constructor <;> rintro ⟨⟩ <;> rfl

theorem complete_error {ε : Type} {x : ExceptT ε (StateM Pool) α} {e : ε} :
    p.complete x = .error e ↔ ∃ q, x p = (.error e, q) := by
  unfold complete
  rcases x p with ⟨_ | b, r⟩
  · constructor
    · rintro ⟨⟩
      exact ⟨r, rfl⟩
    · rintro ⟨q, ⟨⟩⟩
      rfl
  · exact iff_of_false nofun fun ⟨_, h⟩ => nomatch h

/-- A run over a list fails at one of its elements, behind those that succeed. -/
theorem run_foldlM_error {ε : Type} {f : β → α → ExceptT ε (StateM Pool) β} {xs : List α} {b : β} {e : ε} :
    (xs.foldlM f b p = (.error e, q)) ↔ ∃ before x behind b' r, xs = before ++ x :: behind ∧
      before.foldlM f b p = (.ok b', r) ∧ f b' x r = (.error e, q) := by
  induction xs generalizing b p with
  | nil => exact iff_of_false nofun fun ⟨before, _, _, _, _, h, _⟩ => by simp at h
  | cons x xs ih =>
    rw [List.foldlM_cons, run_bind_error]
    constructor
    · rintro (hx | ⟨b', r, hb', h⟩)
      · exact ⟨[], x, xs, b, p, rfl, rfl, hx⟩
      · obtain ⟨before, y, behind, b'', r', rfl, hbefore, hy⟩ := ih.mp h
        refine ⟨x :: before, y, behind, b'', r', rfl, ?_, hy⟩
        rw [List.foldlM_cons]
        exact run_bind_ok.mpr ⟨b', r, hb', hbefore⟩
    · rintro ⟨_ | ⟨x', before⟩, y, behind, b', r, hsplit, hbefore, hy⟩
      · cases hsplit
        cases hbefore
        exact .inl hy
      · cases hsplit
        rw [List.foldlM_cons] at hbefore
        obtain ⟨b'', r', hb'', hbefore⟩ := run_bind_ok.mp hbefore
        exact .inr ⟨b'', r', hb'', ih.mpr ⟨before, y, behind, b', r, rfl, hbefore, hy⟩⟩

/-- A run that succeeds only adds constants, and what it gives holds in all later pools. -/
def Yields (x : PoolM α) (Q : Pool → α → Prop) : Prop :=
  ∀ p a p', p.Sound → x p = (.ok a, p') →
    p'.Sound ∧ p.Extends p' ∧ ∀ q, q.Sound → p'.Extends q → Q q a

namespace Yields

variable {x : PoolM α} {Q R : Pool → α → Prop}

theorem pure {a : α} (h : ∀ q, Q q a) : Yields (Pure.pure a) Q := by
  intro p a' p' hp hx
  cases hx
  exact ⟨hp, .refl p, fun q _ _ => h q⟩

theorem throw (e : ClassError) : Yields (MonadExcept.throw e : PoolM α) Q := by
  intro p a p' _ hx
  cases hx

theorem throwThen (e : ClassError) (f : β → PoolM α) :
    Yields (MonadExcept.throw e >>= f) Q := by
  intro p a p' _ h
  obtain ⟨b, r, hb, -⟩ := run_bind_ok.mp h
  cases hb

theorem lift (y : Except ClassError α) : Yields (liftM y : PoolM α) fun _ a => y = .ok a := by
  intro p a p' hp hx
  cases y with
  | error e => cases hx
  | ok b => cases hx; exact ⟨hp, .refl p, fun _ _ _ => rfl⟩

theorem imp (h : Yields x Q) (hq : ∀ q a, q.Sound → Q q a → R q a) : Yields x R := by
  intro p a p' hp hx
  obtain ⟨hs, he, ha⟩ := h p a p' hp hx
  exact ⟨hs, he, fun q hqs hqe => hq q a hqs (ha q hqs hqe)⟩

theorem bind {f : α → PoolM β} {S : Pool → β → Prop} (hx : Yields x Q)
    (hf : ∀ a, Yields (f a) fun q b => Q q a → S q b) : Yields (x >>= f) S := by
  intro p b p' hp h
  obtain ⟨a, r, ha, hb⟩ := run_bind_ok.mp h
  obtain ⟨hrs, hre, hra⟩ := hx p a r hp ha
  obtain ⟨hs, he, hbs⟩ := hf a r b p' hrs hb
  exact ⟨hs, hre.trans he, fun q hqs hqe => hbs q hqs hqe (hra q hqs (he.trans hqe))⟩

/-- A run that ends by giving a value made from what went before. -/
theorem map {f : α → β} {S : Pool → β → Prop} (hx : Yields x Q)
    (hf : ∀ q a, q.Sound → Q q a → S q (f a)) : Yields (do return f (← x)) S :=
  (hx.imp hf).bind fun _ => .pure fun _ h => h

theorem mapM {f : α → PoolM β} {S : Pool → α → β → Prop} {xs : List α}
    (h : ∀ a ∈ xs, Yields (f a) fun q => S q a) :
    Yields (xs.mapM f) fun q => List.Forall₂ (S q) xs := by
  induction xs with
  | nil =>
    rw [List.mapM_nil]
    exact .pure fun _ => .nil
  | cons a xs ih =>
    rw [List.mapM_cons]
    refine .bind (h a List.mem_cons_self) fun b => ?_
    refine .bind (ih fun c hc => h c (List.mem_cons_of_mem _ hc)) fun bs => ?_
    exact .pure fun q hbs hb => .cons hb hbs

end Yields

theorem intern_yields (c : Constant) : Yields (intern c) fun q i => q.constant i = .ok c := by
  intro p i p' hp h
  obtain ⟨hs, he, hc⟩ := intern_ok hp h
  exact ⟨hs, he, fun q _ hq => hq.constant hc⟩

theorem utf8_ok {s : String} : p.utf8 i = .ok s ↔ p.constant i = .ok (.utf8 s) := by
  unfold utf8
  rw [except_bind_ok]
  constructor
  · rintro ⟨c, hc, h⟩
    split at h
    next t => cases h; exact hc
    next => cases h
  · intro h
    exact ⟨_, h, rfl⟩

theorem Extends.utf8 {s : String} (h : p.Extends q) (hs : p.utf8 i = .ok s) : q.utf8 i = .ok s :=
  utf8_ok.mpr (h.constant (utf8_ok.mp hs))

theorem internUtf8_yields (s : String) : Yields (internUtf8 s) fun q i => q.utf8 i = .ok s :=
  (intern_yields _).imp fun _ _ _ h => utf8_ok.mpr h

theorem internClass_yields (t : RefType) :
    Yields (internClass t) fun q i => q.className i = .ok t.className ∧ i ≠ 0 := by
  refine .bind (internUtf8_yields _) fun name => (intern_yields _).imp fun q i hq hc hn => ?_
  refine ⟨?_, hq.index_ne_zero hc⟩
  simp only [className, hc, hn, bind, Except.bind]

theorem classType_ok {t : RefType} (h : p.className i = .ok t.className) :
    p.classType i = .ok t := by
  simp only [classType, h, bind, Except.bind, RefType.ofClassName_className]
  rfl

theorem internString_yields (s : String) :
    Yields (internString s) fun q i => q.literal i = .ok (.string s) := by
  refine .bind (internUtf8_yields _) fun text => (intern_yields _).imp fun q i _ hc ht => ?_
  simp only [literal, hc, ht, bind, Except.bind]
  rfl

theorem internNameAndType_yields (name descriptor : String) :
    Yields (internNameAndType name descriptor)
      fun q i => q.nameAndType i = .ok (name, descriptor) := by
  refine .bind (internUtf8_yields _) fun n => .bind (internUtf8_yields _) fun d =>
    (intern_yields _).imp fun q i _ hc hd hn => ?_
  simp only [nameAndType, hc, hn, hd, bind, Except.bind]
  rfl

theorem internField_member (owner : BinaryName) (name descriptor : String) :
    Yields (internField owner name descriptor)
      fun q i => q.member i = .ok ⟨owner.text, name, descriptor, false⟩ := by
  refine .bind (internClass_yields _) fun owner => .bind (internNameAndType_yields _ _) fun nt =>
    (intern_yields _).imp fun q i _ hc hn ho => ?_
  simp only [member, hc, hn, ho.1, bind, Except.bind, pure, Except.pure]
  rfl

theorem internMethod_member (owner : RefType) (name descriptor : String) (isInterface : Bool) :
    Yields (internMethod owner name descriptor isInterface)
      fun q i => q.member i = .ok ⟨owner.className, name, descriptor, isInterface⟩ := by
  refine .bind (internClass_yields _) fun owner => .bind (internNameAndType_yields _ _) fun nt =>
    (intern_yields _).imp fun q i _ hc hn ho => ?_
  simp only [member, hc, hn, ho.1, bind, Except.bind, pure, Except.pure]

theorem internField_yields (f : FieldRef) :
    Yields (internField f.owner f.name.text f.type.text) fun q i => q.fieldRef i = .ok f := by
  refine (internField_member _ _ _).imp fun q i _ hm => ?_
  simp only [fieldRef, hm, bind, Except.bind, BinaryName.ofString_text, memberName,
    MemberName.ofString_text, parsed, FieldType.parse_text]
  rfl

theorem internMethod_yields (m : MethodRef) :
    Yields (internMethod m.owner m.name.text m.type.text m.isInterface)
      fun q i => q.methodRef i = .ok m := by
  refine (internMethod_member _ _ _ _).imp fun q i _ hm => ?_
  simp only [methodRef, hm, bind, Except.bind, RefType.ofClassName_className, memberName,
    MemberName.ofString_text, parsed, MethodType.parse_text]
  rfl

theorem internMethodType_yields (t : MethodType) :
    Yields (internMethodType t.text) fun q i => q.literal i = .ok (.methodType t) := by
  refine .bind (internUtf8_yields _) fun d => (intern_yields _).imp fun q i _ hc hd => ?_
  simp only [literal, hc, hd, bind, Except.bind, parsed, MethodType.parse_text]
  rfl

theorem internInvokeDynamic_yields (c : CallSite) :
    Yields (internInvokeDynamic c.bootstrap c.name.text c.type.text)
      fun q i => q.callSite i = .ok c := by
  refine .bind (internNameAndType_yields _ _) fun nt => (intern_yields _).imp fun q i _ hc hn => ?_
  simp only [callSite, hc, hn, bind, Except.bind, memberName, MemberName.ofString_text, parsed,
    MethodType.parse_text]
  rfl

theorem internAttribute_yields (k : AttributeKind) (content : k.Content) :
    Yields (internAttribute k content)
      fun q a => q.utf8 a.name = .ok k.name ∧ a.info = k.write content :=
  (internUtf8_yields _).map fun _ _ _ h => ⟨h, rfl⟩

/-- A literal that stands for a pool entry names one of its kind, with its type. -/
def Names (p : Pool) : Literal → Prop
  | .methodHandle i => ∃ kind target, p.constant i = .ok (.methodHandle kind target)
  | .dynamic i t => ∃ bootstrap nt name descriptor, p.constant i = .ok (.dynamic bootstrap nt) ∧
      p.nameAndType nt = .ok (name, descriptor) ∧ FieldType.parse descriptor = .ok t
  | _ => True

theorem nameAndType_ok {name descriptor : String} : p.nameAndType i = .ok (name, descriptor) ↔
    ∃ j k, p.constant i = .ok (.nameAndType j k) ∧ p.constant j = .ok (.utf8 name) ∧
      p.constant k = .ok (.utf8 descriptor) := by
  unfold nameAndType
  rw [except_bind_ok]
  constructor
  · rintro ⟨c, hc, h⟩
    split at h
    next j k =>
      simp only [except_bind_ok] at h
      obtain ⟨n, hn, d, hd, h⟩ := h
      cases Except.ok.inj h
      exact ⟨j, k, hc, utf8_ok.mp hn, utf8_ok.mp hd⟩
    next => cases h
  · rintro ⟨j, k, hc, hn, hd⟩
    refine ⟨_, hc, ?_⟩
    simp only [utf8_ok.mpr hn, utf8_ok.mpr hd, bind, Except.bind]
    rfl

theorem Extends.names {l : Literal} (h : p.Extends q) (hl : p.Names l) : q.Names l := by
  cases l with
  | methodHandle i =>
    obtain ⟨kind, target, hc⟩ := hl
    exact ⟨kind, target, h.constant hc⟩
  | dynamic i t =>
    obtain ⟨bootstrap, nt, name, descriptor, hc, hn, ht⟩ := hl
    obtain ⟨j, k, hj, hname, hdescriptor⟩ := nameAndType_ok.mp hn
    refine ⟨bootstrap, nt, name, descriptor, h.constant hc, ?_, ht⟩
    exact nameAndType_ok.mpr ⟨j, k, h.constant hj, h.constant hname, h.constant hdescriptor⟩
  | _ => trivial

end Pool

/-- A literal is read back from the entry that it is given. -/
theorem Literal.intern_yields (l : Literal) :
    Pool.Yields l.intern fun q i => q.Names l → q.literal i = .ok l := by
  have hconstant (c : Constant) (h : ∀ (q : Pool) (i : PoolIndex), q.constant i = .ok c →
      q.literal i = .ok l) : Pool.Yields (Pool.intern c) fun q i => q.Names l → q.literal i = .ok l :=
    (Pool.intern_yields c).imp fun q i _ hc _ => h q i hc
  cases l with
  | int n | float n | long n | double n =>
    refine hconstant _ fun q i hc => ?_
    simp only [Pool.literal, hc]
    rfl
  | string s => exact (Pool.internString_yields s).imp fun _ _ _ h _ => h
  | classRef t =>
    refine .bind (Pool.internUtf8_yields _) fun name => (Pool.intern_yields _).imp fun q i _ hc hn => ?_
    intro _
    have ht : q.classType i = .ok t := Pool.classType_ok (by
      simp only [Pool.className, hc, hn, bind, Except.bind])
    simp only [Pool.literal, hc, ht, bind, Except.bind]
    rfl
  | methodType t => exact (Pool.internMethodType_yields t).imp fun _ _ _ h _ => h
  | methodHandle index =>
    refine .pure fun q hn => ?_
    obtain ⟨kind, target, hc⟩ := hn
    simp only [Pool.literal, hc]
    rfl
  | dynamic index t =>
    refine .pure fun q hn => ?_
    obtain ⟨bootstrap, nt, name, descriptor, hc, hnt, ht⟩ := hn
    simp only [Pool.literal, hc, hnt, bind, Except.bind, Pool.parsed, ht]
    rfl

end ClassGraft
