import ClassGraft.ClassModel
import ClassGraft.Proofs.PoolLookup

namespace ClassGraft

namespace Pool

/-- The second pool is the first one with new constants added. -/
inductive Leads (p : Pool) : Pool → Prop
  | refl : Leads p p
  | add {q : Pool} {c : Constant} : Leads p q → q.index[c]? = none → q.size + c.width ≤ 65535 →
      Leads p (q.append c)

/-- A computation that adds constants, whether it succeeds or not. Where the constants of a run that
succeeded are kept, it gives the same again and adds nothing. -/
structure Interns {α : Type} (x : PoolM α) : Prop where
  leads : ∀ p : Pool, p.Leads (x p).2
  again : ∀ {p q r : Pool} {a : α}, x p = (.ok a, q) → q.Leads r → x r = (.ok a, r)

/-- The index of a constant is the lowest one at which it lies. -/
def Lowest (p : Pool) : Prop := ∀ (n : Nat) (c : Constant),
  p.slots[n]? = some (some c) → ∃ i, p.index[c]? = some i ∧ i.toNat ≤ n

variable {p q r : Pool} {c d : Constant} {i j : PoolIndex} {α β : Type}

theorem append_index (p : Pool) (c : Constant) :
    (p.append c).index = p.index.insertIfNew c p.size.toUInt16 := rfl

theorem append_index_some (h : p.index[d]? = some i) (c : Constant) :
    (p.append c).index[d]? = some i := by
  rw [append_index, Std.HashMap.getElem?_insertIfNew]
  split
  next hnew =>
    obtain ⟨he, hout⟩ := hnew
    rw [← eq_of_beq he] at h
    exact absurd (Std.HashMap.mem_iff_isSome_getElem?.mpr (by rw [h]; rfl)) hout
  next => exact h

theorem append_index_new (h : p.index[c]? = none) :
    (p.append c).index[c]? = some p.size.toUInt16 := by
  rw [append_index, Std.HashMap.getElem?_insertIfNew, if_pos]
  refine ⟨BEq.rfl, fun hin => ?_⟩
  rw [Std.HashMap.mem_iff_isSome_getElem?, h] at hin
  cases hin

/-- A slot behind an addition is an old one, or that of the constant. -/
theorem append_slots_some {n : Nat} (h : (p.append c).slots[n]? = some (some d)) :
    p.slots[n]? = some (some d) ∨ n = p.size ∧ d = c := by
  by_cases hn : n < p.size
  · rw [append_slots_lt hn] at h
    exact .inl h
  · by_cases he : n = p.size
    · subst he
      rw [append_slots_size] at h
      exact .inr ⟨rfl, (Option.some.inj (Option.some.inj h)).symm⟩
    · obtain ⟨hlt, hget⟩ := Array.getElem?_eq_some_iff.mp h
      have hsize : (p.append c).slots.size = p.size + c.width := append_size p c
      have hwide : c.isWide = true := by
        cases hw : c.isWide with
        | true => rfl
        | false =>
          rw [Constant.width, hw] at hsize
          simp only [Bool.false_eq_true, ↓reduceIte] at hsize
          omega
      rw [Constant.width, hwide] at hsize
      simp only [↓reduceIte] at hsize
      have hlast : n = (p.slots.push (some c)).size := by
        rw [Array.size_push]
        unfold size at *
        omega
      rw [append_slots, if_pos hwide, hlast, Array.getElem?_push, if_pos rfl] at h
      cases h

theorem append_lowest (h : p.Lowest) (hi : p.Indexed) (hs : p.size ≤ 65535) (c : Constant) :
    (p.append c).Lowest := by
  intro n d hd
  rcases append_slots_some hd with hold | ⟨rfl, rfl⟩
  · obtain ⟨i, hi, hle⟩ := h n d hold
    exact ⟨i, append_index_some hi c, hle⟩
  · cases hk : p.index[d]? with
    | some i =>
      have hlt := (Array.getElem?_eq_some_iff.mp (hi d i hk)).1
      exact ⟨i, append_index_some hk d, Nat.le_of_lt hlt⟩
    | none => exact ⟨_, append_index_new hk, Nat.le_of_eq (toNat_toUInt16 hs)⟩

/-- All indices are right, and the lowest ones. -/
theorem lasts_lowest : Lasts fun p => p.Indexed ∧ p.Lowest where
  empty := ⟨lasts_indexed.empty.2, fun n c h => absurd h (empty_slots n c)⟩
  append _ c hs h := ⟨append_indexed h.1 hs c, append_lowest h.2 h.1 hs c⟩
  read _ _ _ h := h

theorem Reached.lowest (h : p.Reached) : p.Lowest := (h.lasts lasts_lowest).2

/-- A constant for which there is room gets an index. -/
theorem intern_room (h : p.size + c.width ≤ 65535) :
    ∃ i q, intern c p = (.ok i, q) ∧ q.size ≤ p.size + c.width := by
  unfold intern
  split
  next i _ => exact ⟨i, p, rfl, Nat.le_add_right _ _⟩
  next => exact ⟨_, _, if_neg (by omega), Nat.le_of_eq (append_size p c)⟩

/-- A constant is looked up at the lowest of its indices. -/
theorem Reached.index_iff (h : p.Reached) : p.index[c]? = some i ↔
    p.constant i = .ok c ∧ ∀ j, p.constant j = .ok c → i ≤ j := by
  have hindexed {k : PoolIndex} (hk : p.index[c]? = some k) : p.constant k = .ok c :=
    constant_ok.mpr (h.sound.indexed c k hk)
  have hlow {k : PoolIndex} (hk : p.constant k = .ok c) : ∃ i, p.index[c]? = some i ∧ i ≤ k :=
    h.lowest k.toNat c (constant_ok.mp hk)
  constructor
  · intro hi
    refine ⟨hindexed hi, fun j hj => ?_⟩
    obtain ⟨k, hk, hle⟩ := hlow hj
    cases Option.some.inj (hi.symm.trans hk)
    exact hle
  · rintro ⟨hi, hleast⟩
    obtain ⟨k, hk, hle⟩ := hlow hi
    rw [hk, UInt16.le_antisymm hle (hleast k (hindexed hk))]

/-- A constant that is in no slot before one has its lowest index there. -/
theorem constant_first (before : List (Option Constant)) {behind : List (Option Constant)}
    (h : p.slots.toList = before ++ some c :: behind) (hnew : some c ∉ before)
    (hshort : before.length < 65536) : p.constant before.length.toUInt16 = .ok c ∧
      ∀ j, p.constant j = .ok c → before.length.toUInt16 ≤ j := by
  have hnat : before.length.toUInt16.toNat = before.length := Nat.mod_eq_of_lt hshort
  have hget (n : Nat) : p.slots[n]? = (before ++ some c :: behind)[n]? := by
    rw [← h, Array.getElem?_toList]
  constructor
  · rw [constant_ok, hget, hnat, List.getElem?_append_right (Nat.le_refl _), Nat.sub_self]
    rfl
  · intro j hj
    rw [constant_ok, hget] at hj
    rw [UInt16.le_iff_toNat_le, hnat]
    by_contra hlt
    rw [List.getElem?_append_left (Nat.lt_of_not_le hlt)] at hj
    exact hnew (List.mem_of_getElem? hj)

namespace Leads

theorem trans (h : p.Leads q) (k : q.Leads r) : p.Leads r := by
  induction k with
  | refl => exact h
  | add _ hnone hfits ih => exact .add ih hnone hfits

theorem reached (h : p.Leads q) (hp : p.Reached) : q.Reached := by
  induction h with
  | refl => exact hp
  | add _ hnone hfits ih => exact .intern ih (intern_fresh hnone hfits)

theorem grows (h : p.Leads q) : p.Extends q := by
  induction h with
  | refl => exact .refl p
  | add _ _ _ ih => exact ih.trans (append_extends _ _)

theorem index (h : p.Leads q) (hi : p.index[c]? = some i) : q.index[c]? = some i := by
  induction h with
  | refl => exact hi
  | add _ _ _ ih => exact append_index_some ih _

/-- What is found at an index was there before, or is new to the pool. -/
theorem constant_back (h : p.Leads q) (hc : q.constant i = .ok c) :
    p.constant i = .ok c ∨ p.index[c]? = none := by
  induction h with
  | refl => exact .inl hc
  | @add q d hq hnone hfits ih =>
    rcases append_slots_some (constant_ok.mp hc) with hold | ⟨-, rfl⟩
    · exact ih (constant_ok.mpr hold)
    · cases hk : p.index[c]? with
      | none => exact .inr rfl
      | some j =>
        have hj := hq.index hk
        rw [hnone] at hj
        cases hj

end Leads

theorem intern_index (h : intern c p = (.ok i, q)) : q.index[c]? = some i := by
  unfold intern at h
  split at h
  next j hj => cases h; exact hj
  next hnone =>
    split at h
    next => cases h
    next =>
      cases h
      exact append_index_new hnone

theorem intern_interns (c : Constant) : Interns (intern c) where
  leads p := by
    rcases hp : intern c p with ⟨x, q⟩
    rcases intern_cases hp with rfl | ⟨hnone, hfits, rfl⟩
    · exact .refl
    · exact .add .refl hnone hfits
  again h hl := intern_known (hl.index (intern_index h))

namespace Interns

variable {x : PoolM α} {f : α → PoolM β}

theorem run {a : Except ClassError α} (hx : Interns x) (h : x p = (a, q)) : p.Leads q := by
  have hl := hx.leads p
  rwa [h] at hl

theorem pure (a : α) : Interns (Pure.pure a : PoolM α) where
  leads _ := .refl
  again h _ := by
    cases h
    rfl

theorem throw (e : ClassError) : Interns (MonadExcept.throw e : PoolM α) where
  leads _ := .refl
  again h _ := by cases h

theorem throwThen (e : ClassError) (f : β → PoolM α) :
    Interns (MonadExcept.throw e >>= f) where
  leads _ := .refl
  again h _ := by cases h

theorem lift (y : Except ClassError α) : Interns (liftM y : PoolM α) where
  leads p := by cases y <;> exact .refl
  again h _ := by
    cases y <;> cases h
    rfl

theorem bind (hx : Interns x) (hf : ∀ a, Interns (f a)) : Interns (x >>= f) where
  leads p := by
    have h := hx.leads p
    simp only [Bind.bind, ExceptT.bind, ExceptT.mk, StateT.bind, ExceptT.bindCont]
    rcases hp : x p with ⟨e | a, q⟩
    · rw [hp] at h
      exact h
    · rw [hp] at h
      exact h.trans ((hf a).leads q)
  again h hl := by
    obtain ⟨a, r, ha, hb⟩ := run_bind_ok.mp h
    have hr := ((hf a).run hb).trans hl
    exact run_bind_ok.mpr ⟨a, _, hx.again ha hr, (hf a).again hb hl⟩

theorem map {g : α → β} (hx : Interns x) : Interns (do return g (← x)) :=
  hx.bind fun _ => .pure _

theorem mapM {xs : List α} (h : ∀ a, Interns (f a)) : Interns (xs.mapM f) := by
  induction xs with
  | nil =>
    rw [List.mapM_nil]
    exact .pure _
  | cons a xs ih =>
    rw [List.mapM_cons]
    exact .bind (h a) fun _ => .bind ih fun _ => .pure _

/-- Each result of a list of computations comes from a pool between the first one and the last one. -/
theorem mapM_runs {xs : List α} {ys : List β} (hf : ∀ a, Interns (f a)) (h : xs.mapM f p = (.ok ys, q)) :
    List.Forall₂ (fun a b => ∃ r r', f a r = (.ok b, r') ∧ p.Leads r ∧ r'.Leads q) xs ys := by
  induction xs generalizing p ys with
  | nil =>
    cases h
    exact .nil
  | cons x xs ih =>
    rw [List.mapM_cons] at h
    obtain ⟨b, r, hb, h⟩ := run_bind_ok.mp h
    obtain ⟨bs, r', hbs, h⟩ := run_bind_ok.mp h
    cases h
    refine .cons ⟨p, r, hb, .refl, (mapM hf).run hbs⟩ ((ih hbs).imp ?_)
    rintro a c ⟨s, s', hc, hl, hl'⟩
    exact ⟨s, s', hc, ((hf x).run hb).trans hl, hl'⟩

end Interns

theorem internUtf8_interns (s : String) : Interns (internUtf8 s) := intern_interns _

theorem internClass_interns (t : RefType) : Interns (internClass t) :=
  .bind (internUtf8_interns _) fun _ => intern_interns _

theorem internNameAndType_interns (name descriptor : String) :
    Interns (internNameAndType name descriptor) :=
  .bind (internUtf8_interns _) fun _ => .bind (internUtf8_interns _) fun _ => intern_interns _

theorem internAttribute_interns (k : AttributeKind) (content : k.Content) :
    Interns (internAttribute k content) := .map (internUtf8_interns _)

end Pool

open Pool

theorem Literal.intern_interns (l : Literal) : Interns l.intern := by
  cases l with
  | int n | float n | long n | double n => exact Pool.intern_interns _
  | string s => exact .bind (internUtf8_interns _) fun _ => Pool.intern_interns _
  | classRef t => exact internClass_interns t
  | methodType t => exact .bind (internUtf8_interns _) fun _ => Pool.intern_interns _
  | methodHandle index => exact .pure _
  | dynamic index t => exact .pure _

theorem Instruction.encode_interns (i : Instruction) : Interns i.encode := by
  cases i with
  | ldc l => exact .map l.intern_interns
  | field a f =>
    exact .map (.bind (internClass_interns _) fun _ => .bind (internNameAndType_interns _ _) fun _ =>
      Pool.intern_interns _)
  | invoke k m =>
    refine .bind (.bind (internClass_interns _) fun _ => .bind (internNameAndType_interns _ _) fun _ =>
      Pool.intern_interns _) fun _ => .pure _
  | invokeDynamic c =>
    exact .bind (.bind (internNameAndType_interns _ _) fun _ => Pool.intern_interns _) fun _ => .pure _
  | new c => exact .map (internClass_interns _)
  | newRefArray t | checkCast t | instanceOf t => exact .map (internClass_interns t)
  | newMultiArray t dimensions => exact .map (internClass_interns t)
  | _ => exact .pure _

theorem Piece.ofNode_interns (n : Node) : Interns (Piece.ofNode n) := by
  cases n with
  | insn i => exact .map i.encode_interns
  | _ => exact .pure _

section

variable {place : Label → Except ClassError Nat}

theorem TryBlock.encode_interns (t : TryBlock) : Interns (t.encode place) := by
  refine .bind (.lift _) fun start => .bind (.lift _) fun stop => .bind (.lift _) fun handler => ?_
  split
  next => exact .pure _
  next =>
    cases t.caught with
    | none => exact .pure _
    | some c => exact .map (internClass_interns _)

theorem LocalRange.encode_interns (v : LocalRange) : Interns (v.encode place) := by
  refine .bind (.lift _) fun start => .bind (.lift _) fun stop => ?_
  split
  next => exact .pure _
  next => exact .bind (internUtf8_interns _) fun _ => .bind (internUtf8_interns _) fun _ => .pure _

theorem tableAttribute_interns {α : Type} (k : AttributeKind) (wrap : List α → k.Content)
    (xs : List α) : Interns (tableAttribute k wrap xs) := by
  unfold tableAttribute
  split
  next => exact .pure _
  next => exact .map (internAttribute_interns _ _)

theorem Frame.toRaw_interns (f : Frame) : Interns (f.toRaw place) := by
  have hraw (t : VerifyType) : Interns (t.mapM Pool.internClass fun site => do
      return (← place site.label).toUInt16 : PoolM RawType) := by
    cases t with
    | object c => exact .map (internClass_interns c)
    | uninitialized u => exact .map (.map (.lift _))
    | _ => exact .pure _
  exact .bind (.mapM hraw) fun _ => .bind (.mapM hraw) fun _ => .pure _

theorem encodeFrames_interns (fs : List (Nat × Frame)) (base : Nat) (before : RawFrame) :
    Interns (encodeFrames place base before fs) := by
  induction fs generalizing base before with
  | nil => exact .pure _
  | cons e fs ih =>
    rw [encodeFrames]
    refine .bind e.2.toRaw_interns fun r => ?_
    split
    next =>
      split
      next => exact ih base before
      next => exact .throw _
    next => exact .map (ih _ r)

end

/-- The last attribute of a body is put behind the others. -/
theorem Body.frames_interns {place : Label → Except ClassError Nat} (entry : Option Frame)
    (fs : List (Nat × Frame)) (make : List Attribute → CodeAttribute) : Interns (match entry with
      | none => do
        let ds ← pure []
        pure (make ds)
      | some entry => do
        let before ← entry.toRaw place
        let xs ← encodeFrames place 0 before fs
        let ds ← tableAttribute .stackMapTable id xs
        pure (make ds)) := by
  cases entry with
  | none => exact .bind (.pure _) fun _ => .pure _
  | some entry =>
    refine .bind entry.toRaw_interns fun before => ?_
    refine .bind (encodeFrames_interns _ _ _) fun xs => ?_
    exact .bind (tableAttribute_interns _ _ _) fun _ => .pure _

theorem Body.encode_interns (b : Body) (maxStack maxLocals : UInt16) (entry : Option Frame) :
    Interns (b.encode maxStack maxLocals entry) := by
  unfold Body.encode
  refine .bind (.mapM Piece.ofNode_interns) fun pieces => ?_
  dsimp only
  split
  next => exact .throwThen _ _
  next =>
    refine .bind (.mapM fun _ => .lift _) fun parts => ?_
    refine .bind (.mapM fun t => t.encode_interns) fun rs => ?_
    refine .bind (tableAttribute_interns _ _ _) fun as => ?_
    refine .bind (.mapM fun v => v.encode_interns) fun vs => ?_
    refine .bind (tableAttribute_interns _ _ _) fun bs => ?_
    exact .bind (tableAttribute_interns _ _ _) fun cs => Body.frames_interns entry _ _

end ClassGraft
