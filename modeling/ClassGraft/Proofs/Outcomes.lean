import ClassGraft.Descriptor
import ClassGraft.Halt
import Mathlib.Data.List.Forall2

namespace ClassGraft

variable {ε α β : Type}

theorem run_bind {σ : Type} (x : ExceptT ε (StateM σ) α) (f : α → ExceptT ε (StateM σ) β) (s : σ) :
    (x >>= f) s = match x s with
      | (.ok a, t) => f a t
      | (.error e, t) => (.error e, t) := by
  simp only [Bind.bind, ExceptT.bind, ExceptT.mk, StateT.bind, ExceptT.bindCont]
  rcases x s with ⟨_ | _, _⟩ <;> rfl

theorem run_bind_error {σ : Type} {x : ExceptT ε (StateM σ) α} {f : α → ExceptT ε (StateM σ) β} {s t : σ}
    {e : ε} : (x >>= f) s = (.error e, t) ↔
      x s = (.error e, t) ∨ ∃ a r, x s = (.ok a, r) ∧ f a r = (.error e, t) := by
  rw [run_bind]
  rcases x s with ⟨err | a, r⟩
  · constructor
    · intro h
      cases h
      exact .inl rfl
    · rintro (h | ⟨_, _, ha, _⟩)
      · cases h
        rfl
      · cases ha
  · refine ⟨fun h => .inr ⟨a, r, rfl, h⟩, ?_⟩
    rintro (h | ⟨_, _, ha, h⟩)
    · cases h
    · cases ha
      exact h

theorem except_bind_ok {x : Except ε α} {f : α → Except ε β} {b : β} :
    (x >>= f) = .ok b ↔ ∃ a, x = .ok a ∧ f a = .ok b := by
  cases x with
  | error e => simp [bind, Except.bind]
  | ok a => simp [bind, Except.bind]

theorem except_bind_error {x : Except ε α} {f : α → Except ε β} {e : ε} :
    (x >>= f) = .error e ↔ x = .error e ∨ ∃ a, x = .ok a ∧ f a = .error e := by
  cases x with
  | error e => simp [bind, Except.bind]
  | ok a => simp [bind, Except.bind]

theorem except_bind_congr {x : Except ε α} {f g : α → Except ε β} (h : ∀ a, x = .ok a → f a = g a) :
    x >>= f = x >>= g := by
  cases x with
  | error e => rfl
  | ok a => exact h a rfl

theorem except_ok_bind (a : α) (f : α → Except ε β) : (Except.ok a >>= f) = f a := rfl

theorem except_mapError_bind {δ : Type} (e : ε → δ) (x : Except ε α) (f : α → Except ε β) :
    (x >>= f).mapError e = x.mapError e >>= fun a => (f a).mapError e := by
  cases x <;> rfl

theorem except_mapError_mapM {δ : Type} (e : ε → δ) (f : α → Except ε β) (xs : List α) :
    (xs.mapM f).mapError e = xs.mapM fun a => (f a).mapError e := by
  induction xs with
  | nil => rfl
  | cons a xs ih =>
    rw [List.mapM_cons, List.mapM_cons, except_mapError_bind, ← ih]
    refine except_bind_congr fun b _ => ?_
    rw [except_mapError_bind]
    rfl

theorem except_mapError_ok {δ : Type} {x : Except ε α} {f : ε → δ} {a : α} :
    x.mapError f = .ok a ↔ x = .ok a := by
  cases x <;> simp [Except.mapError]

theorem except_mapError_error {δ : Type} {x : Except ε α} {f : ε → δ} {d : δ} :
    x.mapError f = .error d ↔ ∃ e, x = .error e ∧ f e = d := by
  cases x <;> simp [Except.mapError]

theorem liftM_ok {x : Except ε α} {a : α} :
    (liftM x : Except (Halt ε) α) = .ok a ↔ x = .ok a := except_mapError_ok

theorem liftM_error {x : Except ε α} {h : Halt ε} :
    (liftM x : Except (Halt ε) α) = .error h ↔ ∃ e, x = .error e ∧ .error e = h := except_mapError_error

theorem toOption_any {x : Except ε α} {p : α → Bool} :
    x.toOption.any p = true ↔ ∃ a, x = .ok a ∧ p a = true := by
  cases x <;> simp [Except.toOption]

theorem guard_ok {p : Prop} [Decidable p] {x y : α} {e : ε}
    (h : (if p then .ok x else .error e) = Except.ok y) : p ∧ x = y := by
  split at h
  next hp => exact ⟨hp, Except.ok.inj h⟩
  next => cases h

theorem mapM_ok {f : α → Except ε β} {g : α → β} {xs : List α}
    (h : ∀ a ∈ xs, f a = .ok (g a)) : xs.mapM f = .ok (xs.map g) := by
  induction xs with
  | nil => rfl
  | cons a xs ih =>
    rw [List.mapM_cons, h a List.mem_cons_self, ih fun b hb => h b (List.mem_cons_of_mem _ hb)]
    rfl

theorem mapM_congr_mem {f g : α → Except ε β} {xs : List α} (h : ∀ x ∈ xs, f x = g x) :
    xs.mapM f = xs.mapM g := by
  induction xs with
  | nil => rfl
  | cons x xs ih =>
    obtain ⟨hx, hxs⟩ := List.forall_mem_cons.mp h
    rw [List.mapM_cons, List.mapM_cons, hx, ih hxs]

theorem mapM_cons_ok {f : α → Except ε β} {x : α} {xs : List α} {ys : List β} :
    (x :: xs).mapM f = .ok ys ↔ ∃ y zs, f x = .ok y ∧ xs.mapM f = .ok zs ∧ ys = y :: zs := by
  simp only [List.mapM_cons, except_bind_ok]
  constructor
  · rintro ⟨y, hy, zs, hzs, h⟩
    exact ⟨y, zs, hy, hzs, (Except.ok.inj h).symm⟩
  · rintro ⟨y, zs, hy, hzs, rfl⟩
    exact ⟨y, hy, zs, hzs, rfl⟩

theorem mem_mapM_ok {f : α → Except ε β} {xs : List α} {ys : List β} (h : xs.mapM f = .ok ys)
    (y : β) : y ∈ ys ↔ ∃ x ∈ xs, f x = .ok y := by
  induction xs generalizing ys with
  | nil => cases Except.ok.inj h; simp
  | cons x xs ih =>
    obtain ⟨z, zs, hz, hzs, rfl⟩ := mapM_cons_ok.mp h
    simp [ih hzs, hz, eq_comm]

theorem mapM_ok_each {f : α → Except ε β} {xs : List α} {ys : List β} (h : xs.mapM f = .ok ys) :
    ∀ x ∈ xs, ∃ y, f x = .ok y := by
  induction xs generalizing ys with
  | nil => exact fun x hx => absurd hx List.not_mem_nil
  | cons a xs ih =>
    obtain ⟨z, zs, hz, hzs, rfl⟩ := mapM_cons_ok.mp h
    intro x hx
    rcases List.mem_cons.mp hx with rfl | hx
    · exact ⟨z, hz⟩
    · exact ih hzs x hx

/-- Where one of two lists has an element, the other one has its counterpart. -/
theorem forall₂_get? {R : α → β → Prop} {xs : List α} {ys : List β} (h : List.Forall₂ R xs ys)
    {i : Nat} {x : α} (hx : xs[i]? = some x) : ∃ y, ys[i]? = some y ∧ R x y := by
  induction h generalizing i with
  | nil => cases hx
  | @cons a b xs ys hab _ ih =>
    cases i with
    | zero => cases hx; exact ⟨b, rfl, hab⟩
    | succ i => exact ih hx

theorem mapM_ok_iff {f : α → Except ε β} {xs : List α} {ys : List β} :
    xs.mapM f = .ok ys ↔ List.Forall₂ (fun x y => f x = .ok y) xs ys := by
  constructor
  · intro h
    induction xs generalizing ys with
    | nil => cases h; exact .nil
    | cons x xs ih =>
      obtain ⟨y, zs, hy, hzs, rfl⟩ := mapM_cons_ok.mp h
      exact .cons hy (ih hzs)
  · intro h
    induction h with
    | nil => rfl
    | cons hx _ ih => exact mapM_cons_ok.mpr ⟨_, _, hx, ih, rfl⟩

theorem mapM_ok_forall₂ {f : α → Except ε β} {R : β → α → Prop} {xs : List α} {ys : List β}
    (h : xs.mapM f = .ok ys) (hr : ∀ x ∈ xs, ∀ y, f x = .ok y → R y x) : List.Forall₂ R ys xs := by
  induction xs generalizing ys with
  | nil => cases h; exact .nil
  | cons x xs ih =>
    obtain ⟨y, zs, hy, hzs, rfl⟩ := mapM_cons_ok.mp h
    obtain ⟨hx, hxs⟩ := List.forall_mem_cons.mp hr
    exact .cons (hx y hy) (ih hzs hxs)

/-- What holds of the elements so far, and is kept by one more, holds of all in the end. -/
theorem foldlM_prefix {f : β → α → Except ε β} {P : List α → β → Prop}
    (hf : ∀ xs a b b', P xs b → f b a = .ok b' → P (xs ++ [a]) b') {xs : List α} {b b' : β}
    (hb : P [] b) (h : xs.foldlM f b = .ok b') : P xs b' := by
  suffices hall : ∀ before, P before b → P (before ++ xs) b' from hall [] hb
  clear hb
  induction xs generalizing b with
  | nil =>
    cases h
    intro before hb
    rwa [List.append_nil]
  | cons a xs ih =>
    obtain ⟨c, hc, h⟩ := except_bind_ok.mp h
    intro before hb
    have hrest := ih h (before ++ [a]) (hf before a b c hb hc)
    rwa [List.append_assoc] at hrest

/-- A fold fails at one element, behind which the others are left. -/
theorem foldlM_error {f : β → α → Except ε β} {xs : List α} {b : β} {e : ε}
    (h : xs.foldlM f b = .error e) : ∃ before x left c,
      xs = before ++ x :: left ∧ before.foldlM f b = .ok c ∧ f c x = .error e := by
  induction xs generalizing b with
  | nil => cases h
  | cons a xs ih =>
    rw [List.foldlM_cons] at h
    rcases except_bind_error.mp h with ha | ⟨b', hb', h⟩
    · exact ⟨[], a, xs, b, rfl, rfl, ha⟩
    · obtain ⟨before, x, left, c, rfl, hbefore, hx⟩ := ih h
      refine ⟨a :: before, x, left, c, rfl, ?_, hx⟩
      rw [List.foldlM_cons, hb']
      exact hbefore

theorem foldlM_keeps {f : β → α → Except ε β} {P : β → Prop}
    (hf : ∀ a b b', P b → f b a = .ok b' → P b') {xs : List α} {b b' : β} (hb : P b)
    (h : xs.foldlM f b = .ok b') : P b' :=
  foldlM_prefix (P := fun _ b => P b) (fun _ a b b' hb ha => hf a b b' hb ha) hb h

/-- What each step brings about, and later steps keep, holds of all elements in the end. -/
theorem foldlM_each {f : β → α → Except ε β} {P : β → Prop} {Q : α → β → Prop} {xs : List α}
    (hf : ∀ a ∈ xs, ∀ b b', P b → f b a = .ok b' → P b' ∧ Q a b' ∧ ∀ c, Q c b → Q c b') {b b' : β}
    (hb : P b) (h : xs.foldlM f b = .ok b') : P b' ∧ (∀ a ∈ xs, Q a b') ∧ ∀ c, Q c b → Q c b' := by
  induction xs generalizing b with
  | nil =>
    cases h
    exact ⟨hb, by simp, fun _ hc => hc⟩
  | cons a xs ih =>
    obtain ⟨c, hc, h⟩ := except_bind_ok.mp h
    obtain ⟨hf, hfs⟩ := List.forall_mem_cons.mp hf
    obtain ⟨hpc, hqa, hkeep⟩ := hf b c hb hc
    obtain ⟨hp, hall, hlater⟩ := ih hfs hpc h
    exact ⟨hp, List.forall_mem_cons.mpr ⟨hlater a hqa, hall⟩, fun d hd => hlater d (hkeep d hd)⟩

theorem mapM_ok_map {f : α → Except ε β} {g : α → β} {xs : List α} (h : ∀ x ∈ xs, f x = .ok (g x)) :
    xs.mapM f = .ok (xs.map g) := by
  induction xs with
  | nil => rfl
  | cons x xs ih =>
    obtain ⟨hx, hxs⟩ := List.forall_mem_cons.mp h
    exact mapM_cons_ok.mpr ⟨g x, xs.map g, hx, ih hxs, rfl⟩

/-- Elements that a computation answers for without changing the state are answered for in turn. -/
theorem mapM_still {σ : Type} {f : α → ExceptT ε (StateM σ) β} {g : α → β} {s : σ} {xs : List α}
    (h : ∀ x ∈ xs, f x s = (.ok (g x), s)) : xs.mapM f s = (.ok (xs.map g), s) := by
  induction xs with
  | nil => rfl
  | cons x xs ih =>
    obtain ⟨hx, hxs⟩ := List.forall_mem_cons.mp h
    rw [List.mapM_cons, run_bind, hx]
    dsimp only
    rw [run_bind, ih hxs]
    rfl

theorem mapM_total {f : α → Except ε β} {xs : List α} (h : ∀ x ∈ xs, ∃ y, f x = .ok y) :
    ∃ ys, xs.mapM f = .ok ys ∧ ys.length = xs.length := by
  induction xs with
  | nil => exact ⟨[], rfl, rfl⟩
  | cons x xs ih =>
    obtain ⟨hx, hxs⟩ := List.forall_mem_cons.mp h
    obtain ⟨y, hy⟩ := hx
    obtain ⟨ys, hys, hlen⟩ := ih hxs
    exact ⟨y :: ys, mapM_cons_ok.mpr ⟨y, ys, hy, hys, rfl⟩, congrArg (· + 1) hlen⟩

end ClassGraft
