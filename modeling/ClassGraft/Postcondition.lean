import ClassGraft.Bytes

namespace ClassGraft

variable {σ ε δ α β : Type}

/-- Whatever a computation fails with is of a kind. -/
def FailsOnly (E : ε → Prop) (x : Except ε α) : Prop := ∀ e, x = .error e → E e

namespace FailsOnly

variable {E : ε → Prop} {x : Except ε α}

theorem ok (a : α) : FailsOnly E (.ok a) := fun _ h => nomatch h

theorem error {e : ε} (h : E e) : FailsOnly E (.error e : Except ε α) := by
  intro e' he
  cases he
  exact h

theorem known {a : α} (h : x = .ok a) : FailsOnly E x := h ▸ .ok a

theorem bind {f : α → Except ε β} (hx : FailsOnly E x) (hf : ∀ a, x = .ok a → FailsOnly E (f a)) :
    FailsOnly E (x >>= f) := by
  cases x with
  | error e => exact .error (hx e rfl)
  | ok a => exact hf a rfl

theorem map {f : α → β} (hx : FailsOnly E x) : FailsOnly E (do return f (← x)) :=
  hx.bind fun _ _ => .ok _

theorem mapError {f : ε → δ} {D : δ → Prop} (h : ∀ e, x = .error e → D (f e)) :
    FailsOnly D (x.mapError f) := by
  cases x with
  | error e => exact .error (h e rfl)
  | ok a => exact .ok a

theorem ite {p : Prop} [Decidable p] {y : Except ε α} (hx : FailsOnly E x) (hy : FailsOnly E y) :
    FailsOnly E (if p then x else y) := by
  split
  · exact hx
  · exact hy

theorem foldlM {f : β → α → Except ε β} {xs : List α} (h : ∀ a ∈ xs, ∀ b, FailsOnly E (f b a))
    (b : β) : FailsOnly E (xs.foldlM f b) := by
  induction xs generalizing b with
  | nil => exact .ok b
  | cons a xs ih =>
    obtain ⟨ha, hxs⟩ := List.forall_mem_cons.mp h
    rw [List.foldlM_cons]
    exact (ha b).bind fun b' _ => ih hxs b'

theorem mapM {f : α → Except ε β} (h : ∀ a, FailsOnly E (f a)) (xs : List α) :
    FailsOnly E (xs.mapM f) := by
  induction xs with
  | nil => exact .ok []
  | cons a xs ih =>
    rw [List.mapM_cons]
    exact (h a).bind fun _ _ => ih.map

end FailsOnly

/-- What a computation gives is related to the states before and behind it, and what it fails with is of a
kind. -/
def Meets (Q : σ → α → σ → Prop) (E : ε → Prop) (m : StateT σ (Except ε) α) : Prop :=
  ∀ s, (∀ a t, m s = .ok (a, t) → Q s a t) ∧ FailsOnly E (m s)

namespace Meets

variable {E : ε → Prop} {Q : σ → α → σ → Prop} {R : σ → β → σ → Prop} {m : StateT σ (Except ε) α}

theorem result (h : Meets Q E m) {s t : σ} {a : α} (hm : m s = .ok (a, t)) : Q s a t := (h s).1 a t hm

theorem failure (h : Meets Q E m) {s : σ} {e : ε} (hm : m s = .error e) : E e := (h s).2 e hm

/-- Nothing is said of a computation. -/
theorem any (m : StateT σ (Except ε) α) : Meets (fun _ _ _ => True) (fun _ => True) m :=
  fun _ => ⟨fun _ _ _ => trivial, fun _ _ => trivial⟩

theorem pure {a : α} (h : ∀ s, Q s a s) : Meets Q E (Pure.pure a : StateT σ (Except ε) α) := by
  refine fun s => ⟨fun b t hb => ?_, .ok _⟩
  cases hb
  exact h s

theorem bind {m : StateT σ (Except ε) β} {f : β → StateT σ (Except ε) α} {S : β → σ → α → σ → Prop}
    (hm : Meets R E m) (hf : ∀ b, Meets (S b) E (f b)) (h : ∀ s b t a u, R s b t → S b t a u → Q s a u) :
    Meets Q E (m >>= f) := by
  intro s
  show (∀ a u, (m s >>= fun p => f p.1 p.2) = .ok (a, u) → Q s a u) ∧
    FailsOnly E (m s >>= fun p => f p.1 p.2)
  refine ⟨fun a u hu => ?_, (hm s).2.bind fun p _ => (hf p.1 p.2).2⟩
  cases hs : m s with
  | error e => rw [hs] at hu; cases hu
  | ok p =>
    rw [hs] at hu
    exact h s p.1 p.2 a u (hm.result hs) ((hf p.1).result hu)

theorem map {m : StateT σ (Except ε) β} {f : β → α} (hm : Meets R E m) (h : ∀ s b t, R s b t → Q s (f b) t) :
    Meets Q E (do return f (← m)) :=
  .bind (S := fun b s a t => a = f b ∧ s = t) hm (fun _ => .pure fun _ => ⟨rfl, rfl⟩) (by
    rintro s b t _ _ hR ⟨rfl, rfl⟩
    exact h s b t hR)

theorem ite {p : Prop} [Decidable p] {n : StateT σ (Except ε) α} (hm : p → Meets Q E m)
    (hn : ¬p → Meets Q E n) : Meets Q E (if p then m else n) := by
  split
  next hp => exact hm hp
  next hp => exact hn hp

/-- Values are read in a row: each reading is one more step. -/
theorem collect {item : StateT σ (Except ε) β} {Q : List β → σ → List β → σ → Prop} (hi : Meets R E item)
    (hnil : ∀ acc s, Q acc s acc.reverse s)
    (hcons : ∀ acc s b t xs u, R s b t → Q (b :: acc) t xs u → Q acc s xs u) (n : Nat) (acc : List β) :
    Meets (Q acc) E (Reader.collect item n acc) := by
  induction n generalizing acc with
  | zero =>
    refine fun s => ⟨fun xs t h => ?_, .ok _⟩
    cases h
    exact hnil acc s
  | succ n ih =>
    intro s
    cases hs : item s with
    | error e =>
      rw [Reader.collect, hs]
      exact ⟨fun _ _ h => (nomatch h), .error (hi.failure hs)⟩
    | ok p =>
      obtain ⟨hresult, hfailure⟩ := ih (p.1 :: acc) p.2
      rw [Reader.collect, hs]
      exact ⟨fun xs u hu => hcons acc s p.1 p.2 xs u (hi.result hs) (hresult xs u hu), hfailure⟩

end Meets

end ClassGraft
