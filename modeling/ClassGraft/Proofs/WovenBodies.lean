import ClassGraft.Proofs.ControlRuns

namespace ClassGraft

/-- Without any knowledge, all branches may go either way. -/
def World.free (throws : NodeId → Prop) : World := ⟨fun _ => none, throws⟩

/-- What a body does not have pushes a value if it reads the flag, and does not throw. -/
def World.reading (b : Body) (flag : FieldRef) (v : Bool) (throws : NodeId → Prop) : World where
  pushed? e := if e.1 ∉ b.ids ∧ e.2 = .insn (.field .getStatic flag) then some v else none
  throws id := id ∈ b.ids ∧ throws id

namespace Body

/-- Guards, each of a read and a jump, and their labels have been put among some nodes of a body. -/
inductive Woven (b : Body) (flag : FieldRef) : List Entry → List Entry → Prop
  | nil : Woven b flag [] []
  | old {e : Entry} {es es' : List Entry} : e.1 ∈ b.ids → Woven b flag es es' →
      Woven b flag (e :: es) (e :: es')
  | label {id : NodeId} {l : Label} {es es' : List Entry} : id ∉ b.ids → b.nextLabel ≤ l.index →
      Woven b flag es es' → Woven b flag es ((id, .label l) :: es')
  | guard {i j : NodeId} {l : Label} {es es' : List Entry} : i ∉ b.ids → j ∉ b.ids →
      Woven b flag es es' →
      Woven b flag es
        ((i, .insn (.field .getStatic flag)) :: (j, .branch (.ifZero .ne l)) :: es')

/-- What there is in another body besides the nodes of the first one. -/
inductive Guarding (flag : FieldRef) : Node → Prop
  | label (l : Label) : Guarding flag (.label l)
  | read : Guarding flag (.insn (.field .getStatic flag))
  | jump (l : Label) : Guarding flag (.branch (.ifZero .ne l))

/-- The nodes of a body from a position on. -/
def onward (b : Body) (p : Nat) : List Entry := b.entries.toList.drop p

variable {b b' : Body} {flag : FieldRef} {p q r s : Nat} {e : Entry} {es es' xs ys : List Entry} {l : Label}
  {id i j : NodeId}

theorem onward_cons (h : b.entries[p]? = some e) : b.onward p = e :: b.onward (p + 1) := by
  rw [← Array.getElem?_toList] at h
  obtain ⟨hlt, rfl⟩ := List.getElem?_eq_some_iff.mp h
  exact List.drop_eq_getElem_cons hlt

theorem onward_eq_cons (h : b.onward p = e :: es) : b.entries[p]? = some e ∧ es = b.onward (p + 1) := by
  have he : b.entries[p]? = some e := by
    rw [← Array.getElem?_toList, ← List.head?_drop]
    exact congrArg List.head? h
  exact ⟨he, (List.cons.inj (h.symm.trans (onward_cons he))).2⟩

theorem mem_ids_of_entry (h : b.entries[p]? = some e) : e.1 ∈ b.ids :=
  List.mem_map_of_mem (Array.mem_toList_iff.mpr (Array.mem_of_getElem? h))

theorem onward_eq_nil : b.onward p = [] ↔ b.size ≤ p := List.drop_eq_nil_iff

theorem rel_map_right {α β γ : Type} {R : α → β → Prop} {S : α → γ → Prop} {x : Option α}
    {y : Option β} {g : β → γ} (h : Option.Rel R x y) (hg : ∀ a c, R a c → S a (g c)) :
    Option.Rel S x (y.map g) := by
  cases h with
  | none => exact .none
  | some h => exact .some (hg _ _ h)

theorem rel_map {α β γ δ : Type} {R : α → β → Prop} {S : γ → δ → Prop} {x : Option α} {y : Option β}
    {f : α → γ} {g : β → δ} (h : Option.Rel R x y) (hfg : ∀ a c, R a c → S (f a) (g c)) :
    Option.Rel S (x.map f) (y.map g) := by
  cases h with
  | none => exact .none
  | some h => exact .some (hfg _ _ h)

namespace Woven

theorem refl (h : ∀ e ∈ es, e.1 ∈ b.ids) : Woven b flag es es := by
  induction es with
  | nil => exact .nil
  | cons e es ih =>
    obtain ⟨he, hes⟩ := List.forall_mem_cons.mp h
    exact .old he (ih hes)

/-- From a node of the first body on, the entries may be replaced by others that go with the same nodes. -/
theorem replace {zs : List Entry} (h : Woven b flag es (xs ++ e :: ys)) (he : e.1 ∈ b.ids)
    (hzs : ∀ rest, Woven b flag rest ys → Woven b flag (e :: rest) zs) : Woven b flag es (xs ++ zs) := by
  -- The node is one of the first body, so it is not inside a guard that is there.
  generalize hsplit : xs ++ e :: ys = es' at h
  induction h generalizing xs with
  | nil => simp at hsplit
  | old he' hes ih =>
    cases xs with
    | nil =>
      cases hsplit
      exact hzs _ hes
    | cons x xs =>
      cases hsplit
      exact .old he' (ih rfl)
  | label hid hl hes ih =>
    cases xs with
    | nil =>
      cases hsplit
      exact (hid he).elim
    | cons x xs =>
      cases hsplit
      exact .label hid hl (ih rfl)
  | guard hi hj hes ih =>
    rcases xs with _ | ⟨x, _ | ⟨y, xs⟩⟩
    · cases hsplit
      exact (hi he).elim
    · cases hsplit
      exact (hj he).elim
    · cases hsplit
      exact .guard hi hj (ih rfl)

/-- A guard may be put before any node of the first body. -/
theorem insert_guard (h : Woven b flag es (xs ++ e :: ys)) (he : e.1 ∈ b.ids) (hi : i ∉ b.ids)
    (hj : j ∉ b.ids) : Woven b flag es
      (xs ++ (i, .insn (.field .getStatic flag)) :: (j, .branch (.ifZero .ne l)) :: e :: ys) :=
  h.replace he fun _ hes => .guard hi hj (.old he hes)

/-- A label may be put behind any node of the first body. -/
theorem insert_label (h : Woven b flag es (xs ++ e :: ys)) (he : e.1 ∈ b.ids) (hid : id ∉ b.ids)
    (hl : b.nextLabel ≤ l.index) : Woven b flag es (xs ++ e :: (id, .label l) :: ys) :=
  h.replace he fun _ hes => .old he (.label hid hl hes)

theorem old_head (h : Woven b flag es (e :: es')) (he : e.1 ∈ b.ids) :
    ∃ rest, es = e :: rest ∧ Woven b flag rest es' := by
  cases h with
  | old _ hes => exact ⟨_, rfl, hes⟩
  | label hid => exact (hid he).elim
  | guard hi => exact (hi he).elim

theorem new_head (h : Woven b flag es (e :: es')) (he : e.1 ∉ b.ids) :
    (∃ l, e.2 = .label l) ∧ Woven b flag es es' ∨
      e.2 = .insn (.field .getStatic flag) ∧ ∃ j l rest, j ∉ b.ids ∧
        es' = (j, .branch (.ifZero .ne l)) :: rest ∧ Woven b flag es rest := by
  cases h with
  | old ho => exact (he ho).elim
  | label _ _ hes => exact .inl ⟨⟨_, rfl⟩, hes⟩
  | guard _ hj hes => exact .inr ⟨rfl, _, _, _, hj, rfl, hes⟩

/-- Without what is new there is what was there before. -/
theorem erase (h : Woven b flag es es') : es'.filter (fun e => e.1 ∈ b.ids) = es := by
  induction h with
  | nil => rfl
  | old he _ ih => rw [List.filter_cons_of_pos (by simpa using he), ih]
  | label hid _ _ ih => rw [List.filter_cons_of_neg (by simpa using hid), ih]
  | guard hi hj _ ih =>
    rw [List.filter_cons_of_neg (by simpa using hi), List.filter_cons_of_neg (by simpa using hj), ih]

/-- The nodes at a position are those of the first body from some position on, with guards among them,
but for a jump the read of which is before the position. -/
theorem meet (h : Woven b flag es es') (q : Nat) :
    (∃ p, Woven b flag (es.drop p) (es'.drop q)) ∨
      ∃ p j l, es'[q]? = some (j, .branch (.ifZero .ne l)) ∧ j ∉ b.ids ∧
        Woven b flag (es.drop p) (es'.drop (q + 1)) := by
  induction h generalizing q with
  | nil => exact .inl ⟨0, by simpa using .nil⟩
  | old he hes ih =>
    cases q with
    | zero => exact .inl ⟨0, .old he hes⟩
    | succ q =>
      rcases ih q with ⟨p, hp⟩ | ⟨p, j, l, hj, hnew, hp⟩
      · exact .inl ⟨p + 1, hp⟩
      · exact .inr ⟨p + 1, j, l, hj, hnew, hp⟩
  | label hid hl hes ih =>
    cases q with
    | zero => exact .inl ⟨0, .label hid hl hes⟩
    | succ q => exact ih q
  | guard hi hj hes ih =>
    rcases q with _ | _ | q
    · exact .inl ⟨0, .guard hi hj hes⟩
    · exact .inr ⟨0, _, _, rfl, hj, hes⟩
    · exact ih q

/-- Every node of the first body is there. -/
theorem kept (h : Woven b flag es es') (he : es[p]? = some e) :
    ∃ q, es'[q]? = some e ∧ Woven b flag (es.drop p) (es'.drop q) := by
  induction h generalizing p with
  | nil => simp at he
  | old ho hes ih =>
    cases p with
    | zero => exact ⟨0, he, .old ho hes⟩
    | succ p =>
      obtain ⟨q, hq, hmeet⟩ := ih he
      exact ⟨q + 1, hq, hmeet⟩
  | label hid hl hes ih =>
    obtain ⟨q, hq, hmeet⟩ := ih he
    exact ⟨q + 1, hq, hmeet⟩
  | guard hi hj hes ih =>
    obtain ⟨q, hq, hmeet⟩ := ih he
    exact ⟨q + 2, hq, hmeet⟩

/-- An old label is placed in both bodies or in none. -/
theorem find_label (h : Woven b flag es es') (hl : l.index < b.nextLabel) :
    Option.Rel (fun p q => Woven b flag (es.drop p) (es'.drop q))
      (es.findIdx? fun e => e.2.label? == some l) (es'.findIdx? fun e => e.2.label? == some l) := by
  induction h with
  | nil => exact .none
  | @old e es es' he hes ih =>
    rw [List.findIdx?_cons, List.findIdx?_cons]
    split
    next => exact .some (.old he hes)
    next => exact rel_map ih fun _ _ hmeet => hmeet
  | @label id l' es es' hid hl' hes ih =>
    have hne : (Node.label? (.label l') == some l) = false := by
      refine beq_eq_false_iff_ne.mpr fun he => ?_
      cases he
      omega
    rw [List.findIdx?_cons, hne]
    refine rel_map_right ih fun _ _ hmeet => hmeet
  | guard hi hj hes ih =>
    rw [List.findIdx?_cons, List.findIdx?_cons]
    exact rel_map_right (rel_map_right ih fun _ _ hmeet => hmeet) fun _ _ hmeet => hmeet

/-- A node is from the first body or belongs to a guard. -/
theorem found (h : Woven b flag es es') (he : es'[q]? = some e) :
    (e.1 ∈ b.ids ∧ ∃ p, es[p]? = some e ∧ Woven b flag (es.drop p) (es'.drop q)) ∨
      e.1 ∉ b.ids ∧ Guarding flag e.2 := by
  induction h generalizing q with
  | nil => simp at he
  | old ho hes ih =>
    cases q with
    | zero =>
      cases he
      exact .inl ⟨ho, 0, rfl, .old ho hes⟩
    | succ q =>
      rcases ih he with ⟨hid, p, hp, hmeet⟩ | hnew
      · exact .inl ⟨hid, p + 1, hp, hmeet⟩
      · exact .inr hnew
  | label hid hl hes ih =>
    cases q with
    | zero =>
      cases he
      exact .inr ⟨hid, .label _⟩
    | succ q => exact ih he
  | guard hi hj hes ih =>
    rcases q with _ | _ | q
    · cases he
      exact .inr ⟨hi, .read⟩
    · cases he
      exact .inr ⟨hj, .jump _⟩
    · exact ih he

end Woven

/-- The nodes from one position on are those from another one on in the first body, with guards among
them. -/
def Meets (b b' : Body) (flag : FieldRef) (p q : Nat) : Prop :=
  b.Woven flag (b.onward p) (b'.onward q)

/-- Guards have been put among the nodes of a body, and nothing else is changed. -/
structure Weaves (b b' : Body) (flag : FieldRef) : Prop where
  woven : b.Woven flag b.entries.toList b'.entries.toList
  tryBlocks : b'.tryBlocks = b.tryBlocks

namespace Meets

/-- Where the nodes of the two bodies are the same. -/
theorem same (h : b.Meets b' flag p q) (he : b'.entries[q]? = some e) (ho : e.1 ∈ b.ids) :
    b.entries[p]? = some e ∧ b.Meets b' flag (p + 1) (q + 1) := by
  rw [Meets, onward_cons he] at h
  obtain ⟨rest, hp, hrest⟩ := h.old_head ho
  obtain ⟨he', rfl⟩ := onward_eq_cons hp
  exact ⟨he', hrest⟩

/-- Where there is no guard both bodies have the same. -/
theorem entry_eq (h : b.Meets b' flag p q) (hold : ∀ e, b'.entries[q]? = some e → e.1 ∈ b.ids) :
    b'.entries[q]? = b.entries[p]? := by
  cases he : b'.entries[q]? with
  | some e => exact (h.same he (hold e he)).1.symm
  | none =>
    have hq : b'.onward q = [] := onward_eq_nil.mpr (Array.getElem?_eq_none_iff.mp he)
    have hp := h.erase
    rw [hq] at hp
    exact (Array.getElem?_eq_none_iff.mpr (onward_eq_nil.mp hp.symm)).symm

/-- The nodes of the first body keep their order. -/
theorem le_iff (hrs : b.Meets b' flag r s) (h : b.Meets b' flag p q) (he : b'.entries[q]? = some e)
    (ho : e.1 ∈ b.ids) : r ≤ p ↔ s ≤ q := by
  -- The nodes of the first body from a position on are what is left of the others without guards, so
  -- positions compare as the lengths of what is left do.
  obtain ⟨hp, -⟩ := h.same he ho
  have hlt : p < b.entries.size := (Array.getElem?_eq_some_iff.mp hp).1
  have hlen (p : Nat) : (b.onward p).length = b.entries.size - p := by
    rw [onward, List.length_drop, Array.length_toList]
  have hsuffix {q s : Nat} (hle : q ≤ s) : (b'.onward s).Sublist (b'.onward q) := by
    have hdrop : b'.onward s = (b'.onward q).drop (s - q) := by
      rw [onward, onward, List.drop_drop]
      congr 1
      omega
    rw [hdrop]
    exact List.drop_sublist _ _
  constructor
  · intro hle
    by_contra hnot
    have hbefore : q + 1 ≤ s := Nat.lt_of_not_le hnot
    have hsub := ((hsuffix hbefore).filter fun e => decide (e.1 ∈ b.ids)).length_le
    have herase := h.erase
    rw [onward_cons he, List.filter_cons_of_pos (by simpa using ho)] at herase
    have hlength := congrArg List.length herase
    rw [List.length_cons, hlen] at hlength
    rw [hrs.erase, hlen] at hsub
    omega
  · intro hle
    have hsub := ((hsuffix hle).filter fun e => decide (e.1 ∈ b.ids)).length_le
    rw [h.erase, hrs.erase, hlen, hlen] at hsub
    omega

end Meets

namespace Weaves

theorem meets_start (h : b.Weaves b' flag) : b.Meets b' flag 0 0 := h.woven

theorem meets_end (b b' : Body) (flag : FieldRef) : b.Meets b' flag b.size b'.size := by
  rw [Meets, onward_eq_nil.mpr (Nat.le_refl _), onward_eq_nil.mpr (Nat.le_refl _)]
  exact .nil

theorem found (h : b.Weaves b' flag) (he : b'.entries[q]? = some e) :
    (e.1 ∈ b.ids ∧ ∃ p, b.entries[p]? = some e ∧ b.Meets b' flag p q) ∨
      e.1 ∉ b.ids ∧ Guarding flag e.2 := by
  rw [← Array.getElem?_toList] at he
  have hfound := h.woven.found he
  simp only [Array.getElem?_toList] at hfound
  exact hfound

theorem meet (h : b.Weaves b' flag) (q : Nat) : (∃ p, b.Meets b' flag p q) ∨
    ∃ p j l, b'.entries[q]? = some (j, .branch (.ifZero .ne l)) ∧ j ∉ b.ids ∧
      b.Meets b' flag p (q + 1) := by
  have hmeet := h.woven.meet q
  simp only [Array.getElem?_toList] at hmeet
  exact hmeet

theorem kept (h : b.Weaves b' flag) (he : b.entries[p]? = some e) :
    ∃ q, b'.entries[q]? = some e ∧ b.Meets b' flag p q := by
  rw [← Array.getElem?_toList] at he
  have hkept := h.woven.kept he
  simp only [Array.getElem?_toList] at hkept
  exact hkept

theorem label (h : b.Weaves b' flag) (hb : b.WellMade) (hl : l ∈ b.labels) :
    Option.Rel (b.Meets b' flag) (b.labelPosition? l) (b'.labelPosition? l) := by
  have hfind := h.woven.find_label (hb.labels l hl)
  rw [← List.findIdx?_toArray, ← List.findIdx?_toArray] at hfind
  exact hfind

theorem label_left (h : b.Weaves b' flag) (hb : b.WellMade) (hl : l ∈ b.labels)
    (hp : b.labelPosition? l = some p) :
    ∃ q, b'.labelPosition? l = some q ∧ b.Meets b' flag p q := by
  have hlabel := h.label hb hl
  rw [hp] at hlabel
  generalize b'.labelPosition? l = y at hlabel ⊢
  cases hlabel with
  | some hmeet => exact ⟨_, rfl, hmeet⟩

theorem label_right (h : b.Weaves b' flag) (hb : b.WellMade) (hl : l ∈ b.labels)
    (hq : b'.labelPosition? l = some q) :
    ∃ p, b.labelPosition? l = some p ∧ b.Meets b' flag p q := by
  have hlabel := h.label hb hl
  rw [hq] at hlabel
  generalize b.labelPosition? l = x at hlabel ⊢
  cases hlabel with
  | some hmeet => exact ⟨_, rfl, hmeet⟩

end Weaves

end Body

end ClassGraft
