import ClassGraft.Proofs.EditedNodes

namespace ClassGraft

namespace Body

variable {b b' : Body} {p q r : Nat} {ns : List Node} {n old : Node} {l : Label} {u : NewSite}
  {e : BodyEdit} {id : NodeId}

namespace Inserts

theorem get?_low (h : b.Inserts b' p ns) (hq : q < p) : b'.get? q = b.get? q := by
  have := h.le
  rw [← nodes_get?, ← nodes_get?, h.nodes, List.append_assoc,
    List.getElem?_append_left (by rw [List.length_take]; omega), List.getElem?_take, if_pos hq]

theorem get?_new (h : b.Inserts b' p ns) (hq : q < ns.length) : b'.get? (p + q) = ns[q]? := by
  have hlen : (b.nodes.take p).length = p := List.length_take_of_le h.le
  rw [← nodes_get?, h.nodes, List.append_assoc, List.getElem?_append_right (by omega), hlen,
    List.getElem?_append_left (by omega), Nat.add_sub_cancel_left]

theorem get?_high (h : b.Inserts b' p ns) (hq : p ≤ q) : b'.get? (q + ns.length) = b.get? q := by
  have hlen : (b.nodes.take p).length = p := List.length_take_of_le h.le
  rw [← nodes_get?, ← nodes_get?, h.nodes, List.getElem?_append_right
    (by rw [List.length_append]; omega), List.length_append, hlen, List.getElem?_drop]
  congr 1
  omega

/-- Where the node at a position is behind an insertion. -/
theorem get?_old (h : b.Inserts b' p ns) (q : Nat) :
    b'.get? (if q < p then q else q + ns.length) = b.get? q := by
  split
  next hq => exact h.get?_low hq
  next hq => exact h.get?_high (Nat.le_of_not_lt hq)

theorem labelPosition? (h : b.Inserts b' p ns) (hl : b.labelPosition? l = some q) :
    b'.labelPosition? l = some (if q < p then q else q + ns.length) := by
  obtain ⟨⟨n, hn, hnl⟩, hfirst⟩ := labelPosition?_eq_some.mp hl
  have hplaced : b.isPlaced l = true := isPlaced_iff.mpr ⟨q, n, hn, hnl⟩
  refine labelPosition?_eq_some.mpr ⟨⟨n, by rw [h.get?_old, hn], hnl⟩, fun j hj m hm hml => ?_⟩
  by_cases hlow : j < p
  · rw [h.get?_low hlow] at hm
    refine hfirst j ?_ m hm hml
    split at hj <;> omega
  · by_cases hnew : j < p + ns.length
    · obtain ⟨i, rfl⟩ := Nat.exists_eq_add_of_le (Nat.le_of_not_lt hlow)
      rw [h.get?_new (by omega)] at hm
      rw [h.fresh m (List.mem_of_getElem? hm) l hml] at hplaced
      cases hplaced
    · have hback := h.get?_high (show p ≤ j - ns.length by omega)
      rw [Nat.sub_add_cancel (by omega)] at hback
      refine hfirst (j - ns.length) ?_ m (by rw [← hback, hm]) hml
      split at hj <;> omega

/-- From a position before the insertion the way leads over what has been inserted. -/
theorem instructionFrom?_over (h : b.Inserts b' p ns) (hi : b.instructionFrom? q = some r)
    (hq : q < p) (hr : p ≤ r) : b'.instructionFrom? q = b'.instructionFrom? p := by
  obtain ⟨-, -, hskip⟩ := instructionFrom?_eq_some.mp hi
  refine instructionFrom?_skip (Nat.le_of_lt hq) fun k hk hlt => ?_
  rw [h.get?_low hlt]
  exact hskip k hk (by omega)

theorem instructionFrom?_before (h : b.Inserts b' p ns) (hi : b.instructionFrom? q = some r)
    (hr : r < p) : b'.instructionFrom? q = some r := by
  obtain ⟨hle, ⟨n, hn, hreal⟩, hskip⟩ := instructionFrom?_eq_some.mp hi
  refine instructionFrom?_eq_some.mpr ⟨hle, ⟨n, (h.get?_low hr).trans hn, hreal⟩, fun k hk hlt => ?_⟩
  rw [h.get?_low (Nat.lt_trans hlt hr)]
  exact hskip k hk hlt

theorem instructionFrom?_behind (h : b.Inserts b' p ns) (hi : b.instructionFrom? q = some r)
    (hq : p ≤ q) : b'.instructionFrom? (q + ns.length) = some (r + ns.length) := by
  obtain ⟨hle, ⟨n, hn, hreal⟩, hskip⟩ := instructionFrom?_eq_some.mp hi
  refine instructionFrom?_eq_some.mpr ⟨by omega, ⟨n, ?_, hreal⟩, fun k hk hlt => ?_⟩
  · rw [h.get?_high (by omega), hn]
  · have hback := h.get?_high (show p ≤ k - ns.length by omega)
    rw [Nat.sub_add_cancel (by omega)] at hback
    rw [hback]
    exact hskip _ (by omega) (by omega)

/-- What has been inserted leads to its own first instruction, or on if it has none. -/
theorem instructionFrom?_new (h : b.Inserts b' p ns) :
    (∃ i n, ns.find? (fun n => !n.isPseudo) = some n ∧ b'.get? (p + i) = some n ∧
        b'.instructionFrom? p = some (p + i)) ∨
      ns.find? (fun n => !n.isPseudo) = none ∧
        b'.instructionFrom? p = b'.instructionFrom? (p + ns.length) := by
  cases hfind : ns.find? fun n => !n.isPseudo with
  | some n =>
    obtain ⟨hreal, i, hi, hin, hbefore⟩ := List.find?_eq_some_iff_getElem.mp hfind
    have hget : b'.get? (p + i) = some n := by
      rw [h.get?_new hi, List.getElem?_eq_getElem hi, hin]
    refine .inl ⟨i, n, rfl, hget, instructionFrom?_eq_some.mpr
      ⟨Nat.le_add_right _ _, ⟨n, hget, by simpa using hreal⟩, fun k hk hlt => ?_⟩⟩
    obtain ⟨j, rfl⟩ := Nat.exists_eq_add_of_le hk
    have hj : j < i := by omega
    exact ⟨ns[j], by rw [h.get?_new (by omega), List.getElem?_eq_getElem], by
      simpa using hbefore j hj⟩
  | none =>
    refine .inr ⟨rfl, instructionFrom?_skip (Nat.le_add_right _ _) fun k hk hlt => ?_⟩
    obtain ⟨j, rfl⟩ := Nat.exists_eq_add_of_le hk
    have hj : j < ns.length := by omega
    refine ⟨ns[j], by rw [h.get?_new hj, List.getElem?_eq_getElem], ?_⟩
    simpa using List.find?_eq_none.mp hfind ns[j] (List.getElem_mem hj)

/-- An insertion unties a site just where it comes between its label and its `new`, unless it brings
another `new` of the class. -/
theorem ties_iff (h : b.Inserts b' p ns) (hu : b.Ties u) : b'.Ties u ↔
    ∀ q r n, b.labelPosition? u.label = some q → b.labelTarget u.label = .ok (some r) → q < p →
      p ≤ r → ns.find? (fun n => !n.isPseudo) = some n → n = .insn (.new u.type) := by
  obtain ⟨r, hr, hnew⟩ := hu
  obtain ⟨q, hq, hi⟩ := labelTarget_ok.mp hr
  have hpos := h.labelPosition? hq
  have hle := (instructionFrom?_spec hi).1
  by_cases hqp : q < p
  · rw [if_pos hqp] at hpos
    by_cases hpr : p ≤ r
    · have hover := h.instructionFrom?_over hi hqp hpr
      rcases h.instructionFrom?_new with ⟨i, n, hfind, hget, hfrom⟩ | ⟨hfind, hfrom⟩
      · rw [ties_at hpos (hover.trans hfrom) hget]
        constructor
        · rintro rfl q' r' m - - - - hm
          exact (Option.some.inj (hfind.symm.trans hm)).symm
        · intro hall
          exact hall q r n hq hr hqp hpr hfind
      · have hbehind : b'.instructionFrom? (p + ns.length) = some (r + ns.length) :=
          h.instructionFrom?_behind (instructionFrom?_eq_some.mpr
            ⟨hpr, ⟨_, hnew, rfl⟩, fun k hk hlt =>
              (instructionFrom?_eq_some.mp hi).2.2 k (by omega) hlt⟩) (Nat.le_refl p)
        have htrue := (ties_at hpos (hover.trans (hfrom.trans hbehind))
          ((h.get?_high hpr).trans hnew)).mpr rfl
        refine ⟨fun _ q' r' m _ _ _ _ hm => ?_, fun _ => htrue⟩
        rw [hfind] at hm
        cases hm
    · have hrp : r < p := Nat.lt_of_not_le hpr
      have htrue := (ties_at hpos (h.instructionFrom?_before hi hrp)
        ((h.get?_low hrp).trans hnew)).mpr rfl
      refine ⟨fun _ q' r' m _ hr' _ hpr' _ => ?_, fun _ => htrue⟩
      cases Option.some.inj (Except.ok.inj (hr.symm.trans hr'))
      exact absurd hpr' hpr
  · rw [if_neg hqp] at hpos
    have hqp' := Nat.le_of_not_lt hqp
    have htrue := (ties_at hpos (h.instructionFrom?_behind hi hqp')
      ((h.get?_high (by omega)).trans hnew)).mpr rfl
    refine ⟨fun _ q' r' m hq' _ hlt _ _ => ?_, fun _ => htrue⟩
    cases Option.some.inj (hq.symm.trans hq')
    exact absurd hlt hqp

theorem labelsOnce (h : b.Inserts b' p ns) (hb : b.LabelsOnce) : b'.LabelsOnce := by
  unfold LabelsOnce placedLabels at hb ⊢
  rw [h.nodes, List.append_assoc]
  have hsplit : (b.nodes.take p).filterMap Node.label? ++ (b.nodes.drop p).filterMap Node.label? =
      b.nodes.filterMap Node.label? := by
    rw [← List.filterMap_append, List.take_append_drop]
  have hfresh : ∀ l ∈ ns.filterMap Node.label?, l ∉ b.nodes.filterMap Node.label? := by
    intro l hl hold
    obtain ⟨n, hn, hnl⟩ := List.mem_filterMap.mp hl
    have hnot := h.fresh n hn l hnl
    rw [isPlaced_mem.mpr hold] at hnot
    cases hnot
  rw [← hsplit] at hb hfresh
  rw [List.filterMap_append, List.filterMap_append, List.nodup_append]
  obtain ⟨hlow, hhigh, hapart⟩ := List.nodup_append.mp hb
  refine ⟨hlow, List.nodup_append.mpr ⟨h.distinct, hhigh, fun l hl m hm he => ?_⟩,
    fun l hl m hm he => ?_⟩
  · exact hfresh l hl (he ▸ List.mem_append_right _ hm)
  · rcases List.mem_append.mp hm with hm | hm
    · exact hfresh m hm (he ▸ List.mem_append_left _ hl)
    · exact hapart l hl m hm he

end Inserts

namespace Swaps

variable {new : Node}

theorem get? (h : b.Swaps b' p old new) (q : Nat) :
    b'.get? q = if p = q then some new else b.get? q := by
  have hlt : p < b.nodes.length := by
    rw [nodes_length]
    exact lt_size_of_get? h.here
  rw [← nodes_get?, ← nodes_get?, h.nodes, List.getElem?_set]
  by_cases hpq : p = q
  · subst hpq
    rw [if_pos rfl, if_pos rfl, if_pos hlt]
  · rw [if_neg hpq, if_neg hpq]

theorem pseudo_iff (h : b.Swaps b' p old new) (hn : n.isPseudo = true) :
    b'.get? q = some n ↔ b.get? q = some n := by
  rw [h.get?]
  split
  next he =>
    subst he
    rw [h.here]
    obtain ⟨hold, hnew⟩ := h.reals
    constructor
    · intro he
      cases he
      rw [hn] at hnew
      cases hnew
    · intro he
      cases he
      rw [hn] at hold
      cases hold
  next => rfl

theorem real_iff (h : b.Swaps b' p old new) :
    (∃ n, b'.get? q = some n ∧ n.isPseudo = false) ↔ ∃ n, b.get? q = some n ∧ n.isPseudo = false := by
  rw [h.get?]
  split
  next he =>
    subst he
    exact ⟨fun _ => ⟨old, h.here, h.reals.1⟩, fun _ => ⟨new, rfl, h.reals.2⟩⟩
  next => rfl

theorem placed_iff (h : b.Swaps b' p old new) :
    (∃ n, b'.get? q = some n ∧ n.label? = some l) ↔ ∃ n, b.get? q = some n ∧ n.label? = some l := by
  have hpseudo {n : Node} (hl : n.label? = some l) : n.isPseudo = true := by
    cases n with
    | label _ => rfl
    | _ => cases hl
  constructor
  · rintro ⟨n, hn, hl⟩
    exact ⟨n, (h.pseudo_iff (hpseudo hl)).mp hn, hl⟩
  · rintro ⟨n, hn, hl⟩
    exact ⟨n, (h.pseudo_iff (hpseudo hl)).mpr hn, hl⟩

/-- Another operand changes nothing about where labels lead. -/
theorem labelTarget_iff (h : b.Swaps b' p old new) :
    b'.labelTarget l = .ok (some r) ↔ b.labelTarget l = .ok (some r) := by
  have hpos (q : Nat) : b'.labelPosition? l = some q ↔ b.labelPosition? l = some q := by
    rw [labelPosition?_eq_some, labelPosition?_eq_some, h.placed_iff]
    refine and_congr_right fun _ => forall₂_congr fun j _ => ?_
    constructor
    · intro hno n hn hl
      obtain ⟨m, hm, hml⟩ := h.placed_iff.mpr ⟨n, hn, hl⟩
      exact hno m hm hml
    · intro hno n hn hl
      obtain ⟨m, hm, hml⟩ := h.placed_iff.mp ⟨n, hn, hl⟩
      exact hno m hm hml
  have hfrom (q : Nat) : b'.instructionFrom? q = some r ↔ b.instructionFrom? q = some r := by
    rw [instructionFrom?_eq_some, instructionFrom?_eq_some, h.real_iff]
    refine and_congr_right fun _ => and_congr_right fun _ => forall₃_congr fun k _ _ => ?_
    exact exists_congr fun n => ⟨fun ⟨hn, hp⟩ => ⟨(h.pseudo_iff hp).mp hn, hp⟩,
      fun ⟨hn, hp⟩ => ⟨(h.pseudo_iff hp).mpr hn, hp⟩⟩
  rw [labelTarget_ok, labelTarget_ok]
  exact exists_congr fun q => and_congr (hpos q) (hfrom q)

/-- A site is tied as long as the `new` stays where its label leads. -/
theorem ties_iff (h : b.Swaps b' p old new) (hr : b.labelTarget u.label = .ok (some r)) :
    b'.Ties u ↔ b'.get? r = some (.insn (.new u.type)) := by
  constructor
  · rintro ⟨s, hs, hget⟩
    cases Option.some.inj (Except.ok.inj (hr.symm.trans (h.labelTarget_iff.mp hs)))
    exact hget
  · exact fun hget => ⟨r, h.labelTarget_iff.mpr hr, hget⟩

theorem labelsOnce (h : b.Swaps b' p old new) (hb : b.LabelsOnce) : b'.LabelsOnce := by
  have hlt : p < b.nodes.length := by
    rw [nodes_length]
    exact lt_size_of_get? h.here
  have hold : b.nodes[p] = old := by
    have := h.here
    rw [← nodes_get?, List.getElem?_eq_getElem hlt] at this
    exact Option.some.inj this
  have hsame : b'.placedLabels = b.placedLabels := by
    have hsplit : b.nodes = b.nodes.take p ++ old :: b.nodes.drop (p + 1) := by
      rw [← hold, ← List.drop_eq_getElem_cons hlt, List.take_append_drop]
    have hkeep := congrArg (List.filterMap Node.label?) hsplit
    unfold placedLabels
    rw [hkeep, h.nodes, List.set_eq_take_append_cons_drop, if_pos hlt, List.filterMap_append,
      List.filterMap_append, List.filterMap_cons_none (label?_real h.reals.1),
      List.filterMap_cons_none (label?_real h.reals.2)]
  unfold LabelsOnce
  rw [hsame]
  exact hb

end Swaps

theorem withOperand?_new {new : Node} {o : Operand} {c : BinaryName}
    (h : (Node.insn (.new c)).withOperand? o = some new) :
    ∃ d, o = .type (.object d) ∧ new = .insn (.new d) := by
  cases o with
  | type t =>
    cases t with
    | object d => cases h; exact ⟨d, rfl, rfl⟩
    | _ => cases h
  | _ => cases h

/-- A site that is tied stays tied unless the edit parts it from its `new`. -/
theorem Ties.edit (hu : b.Ties u) (h : b.edit e = .ok b') : b'.Ties u ↔ ¬ b.Parts u e := by
  obtain ⟨r, hr, hnew⟩ := hu
  rcases edit_cases h with ⟨p, ns, hins, hb⟩ | ⟨id, o, p, old, new, rfl, hp, ho, hb⟩ | ⟨rfl, rfl⟩
  · rw [hb.ties_iff ⟨r, hr, hnew⟩]
    constructor
    · intro hall hparts
      cases hparts with
      | between hins' hq hr' hlt hle hfind hne =>
        cases Option.some.inj (hins.symm.trans hins')
        exact hne (hall _ _ _ hq hr' hlt hle hfind)
      | retyped => cases hins
    · intro hnot q r' n hq hr' hlt hle hfind
      by_cases hn : n = .insn (.new u.type)
      · exact hn
      · exact absurd (.between hins hq hr' hlt hle hfind hn) hnot
  · rw [hb.ties_iff hr, hb.get?]
    split
    next he =>
      subst he
      cases Option.some.inj (hnew.symm.trans hb.here)
      obtain ⟨d, rfl, rfl⟩ := withOperand?_new ho
      constructor
      · intro hd hparts
        cases hd
        cases hparts with
        | between hins => cases hins
        | retyped _ _ hne => exact hne rfl
      · intro hnot
        by_cases hd : d = u.type
        · rw [hd]
        · exact absurd (.retyped hr hp hd) hnot
    next hne =>
      refine ⟨fun _ hparts => ?_, fun _ => hnew⟩
      cases hparts with
      | between hins => cases hins
      | retyped hr' hp' _ =>
        cases Option.some.inj (Except.ok.inj (hr.symm.trans hr'))
        exact hne (Option.some.inj (hp.symm.trans hp'))
  · have hget : ∀ p, b.newLabel.2.get? p = b.get? p := fun _ => rfl
    refine ⟨fun _ hparts => ?_, fun _ => ⟨r, (labelTarget_congr hget).mpr hr, hnew⟩⟩
    cases hparts with
    | between hins => cases hins

theorem LabelsOnce.edit (hb : b.LabelsOnce) (h : b.edit e = .ok b') : b'.LabelsOnce := by
  rcases edit_cases h with ⟨p, ns, -, hi⟩ | ⟨id, o, p, old, new, -, -, -, hs⟩ | ⟨-, rfl⟩
  · exact hi.labelsOnce hb
  · exact hs.labelsOnce hb
  · exact hb

theorem LabelsOnce.editAll {es : List BodyEdit} (hb : b.LabelsOnce) (h : b.editAll es = .ok b') :
    b'.LabelsOnce := by
  induction es generalizing b with
  | nil => cases h; exact hb
  | cons e es ih =>
    obtain ⟨b₁, h₁, h⟩ := except_bind_ok.mp h
    exact ih (hb.edit h₁) h

/-- No frame is lost. -/
theorem Uses.edit (hu : b.Uses u) (h : b.edit e = .ok b') : b'.Uses u := by
  obtain ⟨f, hf, hm⟩ := hu
  refine ⟨f, ?_, hm⟩
  rcases edit_cases h with ⟨p, ns, -, hi⟩ | ⟨id, o, p, old, new, -, -, -, hs⟩ | ⟨-, rfl⟩
  · rw [← List.take_append_drop p b.nodes] at hf
    rw [hi.nodes, List.append_assoc]
    rcases List.mem_append.mp hf with hf | hf
    · exact List.mem_append_left _ hf
    · exact List.mem_append_right _ (List.mem_append_right _ hf)
  · obtain ⟨q, hq⟩ := List.mem_iff_getElem?.mp hf
    have hq' := (hs.pseudo_iff rfl).mpr ((nodes_get? b q).symm.trans hq)
    exact List.mem_of_getElem? ((nodes_get? b' q).trans hq')
  · exact hf

/-- An edit keeps all frames tied just where it parts none of their sites and brings no frame that is
not tied. -/
theorem Tied.edit_iff (hb : b.Tied) (h : b.edit e = .ok b') : b'.Tied ↔
    (∀ u, b.Uses u → ¬ b.Parts u e) ∧ ∀ u, b'.Uses u → b.Uses u ∨ b'.Ties u := by
  constructor
  · intro hb'
    refine ⟨fun u hu => ?_, fun u hu => .inr (hb' u hu)⟩
    exact ((hb u hu).edit h).mp (hb' u (hu.edit h))
  · rintro ⟨hspared, hnew⟩ u hu
    rcases hnew u hu with hold | hties
    · exact ((hb u hold).edit h).mpr (hspared u hold)
    · exact hties

/-- Edits spare the sites just where all frames are tied behind each of them. -/
theorem Tied.spares_iff {es : List BodyEdit} (hb : b.Tied) (h : b.editAll es = .ok b') :
    b.Spares es ↔ ∀ ds b₁, ds <+: es → b.editAll ds = .ok b₁ → b₁.Tied := by
  induction es generalizing b with
  | nil =>
    refine ⟨fun _ ds b₁ hds h₁ => ?_, fun _ => trivial⟩
    rw [List.prefix_nil] at hds
    subst hds
    cases h₁
    exact hb
  | cons e es ih =>
    obtain ⟨b₁, h₁, h⟩ := except_bind_ok.mp h
    have hone : b.editAll [e] = .ok b₁ := by
      rw [Body.editAll, List.foldlM_cons, h₁]
      rfl
    constructor
    · rintro ⟨hspared, hrest⟩ ds b₂ hds h₂
      obtain ⟨hnew, hs⟩ := hrest b₁ h₁
      have hb₁ : b₁.Tied := (hb.edit_iff h₁).mpr ⟨hspared, hnew⟩
      rcases List.prefix_cons_iff.mp hds with rfl | ⟨rest, rfl, hrest⟩
      · cases h₂
        exact hb
      · obtain ⟨b₃, h₃, h₂⟩ := except_bind_ok.mp h₂
        cases Except.ok.inj (h₁.symm.trans h₃)
        exact (ih hb₁ h).mp hs rest b₂ hrest h₂
    · intro htied
      have hb₁ : b₁.Tied := htied [e] b₁ (List.prefix_append [e] es) hone
      obtain ⟨hspared, hnew⟩ := (hb.edit_iff h₁).mp hb₁
      refine ⟨hspared, fun b₂ h₂ => ?_⟩
      cases Except.ok.inj (h₁.symm.trans h₂)
      refine ⟨hnew, (ih hb₁ h).mpr fun ds b₃ hds h₃ => ?_⟩
      refine htied (e :: ds) b₃ (List.prefix_cons_inj e |>.mpr hds) ?_
      rw [Body.editAll, List.foldlM_cons, h₁]
      exact h₃

end Body

end ClassGraft
