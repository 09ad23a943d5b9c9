import ClassGraft.Proofs.NodeLookup

namespace ClassGraft

def Node.isFrame : Node → Bool
  | .frame _ => true
  | _ => false

namespace Body

/-- The instructions of a body in order, with their ids. -/
def instructions (b : Body) : List Entry := b.entries.toList.filter fun e => !e.2.isPseudo

def frameCount (b : Body) : Nat := b.entries.toList.countP fun e => e.2.isFrame

variable {b b' : Body} {p q : Nat} {n : Node} {l : Label} {id : NodeId}

/-- The nodes of a body are in another one in the same order, and what is new there is of some kind. -/
structure Embeds (added : Node → Prop) (b b' : Body) (place : Nat → Nat) : Prop where
  mono : ∀ {p q}, p < q → place p < place q
  kept : ∀ p, b'.entries[place p]? = b.entries[p]?
  fresh : ∀ q, (∃ p, place p = q) ∨ ∃ id n, b'.entries[q]? = some (id, n) ∧ added n ∧
    b.nextId ≤ id.index ∧ ∀ l, n.label? = some l → b.isPlaced l = false
  instructions : b'.instructions = b.instructions
  nextId : b.nextId ≤ b'.nextId
  edits : b'.edits = b.edits
  tryBlocks : b'.tryBlocks = b.tryBlocks
  locals : b'.locals = b.locals

namespace Embeds

variable {added : Node → Prop} {place : Nat → Nat}

theorem refl (added : Node → Prop) (b : Body) : b.Embeds added b fun p => p :=
  ⟨fun h => h, fun _ => rfl, fun q => .inl ⟨q, rfl⟩, rfl, Nat.le_refl _, rfl, rfl, rfl⟩

theorem imp {added' : Node → Prop} (h : b.Embeds added b' place) (hi : ∀ n, added n → added' n) :
    b.Embeds added' b' place :=
  { h with
    fresh q := (h.fresh q).imp_right fun ⟨id, n, hn, ha, hid, hl⟩ => ⟨id, n, hn, hi n ha, hid, hl⟩ }

theorem get?_place (h : b.Embeds added b' place) (p : Nat) : b'.get? (place p) = b.get? p := by
  rw [get?, get?, h.kept]

theorem place_lt_size (h : b.Embeds added b' place) (hp : p < b.size) : place p < b'.size := by
  have he : b'.entries[place p]? = some b.entries[p] :=
    (h.kept p).trans (Array.getElem?_eq_getElem hp)
  exact lt_size_of_get? (get?_of_entry he)

theorem isPlaced (h : b.Embeds added b' place) (hl : b.isPlaced l = true) :
    b'.isPlaced l = true := by
  obtain ⟨p, n, hn, hl⟩ := isPlaced_iff.mp hl
  exact isPlaced_iff.mpr ⟨place p, n, by rw [h.get?_place, hn], hl⟩

theorem trans {b'' : Body} {place' : Nat → Nat} (h : b.Embeds added b' place)
    (k : b'.Embeds added b'' place') : b.Embeds added b'' fun p => place' (place p) where
  mono hlt := k.mono (h.mono hlt)
  kept p := by rw [k.kept, h.kept]
  fresh q := by
    rcases k.fresh q with ⟨r, rfl⟩ | ⟨id, n, hn, ha, hid, hl⟩
    · rcases h.fresh r with ⟨p, rfl⟩ | ⟨id, n, hn, ha, hid, hl⟩
      · exact .inl ⟨p, rfl⟩
      · exact .inr ⟨id, n, by rw [k.kept, hn], ha, hid, hl⟩
    · refine .inr ⟨id, n, hn, ha, Nat.le_trans h.nextId hid, fun l hnl => ?_⟩
      cases hp : b.isPlaced l with
      | false => rfl
      | true => rw [← hl l hnl, h.isPlaced hp]
  instructions := k.instructions.trans h.instructions
  nextId := Nat.le_trans h.nextId k.nextId
  edits := k.edits.trans h.edits
  tryBlocks := k.tryBlocks.trans h.tryBlocks
  locals := k.locals.trans h.locals

theorem lt_iff (h : b.Embeds added b' place) : place p < place q ↔ p < q := by
  constructor
  · intro hlt
    rcases Nat.lt_trichotomy p q with hpq | rfl | hqp
    · exact hpq
    · omega
    · have := h.mono hqp
      omega
  · exact h.mono

theorem le_iff (h : b.Embeds added b' place) : place p ≤ place q ↔ p ≤ q := by
  rw [← Nat.not_lt, h.lt_iff, Nat.not_lt]

theorem inj (h : b.Embeds added b' place) (he : place p = place q) : p = q :=
  Nat.le_antisymm (h.le_iff.mp (Nat.le_of_eq he)) (h.le_iff.mp (Nat.le_of_eq he.symm))

theorem real (h : b.Embeds added b' place) (hadded : ∀ n, added n → n.isPseudo = true)
    (hn : b'.get? q = some n) (hr : n.isPseudo = false) : ∃ p, place p = q ∧ b.get? p = some n := by
  rcases h.fresh q with ⟨p, rfl⟩ | ⟨id, m, hm, ha, -⟩
  · exact ⟨p, rfl, by rw [← h.get?_place, hn]⟩
  · cases Option.some.inj (hn.symm.trans (get?_of_entry hm))
    rw [hadded n ha] at hr
    cases hr

/-- Between neighbours there is only what is new. -/
theorem between (h : b.Embeds added b' place) (hp : place p < q) (hq : q < place (p + 1)) :
    ∃ n, b'.get? q = some n ∧ added n := by
  rcases h.fresh q with ⟨r, rfl⟩ | ⟨id, n, hn, ha, -⟩
  · have := h.lt_iff.mp hp
    have := h.lt_iff.mp hq
    omega
  · exact ⟨n, by rw [get?, hn]; rfl, ha⟩

theorem before (h : b.Embeds added b' place) (hq : q < place 0) :
    ∃ n, b'.get? q = some n ∧ added n := by
  rcases h.fresh q with ⟨r, rfl⟩ | ⟨id, n, hn, ha, -⟩
  · have := h.lt_iff.mp hq
    omega
  · exact ⟨n, by rw [get?, hn]; rfl, ha⟩

theorem labelPosition?_place (h : b.Embeds added b' place) (hl : b.labelPosition? l = some p) :
    b'.labelPosition? l = some (place p) := by
  obtain ⟨⟨n, hn, hnl⟩, hfirst⟩ := labelPosition?_eq_some.mp hl
  refine labelPosition?_eq_some.mpr ⟨⟨n, by rw [h.get?_place, hn], hnl⟩, fun j hj m hm hml => ?_⟩
  rcases h.fresh j with ⟨r, rfl⟩ | ⟨id, m', hm', -, -, hnot⟩
  · rw [h.get?_place] at hm
    exact hfirst r (h.lt_iff.mp hj) m hm hml
  · cases Option.some.inj (hm.symm.trans (get?_of_entry hm'))
    have hplaced := isPlaced_iff.mpr ⟨p, n, hn, hnl⟩
    rw [hnot l hml] at hplaced
    cases hplaced

section Pseudo

variable (h : b.Embeds added b' place) (hadded : ∀ n, added n → n.isPseudo = true)
include h hadded

theorem instructionFrom?_next (p : Nat) :
    b'.instructionFrom? (place p + 1) = b'.instructionFrom? (place (p + 1)) := by
  refine instructionFrom?_skip (h.mono (Nat.lt_succ_self p)) fun k hk hlt => ?_
  obtain ⟨n, hn, ha⟩ := h.between hk hlt
  exact ⟨n, hn, hadded n ha⟩

theorem instructionFrom?_place (p : Nat) :
    b'.instructionFrom? (place p) = (b.instructionFrom? p).map place := by
  fun_induction b.instructionFrom? p with
  | case1 p hlt hp ih =>
    have hn : b'.get? (place p) = some b.entries[p].2 := by
      rw [h.get?_place, get?, Array.getElem?_eq_getElem hlt]
      rfl
    rw [instructionFrom?_pseudo hn hp, instructionFrom?_next h hadded, ih]
  | case2 p hlt hp =>
    have hn : b'.get? (place p) = some b.entries[p].2 := by
      rw [h.get?_place, get?, Array.getElem?_eq_getElem hlt]
      rfl
    rw [instructionFrom?_real hn (by simpa using hp), Option.map_some]
  | case3 p hge =>
    have hn : b'.get? (place p) = none := by
      rw [h.get?_place]
      exact get?_eq_none.mpr (Nat.le_of_not_lt hge)
    rw [instructionFrom?_end (get?_eq_none.mp hn), Option.map_none]

theorem instructionFrom?_zero :
    b'.instructionFrom? 0 = (b.instructionFrom? 0).map place := by
  rw [← instructionFrom?_place h hadded]
  refine instructionFrom?_skip (Nat.zero_le _) fun k _ hlt => ?_
  obtain ⟨n, hn, ha⟩ := h.before hlt
  exact ⟨n, hn, hadded n ha⟩

/-- A label designates the same instruction as before. -/
theorem labelTarget_place (hl : b.isPlaced l = true) :
    b'.labelTarget l = (b.labelTarget l).map (Option.map place) := by
  obtain ⟨p, hp⟩ := Option.isSome_iff_exists.mp hl
  rw [labelTarget, labelTarget, labelPosition_ok.mpr hp,
    labelPosition_ok.mpr (h.labelPosition?_place hp)]
  exact congrArg Except.ok (instructionFrom?_place h hadded p)

theorem targetPosition_place (hl : b.targetPosition l = .ok q) :
    b'.targetPosition l = .ok (place q) := by
  obtain ⟨p, hp, hq⟩ := targetPosition_ok.mp hl
  refine targetPosition_ok.mpr ⟨place p, h.labelPosition?_place hp, ?_⟩
  rw [instructionFrom?_place h hadded, hq, Option.map_some]

theorem handler_place {t : TryBlock} {x : Handler} (ht : b.handler t = .ok x) :
    b'.handler t = .ok ⟨place x.start, place x.stop, place x.head, x.caught⟩ := by
  obtain ⟨hh, hs, hp, hc⟩ := handler_ok.mp ht
  exact handler_ok.mpr ⟨targetPosition_place h hadded hh, h.labelPosition?_place hs,
    h.labelPosition?_place hp, hc⟩

end Pseudo

end Embeds

/-- Where nodes are when one more has been inserted. -/
def shift (p q : Nat) : Nat := if q < p then q else q + 1

theorem place_get? (hp : p ≤ b.size) (n : Node) (q : Nat) :
    (b.place p 0 [n]).entries[q]? =
      if q < p then b.entries[q]? else if q = p then some (⟨b.nextId⟩, n) else b.entries[q - 1]? := by
  unfold size at hp
  simp only [place, number, List.mapIdx_cons, List.mapIdx_nil, Nat.add_zero,
    Array.getElem?_append, Array.size_append, Array.size_extract, List.size_toArray,
    List.length_singleton, Nat.min_eq_left hp, Nat.sub_zero]
  by_cases hlt : q < p
  · have h1 : q < p + 1 := by omega
    simp only [hlt, h1, if_true, Array.getElem?_extract]
    simp
    omega
  · by_cases he : q = p
    · subst he
      simp
    · have h1 : ¬ q < p + 1 := by omega
      simp only [hlt, h1, he, if_false, Array.getElem?_extract]
      have h2 : p + (q - (p + 1)) = q - 1 := by omega
      rw [h2]
      split
      next => rfl
      next hge => exact (Array.getElem?_eq_none (by omega)).symm

theorem insertUnrecorded_ok (h : b.insertUnrecorded p n = .ok (id, b')) :
    b' = b.place p 0 [n] ∧ ∀ l, n.label? = some l → b.isPlaced l = false := by
  obtain ⟨_, hc, h⟩ := except_bind_ok.mp h
  cases h
  refine ⟨rfl, fun l hl => ?_⟩
  unfold checkFresh at hc
  split at hc
  next hclash =>
    simp only [clash?, hl, List.not_mem_nil, decide_false, Bool.false_or] at hclash
    split at hclash
    next => cases hclash
    next hn => simpa using hn
  next => cases hc

theorem place_entries (b : Body) (p : Nat) (ns : List Node) : (b.place p 0 ns).entries.toList =
    b.entries.toList.take p ++ number b.nextId ns ++ b.entries.toList.drop p := by
  simp only [place, Array.toList_append, Array.toList_extract, List.extract_eq_take_drop,
    List.drop_zero, Nat.sub_zero, Nat.add_zero]
  rw [List.take_of_length_le (i := b.entries.size - p) (by simp)]

theorem place_toList (b : Body) (p : Nat) (n : Node) :
    (b.place p 0 [n]).entries.toList =
      b.entries.toList.take p ++ (⟨b.nextId⟩, n) :: b.entries.toList.drop p := by
  rw [place_entries, List.append_assoc]
  rfl

theorem insertUnrecorded_embeds {added : Node → Prop} (hp : p ≤ b.size) (hn : added n)
    (hpseudo : n.isPseudo = true) (h : b.insertUnrecorded p n = .ok (id, b')) :
    b.Embeds added b' (shift p) := by
  obtain ⟨rfl, hl⟩ := insertUnrecorded_ok h
  refine ⟨fun {q r} hlt => ?_, fun q => ?_, fun q => ?_, ?_, Nat.le_add_right _ _, rfl, rfl, rfl⟩
  · unfold shift
    split <;> split <;> omega
  · rw [place_get? hp]
    unfold shift
    by_cases hq : q < p
    · rw [if_pos hq, if_pos hq]
    · rw [if_neg hq, if_neg (by omega), if_neg (by omega), Nat.add_sub_cancel]
  · by_cases hq : q < p
    · exact .inl ⟨q, if_pos hq⟩
    · by_cases he : q = p
      · exact .inr ⟨⟨b.nextId⟩, n, by rw [place_get? hp, if_neg hq, if_pos he], hn,
          Nat.le_refl _, hl⟩
      · refine .inl ⟨q - 1, ?_⟩
        unfold shift
        rw [if_neg (by omega)]
        omega
  · unfold instructions
    rw [place_toList, List.filter_append, List.filter_cons_of_neg (by simp [hpseudo]),
      ← List.filter_append, List.take_append_drop]

theorem insertUnrecorded_frameCount (h : b.insertUnrecorded p n = .ok (id, b')) :
    b'.frameCount = b.frameCount + if n.isFrame then 1 else 0 := by
  obtain ⟨rfl, -⟩ := insertUnrecorded_ok h
  have hsplit := congrArg (List.countP fun e : Entry => e.2.isFrame)
    (List.take_append_drop p b.entries.toList)
  rw [List.countP_append] at hsplit
  unfold frameCount
  rw [place_toList, List.countP_append, List.countP_cons]
  dsimp only
  omega

section Value

variable {α : Type} {f : Node → Option α}

theorem lastBefore?_before (hp : p ≤ b.size) (h : b.insertUnrecorded p n = .ok (id, b'))
    (hq : q ≤ p) : b'.lastBefore? f q = b.lastBefore? f q := by
  obtain ⟨rfl, -⟩ := insertUnrecorded_ok h
  refine lastBefore?_congr fun k hk => ?_
  rw [get?, place_get? hp, if_pos (by omega)]
  rfl

theorem get?_behind (hp : p ≤ b.size) (h : b.insertUnrecorded p n = .ok (id, b')) (hq : p ≤ q) :
    b'.get? (q + 1) = b.get? q := by
  obtain ⟨rfl, -⟩ := insertUnrecorded_ok h
  rw [get?, place_get? hp, if_neg (by omega), if_neg (by omega)]
  rfl

theorem lastBefore?_at (hp : p ≤ b.size) (hpseudo : n.isPseudo = true)
    (h : b.insertUnrecorded p n = .ok (id, b')) :
    b'.lastBefore? f (p + 1) = (f n).or (b.lastBefore? f p) := by
  have hbefore := lastBefore?_before (f := f) hp h (Nat.le_refl p)
  have hn : b'.get? p = some n := by
    obtain ⟨rfl, -⟩ := insertUnrecorded_ok h
    rw [get?, place_get? hp, if_neg (Nat.lt_irrefl p), if_pos rfl]
    rfl
  rw [← hbefore, lastBefore?, hn]
  simp only [hpseudo, if_true]
  cases f n <;> rfl

/-- A pseudo node without a value stands in nobody's way. -/
theorem lastBefore?_shift (hp : p ≤ b.size) (hpseudo : n.isPseudo = true) (hf : f n = none)
    (h : b.insertUnrecorded p n = .ok (id, b')) (q : Nat) :
    b'.lastBefore? f (shift p q) = b.lastBefore? f q := by
  unfold shift
  split
  next hq => exact lastBefore?_before hp h (by omega)
  next hq =>
    have hle := Nat.le_of_not_lt hq
    clear hq
    induction hle with
    | refl => rw [lastBefore?_at hp hpseudo h, hf, Option.none_or]
    | step hq ih => exact lastBefore?_succ_congr (get?_behind hp h hq) (.inr ih)

/-- A node with a value right before an instruction matters to nothing but that instruction. -/
theorem lastBefore?_shift_value {a : α} {i : Node} (hi : b.get? p = some i)
    (hreal : i.isPseudo = false) (hpseudo : n.isPseudo = true) (hf : f n = some a)
    (h : b.insertUnrecorded p n = .ok (id, b')) (q : Nat) :
    b'.lastBefore? f (shift p q) = if q = p then some a else b.lastBefore? f q := by
  have hp : p ≤ b.size := Nat.le_of_lt (lt_size_of_get? hi)
  unfold shift
  rcases Nat.lt_trichotomy q p with hlt | rfl | hgt
  · rw [if_pos hlt, if_neg (by omega)]
    exact lastBefore?_before hp h (by omega)
  · rw [if_neg (Nat.lt_irrefl q), if_pos rfl, lastBefore?_at hp hpseudo h, hf, Option.some_or]
  · rw [if_neg (by omega), if_neg (by omega)]
    induction hgt with
    | refl => exact lastBefore?_succ_congr (get?_behind hp h (Nat.le_refl p)) (.inl ⟨i, hi, hreal⟩)
    | step hq ih =>
      exact lastBefore?_succ_congr (get?_behind hp h (Nat.le_of_succ_le hq)) (.inr ih)

end Value

end Body

end ClassGraft
