import ClassGraft.Proofs.GuardedRuns

namespace ClassGraft

/-- The node with its branch, if it is one, going to another label. -/
def Node.aim (l : Label) : Node → Node
  | .branch br => .branch (br.map fun _ => l)
  | n => n

theorem Branch.targets_aim {l m : Label} {br : Branch Label}
    (h : m ∈ (br.map fun _ => l).targets) : m = l := by
  rw [Branch.targets_map] at h
  obtain ⟨_, -, rfl⟩ := List.mem_map.mp h
  rfl

namespace Body

/-- What a step tells about a reference. A check for null finds out whether there is one and goes on
accordingly, other nodes tell nothing. -/
inductive Tells (b : Body) (p : Nat) : Place → Option Bool → Prop
  | other {t : Place} : (∀ c l, b.get? p ≠ some (.branch (.ifNull c l))) → Tells b p t none
  | jump {q : Nat} {c : Equality} {l : Label} : b.get? p = some (.branch (.ifNull c l)) →
      b.labelPosition? l = some q → Tells b p (q, none) (some (decide (c = .eq)))
  | through {c : Equality} {l : Label} : b.get? p = some (.branch (.ifNull c l)) →
      Tells b p (p + 1, none) (some (decide (c = .ne)))

/-- A node that a run goes through, with what is found out there. -/
abbrev Stop := NodeId × Option Bool

/-- The runs from the start, each node with what it tells. -/
inductive Course (b : Body) (w : World) : List Stop → Place → Prop
  | start : Course b w [] (0, none)
  | step {stops : List Stop} {s t : Place} {e : Entry} {found : Option Bool} :
      Course b w stops s → b.entries[s.1]? = some e → b.Steps w s t → b.Tells s.1 t found →
      Course b w (stops ++ [(e.1, found)]) t

/-- The runs that have come to a node, or that are over if there is none. -/
def Arrives (b : Body) (w : World) (stops : List Stop) (place : Option NodeId) : Prop :=
  ∃ s, b.Course w stops s ∧ b.idAt? s.1 = place

/-- The body with one of its branches going to another label. -/
def aim (b : Body) (id : NodeId) (l : Label) : Body :=
  { b with entries := b.entries.map fun e => if e.1 = id then (e.1, e.2.aim l) else e }

variable {b : Body} {w : World} {p q : Nat} {n : Node} {e : Entry} {l m : Label} {id : NodeId}
  {stops : List Stop} {s t : Place} {found : Option Bool}

/-- A step from a check for null tells something, unless it throws. -/
theorem Steps.tells (h : b.Steps w s t) (he : b.entries[s.1]? = some e)
    (hthrow : ∀ c l, e.2 = .branch (.ifNull c l) → ¬ b.Throws w s.1) :
    ∃ found, b.Tells s.1 t found := by
  by_cases hcheck : ∃ c l, e.2 = .branch (.ifNull c l)
  · obtain ⟨c, l, hcheck⟩ := hcheck
    have hn : b.get? s.1 = some (.branch (.ifNull c l)) := hcheck ▸ get?_of_entry he
    have other {n : Node} (hn' : b.get? s.1 = some n) : n = .branch (.ifNull c l) :=
      Option.some.inj (hn'.symm.trans hn)
    cases h with
    | next he' hb =>
      rw [other (get?_of_entry he')] at hb
      cases hb
    | jump hn' hl hq _ =>
      cases other hn'
      cases List.mem_singleton.mp hl
      exact ⟨_, .jump hn hq⟩
    | through => exact ⟨_, .through hn⟩
    | back hn' => cases other hn'
    | handle ht => exact (hthrow c l hcheck ht).elim
    | leave hn' => cases other hn'
    | escape ht => exact (hthrow c l hcheck ht).elim
  · refine ⟨none, .other fun c l hn => hcheck ⟨c, l, ?_⟩⟩
    exact Option.some.inj ((get?_of_entry he).symm.trans hn)

/-- The runs in which no check for null throws are those with something told. -/
theorem run_iff_course {ids : List NodeId} (hthrow : ∀ p id c l,
      b.entries[p]? = some (id, .branch (.ifNull c l)) → ¬ b.Throws w p) :
    b.Run w ids s ↔ ∃ stops, b.Course w stops s ∧ stops.map Prod.fst = ids := by
  constructor
  · intro h
    induction h with
    | start => exact ⟨[], .start, rfl⟩
    | @step ids s t e _ he hs ih =>
      obtain ⟨stops, hc, rfl⟩ := ih
      obtain ⟨found, ht⟩ := hs.tells he fun c l hn => hthrow s.1 e.1 c l (hn ▸ he)
      exact ⟨_, hc.step he hs ht, List.map_append⟩
  · rintro ⟨stops, hc, rfl⟩
    induction hc with
    | start => exact .start
    | step _ he hs _ ih =>
      rw [List.map_append]
      exact ih.step he hs

/-- Nodes that are no checks for null tell nothing. -/
theorem Tells.plain (hn : b.get? p = some n) (hplain : ∀ c l, n ≠ .branch (.ifNull c l)) :
    b.Tells p t none :=
  .other fun c l h => hplain c l (Option.some.inj (hn.symm.trans h))

/-- A check for null goes to its label or on, and tells which. -/
theorem Tells.ifNull {c : Equality} (h : b.Tells p t found)
    (hn : b.get? p = some (.branch (.ifNull c l))) :
    (∃ q, b.labelPosition? l = some q ∧ t = (q, none) ∧ found = some (decide (c = .eq))) ∨
      t = (p + 1, none) ∧ found = some (decide (c = .ne)) := by
  cases h with
  | other hother => exact (hother _ _ hn).elim
  | jump hn' hq =>
    cases Option.some.inj (hn.symm.trans hn')
    exact .inl ⟨_, hq, rfl, rfl⟩
  | through hn' =>
    cases Option.some.inj (hn.symm.trans hn')
    exact .inr ⟨rfl, rfl⟩

/-- Where a check finds null, a course goes on at its label. -/
theorem Course.found_null (h : b.Course w (stops ++ [(id, some true)]) s) (hb : b.WellMade)
    (hp : b.entries[p]? = some (id, .branch (.ifNull .eq l))) :
    ∃ q, b.labelPosition? l = some q ∧ s = (q, none) := by
  generalize hstops : stops ++ [(id, some true)] = all at h
  cases h with
  | start => simp at hstops
  | @step _ s' _ e _ _ he _ ht =>
    obtain ⟨-, hlast⟩ := List.append_inj' hstops rfl
    cases hlast
    cases hb.position_unique he hp
    rcases ht.ifNull (get?_of_entry hp) with ⟨q, hq, rfl, -⟩ | ⟨-, hfound⟩
    · exact ⟨q, hq, rfl⟩
    · cases hfound

theorem aim_entry (h : b.entries[p]? = some e) :
    (b.aim id l).entries[p]? = some (if e.1 = id then (e.1, e.2.aim l) else e) := by
  rw [aim, Array.getElem?_map, h]
  rfl

theorem aim_ids (b : Body) (id : NodeId) (l : Label) : (b.aim id l).ids = b.ids := by
  rw [ids, aim, Array.toList_map, List.map_map]
  refine List.map_congr_left fun e _ => ?_
  rw [Function.comp_apply]
  split
  next => rfl
  next => rfl

theorem aim_reading (b : Body) (id : NodeId) (l : Label) {flag : FieldRef} {v : Bool}
    {throws : NodeId → Prop} :
    World.reading (b.aim id l) flag v throws = .reading b flag v throws := by
  unfold World.reading
  rw [aim_ids]

theorem aim_size (b : Body) (id : NodeId) (l : Label) : (b.aim id l).size = b.size :=
  Array.size_map

/-- Other nodes stay as they are. -/
theorem WellMade.aim_other (hb : b.WellMade) (hp : b.entries[p]? = some (id, n)) (hq : q ≠ p) :
    (b.aim id l).entries[q]? = b.entries[q]? := by
  cases he : b.entries[q]? with
  | none =>
    rw [aim, Array.getElem?_map, he]
    rfl
  | some e =>
    rw [aim_entry he, if_neg]
    rintro rfl
    exact hq (hb.position_unique he hp)

theorem WellMade.aim (hb : b.WellMade) (hl : l.index < b.nextLabel) : (b.aim id l).WellMade where
  distinct := by
    rw [aim_ids]
    exact hb.distinct
  ids := by
    rw [aim_ids]
    exact hb.ids
  labels m hm := by
    show m.index < b.nextLabel
    rcases mem_labels.mp hm with ⟨n, hn, hm⟩ | ⟨t, ht, hm⟩
    · obtain ⟨e, he, rfl⟩ := List.mem_map.mp hn
      obtain ⟨e', he', rfl⟩ := List.mem_map.mp (Array.toList_map ▸ he)
      have hold : e'.2 ∈ b.nodes := List.mem_map_of_mem he'
      split at hm
      next =>
        cases hn' : e'.2 with
        | branch br =>
          rw [hn'] at hm
          cases Branch.targets_aim hm
          exact hl
        | _ =>
          rw [hn'] at hm hold
          exact hb.labels m (mem_labels.mpr (.inl ⟨_, hold, hm⟩))
      next => exact hb.labels m (mem_labels.mpr (.inl ⟨_, hold, hm⟩))
    · exact hb.labels m (mem_labels.mpr (.inr ⟨t, ht, hm⟩))

/-- Nothing is changed where the branch goes there already. -/
theorem WellMade.aim_same {br : Branch Label} (hb : b.WellMade)
    (hp : b.entries[p]? = some (id, .branch br)) (hbr : (br.map fun _ => l) = br) :
    b.aim id l = b := by
  have hentries : (b.aim id l).entries = b.entries := by
    refine Array.ext_getElem? fun q => ?_
    by_cases hq : q = p
    · rw [hq, aim_entry hp, if_pos rfl, hp, Node.aim, hbr]
    · exact hb.aim_other hp hq
  rw [← show { b with entries := (b.aim id l).entries } = b.aim id l from rfl, hentries]

end Body

end ClassGraft
