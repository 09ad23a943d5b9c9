import ClassGraft.Proofs.NullCourses

namespace ClassGraft

namespace Body

/-- The node that another one stands for now. All others are themselves. -/
def former (check stand id : NodeId) : NodeId := if id = stand then check else id

/-- The stops at nodes of a body, also at the node that stands for one of them. -/
def formerStops (b : Body) (check stand : NodeId) (stops : List Stop) : List Stop :=
  (stops.map fun s => (former check stand s.1, s.2)).filter fun s => s.1 ∈ b.ids

/-- The check at a position has been replaced, and labels may have been put among the other nodes. The
nodes are where `f` takes their positions to. -/
structure Detours (b b' : Body) (check stand : NodeId) (flag : FieldRef) (l : Label) (p : Nat)
    (f : Nat → Nat) : Prop where
  tryBlocks : b'.tryBlocks = b.tryBlocks
  mono : StrictMono f
  start : f 0 = 0
  stop : f b.size = b'.size
  here : f p = p
  checked : b.entries[p]? = some (check, .branch (.ifNull .eq l))
  fresh : stand ∉ b.ids
  opposite : ∃ m, b'.entries[p]? = some (stand, .branch (.ifNull .ne m)) ∧
    b'.labelPosition? m = some (p + 4)
  read : ∃ id, former check stand id ∉ b.ids ∧
    b'.entries[p + 1]? = some (id, .insn (.field .getStatic flag))
  judge : ∃ id, former check stand id ∉ b.ids ∧
    b'.entries[p + 2]? = some (id, .branch (.ifZero .eq l))
  resume : f (p + 1) = p + 5 ∧ ∃ id m, former check stand id ∉ b.ids ∧
    b'.entries[p + 4]? = some (id, .label m)
  kept : ∀ q ≠ p, b'.entries[f q]? = b.entries[q]?
  next : ∀ q ≠ p, f (q + 1) = f q + 1 ∨ f (q + 1) = f q + 2 ∧
    ∃ id m, former check stand id ∉ b.ids ∧ b'.entries[f q + 1]? = some (id, .label m)
  found : ∀ r e, b'.entries[r]? = some e → (∃ q ≠ p, r = f q) ∨ r = p ∨
    (∀ br, e.2 = .branch br → br.isCall = false) ∧ ∀ m, e.2 = .label m → b.nextLabel ≤ m.index

/-- A place from which a run comes to where a position is now. There may be a new label before it. -/
inductive Lands (b b' : Body) (check stand : NodeId) (f : Nat → Nat) (q : Nat) : Place → Prop
  | here : Lands b b' check stand f q (f q, none)
  | label {r : Nat} {id : NodeId} {m : Label} : former check stand id ∉ b.ids →
      b'.entries[r]? = some (id, .label m) → f q = r + 1 → Lands b b' check stand f q (r, none)

/-- Where runs are after the stops of a course of the first body, or in the detour. -/
inductive Follows (b b' : Body) (check stand : NodeId) (f : Nat → Nat) (p : Nat) (w : World) :
    List Stop → Place → Prop
  | lands {stops : List Stop} {q : Nat} {s : Place} : b.Course w stops (q, none) →
      b.Lands b' check stand f q s → Follows b b' check stand f p w stops s
  | read {stops : List Stop} : b.Course w stops (p, none) →
      Follows b b' check stand f p w (stops ++ [(check, some true)]) (p + 1, none)
  | judge {stops : List Stop} : b.Course w stops (p, none) →
      Follows b b' check stand f p w (stops ++ [(check, some true)]) (p + 2, some false)

variable {b b' : Body} {check stand id : NodeId} {flag : FieldRef} {l m : Label} {p q r : Nat}
  {f : Nat → Nat} {throws : NodeId → Prop} {stops : List Stop} {s t : Place} {e : Entry}
  {found : Option Bool} {w : World}

theorem former_of_ne (h : id ≠ stand) : former check stand id = id := if_neg h

theorem aim_formerStops (b : Body) (id : NodeId) (l : Label) :
    (b.aim id l).formerStops check stand = b.formerStops check stand := by
  unfold formerStops
  rw [aim_ids]

theorem formerStops_append {stop : Stop} :
    b.formerStops check stand (stops ++ [stop]) = b.formerStops check stand stops ++
      if former check stand stop.1 ∈ b.ids then [(former check stand stop.1, stop.2)] else [] := by
  rw [formerStops, List.map_append, List.filter_append]
  congr 1
  by_cases h : former check stand stop.1 ∈ b.ids
  · rw [if_pos h, List.map_singleton, List.filter_cons_of_pos (by simpa using h)]
    rfl
  · rw [if_neg h, List.map_singleton, List.filter_cons_of_neg (by simpa using h)]
    rfl

theorem formerStops_new {stop : Stop} (h : former check stand stop.1 ∉ b.ids) :
    b.formerStops check stand (stops ++ [stop]) = b.formerStops check stand stops := by
  rw [formerStops_append, if_neg h, List.append_nil]

theorem formerStops_old (hid : id ∈ b.ids) (hstand : stand ∉ b.ids) :
    b.formerStops check stand (stops ++ [(id, found)]) =
      b.formerStops check stand stops ++ [(id, found)] := by
  have hsame : former check stand id = id := former_of_ne fun h => hstand (h ▸ hid)
  rw [formerStops_append, hsame, if_pos hid]

theorem formerStops_stand (hcheck : check ∈ b.ids) :
    b.formerStops check stand (stops ++ [(stand, found)]) =
      b.formerStops check stand stops ++ [(check, found)] := by
  have hformer : former check stand stand = check := if_pos rfl
  rw [formerStops_append, hformer, if_pos hcheck]

/-- A course comes to where the nodes of the first body are now. -/
theorem Lands.settle (hs : b.Lands b' check stand f q s) (hc : b'.Course w stops s) : ∃ stops',
    b'.Course w stops' (f q, none) ∧
    b.formerStops check stand stops' = b.formerStops check stand stops := by
  cases hs with
  | here => exact ⟨stops, hc, rfl⟩
  | @label r id m hid hlabel hnext =>
    have hstep : b'.Steps w (r, none) (r + 1, none) := .next hlabel rfl
    rw [← hnext] at hstep
    have htells : b'.Tells r (f q, none) none := .plain (get?_of_entry hlabel) (by simp)
    exact ⟨_, hc.step hlabel hstep htells, formerStops_new hid⟩

namespace Detours

variable (h : b.Detours b' check stand flag l p f)
include h

theorem check_mem : check ∈ b.ids := mem_ids_of_entry h.checked

theorem new_not_mem (hid : former check stand id ∉ b.ids) : id ∉ b.ids := by
  intro hmem
  have hne : id ≠ stand := fun heq => h.fresh (heq ▸ hmem)
  rw [former_of_ne hne] at hid
  exact hid hmem

theorem not_throws (he : b'.entries[r]? = some (id, .branch (.ifZero .eq l)) ∨
      (∃ m, b'.entries[r]? = some (id, .label m)) ∨
      b'.entries[r]? = some (id, .insn (.field .getStatic flag)))
    (hid : former check stand id ∉ b.ids) : ¬ b'.Throws (.reading b flag false throws) r := by
  rintro ⟨e, he', -, ht⟩
  have hne : e.1 ∉ b.ids ∧ e.2 ≠ .branch .athrow := by
    rcases he with he | ⟨m, he⟩ | he
    all_goals
      cases Option.some.inj (he.symm.trans he')
      exact ⟨h.new_not_mem hid, by simp⟩
  exact ht.elim (fun ht => hne.1 ht.1) hne.2

theorem get?_kept (hq : q ≠ p) : b'.get? (f q) = b.get? q := by
  rw [get?, h.kept q hq]
  rfl

theorem lands_next (hq : q ≠ p) : b.Lands b' check stand f (q + 1) (f q + 1, none) := by
  rcases h.next q hq with hnext | ⟨hnext, id, m, hid, hlabel⟩
  · rw [← hnext]
    exact .here
  · exact .label hid hlabel hnext

/-- Labels of the first body are placed where they were. -/
theorem labelPosition? (hm : m.index < b.nextLabel) :
    b'.labelPosition? m = (b.labelPosition? m).map f := by
  have notcheck {q : Nat} {n : Node} (hn : b.get? q = some n) (hlabel : n.label? = some m) :
      q ≠ p := by
    rintro rfl
    cases Option.some.inj (hn.symm.trans (get?_of_entry h.checked))
    cases hlabel
  have back {r : Nat} {n : Node} (hn : b'.get? r = some n) (hlabel : n.label? = some m) :
      ∃ q ≠ p, r = f q := by
    obtain ⟨e, he, rfl⟩ := Option.map_eq_some_iff.mp hn
    have hnode : e.2 = .label m := by
      cases hn' : e.2 with
      | label m' =>
        rw [hn'] at hlabel
        cases hlabel
        rfl
      | _ =>
        rw [hn'] at hlabel
        cases hlabel
    rcases h.found r e he with hq | rfl | ⟨-, hnew⟩
    · exact hq
    · obtain ⟨m', hstand, -⟩ := h.opposite
      cases Option.some.inj (he.symm.trans hstand)
      cases hnode
    · have := hnew m hnode
      omega
  ext r
  rw [Option.map_eq_some_iff]
  constructor
  · intro hr
    obtain ⟨⟨n, hn, hlabel⟩, hbefore⟩ := labelPosition?_eq_some.mp hr
    obtain ⟨q, hq, rfl⟩ := back hn hlabel
    rw [h.get?_kept hq] at hn
    refine ⟨q, labelPosition?_eq_some.mpr ⟨⟨n, hn, hlabel⟩, fun j hj n' hn' hlabel' => ?_⟩, rfl⟩
    exact hbefore (f j) (h.mono hj) n' ((h.get?_kept (notcheck hn' hlabel')).trans hn') hlabel'
  · rintro ⟨q, hq, rfl⟩
    obtain ⟨⟨n, hn, hlabel⟩, hbefore⟩ := labelPosition?_eq_some.mp hq
    have hkept := h.get?_kept (notcheck hn hlabel)
    refine labelPosition?_eq_some.mpr ⟨⟨n, hkept.trans hn, hlabel⟩, fun j hj n' hn' hlabel' => ?_⟩
    obtain ⟨i, hi, rfl⟩ := back hn' hlabel'
    exact hbefore i (h.mono.lt_iff_lt.mp hj) n' ((h.get?_kept hi).symm.trans hn') hlabel'

theorem throws_iff (hq : q ≠ p) :
    b'.Throws (.reading b flag false throws) (f q) ↔ b.Throws (.free throws) q := by
  rw [Throws, Throws, h.kept q hq]
  constructor
  · rintro ⟨e, he, hreal, ht⟩
    exact ⟨e, he, hreal, ht.imp_left And.right⟩
  · rintro ⟨e, he, hreal, ht⟩
    exact ⟨e, he, hreal, ht.imp_left fun ht => ⟨mem_ids_of_entry he, ht⟩⟩

theorem protects_iff (hb : b.WellMade) (hq : q ≠ p) {block : TryBlock} (ht : block ∈ b.tryBlocks) :
    b'.Protects block (f q) ↔ b.Protects block q := by
  obtain ⟨hstart, hstop, -⟩ := block_mem_labels ht
  have hs := h.labelPosition? (hb.labels _ hstart)
  have ht := h.labelPosition? (hb.labels _ hstop)
  constructor
  · rintro ⟨r, r', n, hr, hr', hle, hlt, hn, hreal⟩
    obtain ⟨a, ha, rfl⟩ := Option.map_eq_some_iff.mp (hs.symm.trans hr)
    obtain ⟨c, hc, rfl⟩ := Option.map_eq_some_iff.mp (ht.symm.trans hr')
    exact ⟨a, c, n, ha, hc, h.mono.le_iff_le.mp hle, h.mono.lt_iff_lt.mp hlt,
      (h.get?_kept hq).symm.trans hn, hreal⟩
  · rintro ⟨r, r', n, hr, hr', hle, hlt, hn, hreal⟩
    rw [hr] at hs
    rw [hr'] at ht
    exact ⟨f r, f r', n, hs, ht, h.mono.monotone hle, h.mono hlt, (h.get?_kept hq).trans hn, hreal⟩

/-- What the second body does at a node that is kept, the first one does too. -/
theorem step_right (hb : b.WellMade) (hq : q ≠ p)
    (hs : b'.Steps (.reading b flag false throws) (f q, none) t) (ht : b'.Tells (f q) t found) :
    ∃ q', b.Steps (.free throws) (q, none) (q', none) ∧ b.Tells q (q', none) found ∧
      b.Lands b' check stand f q' t := by
  have back {n : Node} (hn : b'.get? (f q) = some n) : b.get? q = some n :=
    (h.get?_kept hq).symm.trans hn
  have target {br : Branch Label} {m : Label} {r : Nat} (hn : b'.get? (f q) = some (.branch br))
      (hm : m ∈ br.targets) (hr : b'.labelPosition? m = some r) :
      ∃ q', b.labelPosition? m = some q' ∧ f q' = r := by
    rw [h.labelPosition? (hb.labels m (target_mem_labels (back hn) hm))] at hr
    exact Option.map_eq_some_iff.mp hr
  cases ht with
  | @jump r c m hn hr =>
    obtain ⟨q', hq', rfl⟩ := target hn (List.mem_singleton_self m) hr
    exact ⟨q', .jump (back hn) (List.mem_singleton_self m) hq' trivial, .jump (back hn) hq', .here⟩
  | through hn =>
    exact ⟨q + 1, .through (back hn) rfl rfl trivial, .through (back hn),
      h.lands_next hq⟩
  | other hnull =>
    have hnull : ∀ c m, b.get? q ≠ some (.branch (.ifNull c m)) := fun c m hn =>
      hnull c m ((h.get?_kept hq).trans hn)
    cases hs with
    | @next _ _ e he hplain =>
      have hp : b.entries[q]? = some e := (h.kept q hq).symm.trans he
      have hold : e.1 ∈ b.ids := mem_ids_of_entry hp
      have hstep : b.Steps (.free throws) (q, none) (q + 1, if e.2.isPseudo then none else none) :=
        .next hp hplain
      rw [ite_self] at hstep
      have hunread : (World.reading b flag false throws).pushed? e = none :=
        if_neg fun hnew => hnew.1 hold
      rw [hunread, ite_self]
      exact ⟨q + 1, hstep, .other hnull, h.lands_next hq⟩
    | jump hn hm hr ha =>
      obtain ⟨q', hq', rfl⟩ := target hn hm hr
      exact ⟨q', .jump (back hn) hm hq' ha, .other hnull, .here⟩
    | through hn hf hc ha =>
      exact ⟨q + 1, .through (back hn) hf hc ha, .other hnull,
        h.lands_next hq⟩
    | @back _ r _ br _ hn hcall hc =>
      obtain ⟨e, he, hbr⟩ := Option.map_eq_some_iff.mp hcall
      rcases h.found r e he with ⟨c, hcp, rfl⟩ | rfl | ⟨hnone, -⟩
      · have hcall' := (h.get?_kept hcp).symm.trans hcall
        exact ⟨c + 1, .back (back hn) hcall' hc, .other hnull,
          h.lands_next hcp⟩
      · obtain ⟨m, hstand, -⟩ := h.opposite
        cases Option.some.inj (hcall.symm.trans (get?_of_entry hstand))
        cases hc
      · rw [hnone br hbr] at hc
        cases hc
    | @handle _ r _ block hthrow hblock hprotects hr =>
      rw [h.tryBlocks] at hblock
      rw [h.labelPosition? (hb.labels _ (block_mem_labels hblock).2.2)] at hr
      obtain ⟨q', hq', rfl⟩ := Option.map_eq_some_iff.mp hr
      exact ⟨q', .handle ((h.throws_iff hq).mp hthrow) hblock
        ((h.protects_iff hb hq hblock).mp hprotects) hq', .other hnull, .here⟩
    | leave hn =>
      rw [← h.stop]
      exact ⟨b.size, .leave (back hn), .other hnull, .here⟩
    | escape hthrow =>
      rw [← h.stop]
      exact ⟨b.size, .escape ((h.throws_iff hq).mp hthrow), .other hnull, .here⟩

/-- What the first body does at another node than the check, the second one does too. -/
theorem step_left (hb : b.WellMade) (hq : q ≠ p) (hs : b.Steps (.free throws) (q, none) t)
    (ht : b.Tells q t found) : t.2 = none ∧ ∃ t',
      b'.Steps (.reading b flag false throws) (f q, none) t' ∧ b'.Tells (f q) t' found ∧
      b.Lands b' check stand f t.1 t' := by
  have forth {n : Node} (hn : b.get? q = some n) : b'.get? (f q) = some n :=
    (h.get?_kept hq).trans hn
  have target {br : Branch Label} {m : Label} {q' : Nat} (hn : b.get? q = some (.branch br))
      (hm : m ∈ br.targets) (hq' : b.labelPosition? m = some q') :
      b'.labelPosition? m = some (f q') := by
    rw [h.labelPosition? (hb.labels m (target_mem_labels hn hm)), hq']
    rfl
  cases ht with
  | @jump q' c m hn hq' =>
    have hr := target hn (List.mem_singleton_self m) hq'
    exact ⟨rfl, _, .jump (forth hn) (List.mem_singleton_self m) hr trivial, .jump (forth hn) hr,
      .here⟩
  | through hn =>
    exact ⟨rfl, _, .through (forth hn) rfl rfl trivial, .through (forth hn),
      h.lands_next hq⟩
  | other hnull =>
    have hnull : ∀ c m, b'.get? (f q) ≠ some (.branch (.ifNull c m)) := fun c m hn =>
      hnull c m ((h.get?_kept hq).symm.trans hn)
    cases hs with
    | @next _ _ e he hplain =>
      have hp : b'.entries[f q]? = some e := (h.kept q hq).trans he
      have hstep : b'.Steps (.reading b flag false throws) (f q, none)
          (f q + 1, if e.2.isPseudo then none else (World.reading b flag false throws).pushed? e) :=
        .next hp hplain
      have hunread : (World.reading b flag false throws).pushed? e = none :=
        if_neg fun hnew => hnew.1 (mem_ids_of_entry he)
      rw [hunread, ite_self] at hstep
      exact ⟨ite_self none, _, hstep, .other hnull,
        h.lands_next hq⟩
    | jump hn hm hq' ha =>
      exact ⟨rfl, _, .jump (forth hn) hm (target hn hm hq') ha, .other hnull, .here⟩
    | through hn hf hc ha =>
      exact ⟨rfl, _, .through (forth hn) hf hc ha, .other hnull,
        h.lands_next hq⟩
    | @back _ c _ br _ hn hcall hc =>
      have hcp : c ≠ p := by
        rintro rfl
        cases Option.some.inj (hcall.symm.trans (get?_of_entry h.checked))
        cases hc
      exact ⟨rfl, _, .back (forth hn) ((h.get?_kept hcp).trans hcall) hc, .other hnull,
        h.lands_next hcp⟩
    | @handle _ q' _ block hthrow hblock hprotects hq' =>
      have hr := h.labelPosition? (hb.labels _ (block_mem_labels hblock).2.2)
      rw [hq'] at hr
      exact ⟨rfl, _, .handle ((h.throws_iff hq).mpr hthrow) (h.tryBlocks ▸ hblock)
        ((h.protects_iff hb hq hblock).mpr hprotects) hr, .other hnull, .here⟩
    | leave hn => exact ⟨rfl, _, .leave (forth hn), .other hnull, h.stop ▸ .here⟩
    | escape hthrow =>
      exact ⟨rfl, _, .escape ((h.throws_iff hq).mpr hthrow), .other hnull, h.stop ▸ .here⟩

/-- A new label is left for the next node. -/
theorem step_label (hid : former check stand id ∉ b.ids) (he : b'.entries[r]? = some (id, .label m))
    (hs : b'.Steps (.reading b flag false throws) (r, none) t) : t = (r + 1, none) :=
  hs.plain he rfl (h.not_throws (.inr (.inl ⟨m, he⟩)) hid)

theorem pushed_read (hid : former check stand id ∉ b.ids) :
    (World.reading b flag false throws).pushed? (id, .insn (.field .getStatic flag)) = some false :=
  if_pos ⟨h.new_not_mem hid, rfl⟩

theorem step_read (hid : former check stand id ∉ b.ids)
    (he : b'.entries[r]? = some (id, .insn (.field .getStatic flag)))
    (hs : b'.Steps (.reading b flag false throws) (r, none) t) : t = (r + 1, some false) := by
  rw [hs.plain he rfl (h.not_throws (.inr (.inr he)) hid), h.pushed_read hid]
  rfl

/-- Where the flag is not set the detour ends at the label of the check. -/
theorem step_judge (hid : former check stand id ∉ b.ids) (hl : l.index < b.nextLabel)
    (he : b'.entries[r]? = some (id, .branch (.ifZero .eq l)))
    (hs : b'.Steps (.reading b flag false throws) (r, some false) t) :
    ∃ q, b.labelPosition? l = some q ∧ t = (f q, none) := by
  rcases hs.ifZero (get?_of_entry he) (h.not_throws (.inl he) hid) with
    ⟨r', hr, -, rfl⟩ | ⟨hadmits, -⟩
  · rw [h.labelPosition? hl] at hr
    obtain ⟨q, hq, rfl⟩ := Option.map_eq_some_iff.mp hr
    exact ⟨q, hq, rfl⟩
  · cases hadmits

/-- The second body goes on as the first one, with the detour for null. -/
theorem course_right (hb : b.WellMade) (hl : l.index < b.nextLabel)
    (hc : b'.Course (.reading b flag false throws) stops s) :
    b.Follows b' check stand f p (.free throws) (b.formerStops check stand stops) s := by
  induction hc with
  | start =>
    have hhere : b.Lands b' check stand f 0 (f 0, none) := .here
    rw [h.start] at hhere
    exact .lands .start hhere
  | @step stops s t e found _ he hs ht ih =>
    generalize hown : b.formerStops check stand stops = own at ih
    cases ih with
    | @lands _ q _ hc hlands =>
      cases hlands with
      | here =>
        by_cases hq : q = p
        · subst hq
          rw [h.here] at he hs ht
          obtain ⟨m, hstand, hm⟩ := h.opposite
          cases Option.some.inj (he.symm.trans hstand)
          rw [formerStops_stand h.check_mem, hown]
          rcases ht.ifNull (get?_of_entry hstand) with ⟨r, hr, rfl, rfl⟩ | ⟨rfl, rfl⟩
          · cases Option.some.inj (hr.symm.trans hm)
            obtain ⟨hresume, id, m', hid, hlabel⟩ := h.resume
            have hn := get?_of_entry h.checked
            exact .lands (hc.step h.checked (.through hn rfl rfl trivial) (.through hn))
              (.label hid hlabel hresume)
          · exact .read hc
        · obtain ⟨q', hstep, htells, hlands⟩ := h.step_right hb hq hs ht
          have hp : b.entries[q]? = some e := (h.kept q hq).symm.trans he
          rw [formerStops_old (mem_ids_of_entry hp) h.fresh, hown]
          exact .lands (hc.step hp hstep htells) hlands
      | label hid hlabel hnext =>
        cases Option.some.inj (he.symm.trans hlabel)
        rw [formerStops_new hid, hown, h.step_label hid hlabel hs, ← hnext]
        exact .lands hc .here
    | read hc =>
      obtain ⟨id, hid, hread⟩ := h.read
      cases Option.some.inj (he.symm.trans hread)
      rw [formerStops_new hid, hown, h.step_read hid hread hs]
      exact .judge hc
    | judge hc =>
      obtain ⟨id, hid, hjudge⟩ := h.judge
      cases Option.some.inj (he.symm.trans hjudge)
      obtain ⟨q, hq, rfl⟩ := h.step_judge hid hl hjudge hs
      rw [formerStops_new hid, hown]
      have hn := get?_of_entry h.checked
      exact .lands (hc.step h.checked (.jump hn (List.mem_singleton_self l) hq trivial)
        (.jump hn hq)) .here

/-- Where the flag is not set, the second body comes to the label of the check if it finds null. -/
theorem course_null (hl : l.index < b.nextLabel) (hq : b.labelPosition? l = some q)
    (hc : b'.Course (.reading b flag false throws) stops (p, none)) : ∃ stops',
      b'.Course (.reading b flag false throws) stops' (f q, none) ∧
      b.formerStops check stand stops' = b.formerStops check stand stops ++ [(check, some true)] := by
  obtain ⟨m, hstand, -⟩ := h.opposite
  obtain ⟨i, hi, hread⟩ := h.read
  obtain ⟨j, hj, hjudge⟩ := h.judge
  have hn := get?_of_entry hstand
  have hc₁ := hc.step hstand (.through hn rfl rfl trivial) (.through hn)
  have hstep : b'.Steps (.reading b flag false throws) (p + 1, none) (p + 2,
      (World.reading b flag false throws).pushed? (i, .insn (.field .getStatic flag))) :=
    .next hread rfl
  rw [h.pushed_read hi] at hstep
  have hc₂ := hc₁.step hread hstep (.plain (get?_of_entry hread) (by simp))
  have hr : b'.labelPosition? l = some (f q) := by
    rw [h.labelPosition? hl, hq]
    rfl
  have hc₃ := hc₂.step hjudge (.jump (get?_of_entry hjudge) (List.mem_singleton_self l) hr rfl)
    (.plain (get?_of_entry hjudge) (by simp))
  refine ⟨_, hc₃, ?_⟩
  rw [formerStops_new hj, formerStops_new hi, formerStops_stand h.check_mem]
  rfl

/-- If the check finds no null, the second body goes on behind it. -/
theorem course_found (hc : b'.Course (.reading b flag false throws) stops (p, none)) : ∃ stops',
    b'.Course (.reading b flag false throws) stops' (f (p + 1), none) ∧
    b.formerStops check stand stops' = b.formerStops check stand stops ++ [(check, some false)] := by
  obtain ⟨m, hstand, hm⟩ := h.opposite
  obtain ⟨hresume, id, m', hid, hlabel⟩ := h.resume
  have hn := get?_of_entry hstand
  have hc₁ := hc.step hstand (.jump hn (List.mem_singleton_self m) hm trivial) (.jump hn hm)
  obtain ⟨stops', hc', hstops⟩ := Lands.settle (.label hid hlabel hresume) hc₁
  exact ⟨stops', hc', hstops.trans (formerStops_stand h.check_mem)⟩

/-- The first body goes on as the second one does without the detour. -/
theorem course_left (hb : b.WellMade) (hl : l.index < b.nextLabel)
    (hc : b.Course (.free throws) stops s) : s.2 = none ∧ ∃ stops',
      b'.Course (.reading b flag false throws) stops' (f s.1, none) ∧
      b.formerStops check stand stops' = stops := by
  induction hc with
  | start =>
    have hstart : b'.Course (.reading b flag false throws) [] (0, none) := .start
    rw [← h.start] at hstart
    exact ⟨rfl, [], hstart, rfl⟩
  | @step stops s t e found _ he hs ht ih =>
    obtain ⟨hnone, stops', hc, rfl⟩ := ih
    obtain ⟨q, top⟩ := s
    cases hnone
    by_cases hq : q = p
    · subst hq
      rw [h.here] at hc
      cases Option.some.inj (he.symm.trans h.checked)
      rcases ht.ifNull (get?_of_entry h.checked) with ⟨q', hq', rfl, rfl⟩ | ⟨rfl, rfl⟩
      · exact ⟨rfl, h.course_null hl hq' hc⟩
      · exact ⟨rfl, h.course_found hc⟩
    · obtain ⟨hnone, t', hstep, htells, hlands⟩ := h.step_left hb hq hs ht
      have hc₁ := hc.step ((h.kept q hq).trans he) hstep htells
      obtain ⟨stops'', hc', hstops⟩ := hlands.settle hc₁
      exact ⟨hnone, stops'', hc', hstops.trans (formerStops_old (mem_ids_of_entry he) h.fresh)⟩

theorem idAt?_former (q : Nat) : (b'.idAt? (f q)).map (former check stand) = b.idAt? q := by
  by_cases hq : q = p
  · subst hq
    obtain ⟨m, hstand, -⟩ := h.opposite
    rw [h.here, idAt?, hstand, idAt?, h.checked]
    exact congrArg some (if_pos rfl)
  · rw [idAt?, h.kept q hq, idAt?, Option.map_map]
    cases he : b.entries[q]? with
    | none => rfl
    | some e => exact congrArg some (former_of_ne fun heq => h.fresh (heq ▸ mem_ids_of_entry he))

/-- Where the flag is not set, the two bodies have the same runs. -/
theorem arrives_iff (hb : b.WellMade) (hl : l.index < b.nextLabel) {place : Option NodeId}
    (hplace : ∀ id ∈ place, id ∈ b.ids) : b.Arrives (.free throws) stops place ↔
      ∃ stops' place', b'.Arrives (.reading b flag false throws) stops' place' ∧
        b.formerStops check stand stops' = stops ∧ place'.map (former check stand) = place := by
  constructor
  · rintro ⟨s, hc, rfl⟩
    obtain ⟨-, stops', hc', hstops⟩ := h.course_left hb hl hc
    exact ⟨stops', _, ⟨_, hc', rfl⟩, hstops, h.idAt?_former s.1⟩
  · rintro ⟨stops', place', ⟨s, hc, rfl⟩, rfl, rfl⟩
    have inside {id : NodeId} {n : Node} (he : b'.entries[s.1]? = some (id, n)) :
        former check stand id ∈ b.ids := by
      refine hplace _ ?_
      rw [idAt?, he]
      rfl
    have hfollows := h.course_right hb hl hc
    generalize b.formerStops check stand stops' = own at hfollows
    cases hfollows with
    | lands hown hlands =>
      cases hlands with
      | here => exact ⟨_, hown, (h.idAt?_former _).symm⟩
      | label hid hlabel _ => exact (hid (inside hlabel)).elim
    | read _ =>
      obtain ⟨id, hid, hread⟩ := h.read
      exact (hid (inside hread)).elim
    | judge _ =>
      obtain ⟨id, hid, hjudge⟩ := h.judge
      exact (hid (inside hjudge)).elim

end Detours

end Body

end ClassGraft
