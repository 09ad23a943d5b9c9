import ClassGraft.Proofs.WovenBodies

namespace ClassGraft

namespace Body

variable {b b' : Body} {flag : FieldRef} {v : Bool} {throws : NodeId → Prop} {p q r s : Nat}
  {e : Entry} {es es' xs ys : List Entry} {l : Label} {id i j : NodeId} {ids : List NodeId}

/-- Where a run of the guarded body is while one of the first body is at a position: at a node from
which on they have the same nodes, or between the read and the jump of a guard. -/
inductive Along (b b' : Body) (flag : FieldRef) (v : Bool) (p : Nat) : Place → Prop
  | meet {q : Nat} : b.Meets b' flag p q → Along b b' flag v p (q, none)
  | read {q : Nat} {j : NodeId} {l : Label} : b'.entries[q]? = some (j, .branch (.ifZero .ne l)) →
      j ∉ b.ids → b.Meets b' flag p (q + 1) → Along b b' flag v p (q, some v)

section Same

variable (h : b.Weaves b' flag) (hb : b.WellMade) (hm : b.Meets b' flag p q)
  (he : b'.entries[q]? = some e) (ho : e.1 ∈ b.ids)
include hm he ho

theorem Meets.get?_eq : b'.get? q = b.get? p := by
  rw [get?_of_entry he, get?_of_entry (hm.same he ho).1]

theorem Meets.throws_iff :
    b'.Throws (.reading b flag v throws) q ↔ b.Throws (.free throws) p := by
  obtain ⟨hp, -⟩ := hm.same he ho
  constructor
  · rintro ⟨e', he', hreal, ht⟩
    cases Option.some.inj (he.symm.trans he')
    exact ⟨e, hp, hreal, ht.imp_left And.right⟩
  · rintro ⟨e', he', hreal, ht⟩
    cases Option.some.inj (hp.symm.trans he')
    exact ⟨e, he, hreal, ht.imp_left fun ht => ⟨ho, ht⟩⟩

include h hb

theorem Weaves.protects_iff {t : TryBlock} (ht : t ∈ b.tryBlocks) :
    b'.Protects t q ↔ b.Protects t p := by
  have hget := hm.get?_eq he ho
  obtain ⟨hstart, hstop, -⟩ := block_mem_labels ht
  constructor
  · rintro ⟨start, stop, n, hs, ht, hle, hlt, hn, hreal⟩
    obtain ⟨start', hs', hmeet⟩ := h.label_right hb hstart hs
    obtain ⟨stop', ht', hmeet'⟩ := h.label_right hb hstop ht
    have := hmeet.le_iff hm he ho
    have := hmeet'.le_iff hm he ho
    exact ⟨start', stop', n, hs', ht', by omega, by omega, hget.symm.trans hn, hreal⟩
  · rintro ⟨start, stop, n, hs, ht, hle, hlt, hn, hreal⟩
    obtain ⟨start', hs', hmeet⟩ := h.label_left hb hstart hs
    obtain ⟨stop', ht', hmeet'⟩ := h.label_left hb hstop ht
    have := hmeet.le_iff hm he ho
    have := hmeet'.le_iff hm he ho
    exact ⟨start', stop', n, hs', ht', by omega, by omega, hget.trans hn, hreal⟩

/-- What the guarded body does the first one does too. -/
theorem Weaves.step_right {t : Place} (hs : b'.Steps (.reading b flag v throws) (q, none) t) :
    ∃ p', b.Steps (.free throws) (p, none) (p', none) ∧ b.Along b' flag v p' t := by
  obtain ⟨hp, hnext⟩ := hm.same he ho
  have back {br : Branch Label} (hn : b'.get? q = some (.branch br)) :
      b.get? p = some (.branch br) := (hm.get?_eq he ho).symm.trans hn
  cases hs with
  | next he' hplain =>
    cases Option.some.inj (he.symm.trans he')
    have hstep : b.Steps (.free throws) (p, none) (p + 1, if e.2.isPseudo then none else none) :=
      .next hp hplain
    rw [ite_self] at hstep
    have hunread : (World.reading b flag v throws).pushed? e = none := if_neg fun hnew => hnew.1 ho
    rw [hunread, ite_self]
    exact ⟨p + 1, hstep, .meet hnext⟩
  | jump hn hl hq ha =>
    obtain ⟨p', hp', hmeet⟩ := h.label_right hb (target_mem_labels (back hn) hl) hq
    exact ⟨p', .jump (back hn) hl hp' ha, .meet hmeet⟩
  | through hn hf hc ha => exact ⟨p + 1, .through (back hn) hf hc ha, .meet hnext⟩
  | @back _ c _ br _ hn hcall hc =>
    obtain ⟨e', he', heq⟩ := Option.map_eq_some_iff.mp hcall
    rcases h.found he' with ⟨ho', p', hp', hmeet⟩ | ⟨-, hguard⟩
    · have hcall' : b.get? p' = some (.branch br) := by rw [get?_of_entry hp', heq]
      exact ⟨p' + 1, .back (back hn) hcall' hc, .meet (hmeet.same he' ho').2⟩
    · rw [heq] at hguard
      cases hguard
      cases hc
  | handle hthrow ht hprotects hq =>
    rw [h.tryBlocks] at ht
    obtain ⟨p', hp', hmeet⟩ := h.label_right hb (block_mem_labels ht).2.2 hq
    refine ⟨p', .handle ((hm.throws_iff he ho).mp hthrow) ht ?_ hp', .meet hmeet⟩
    exact (h.protects_iff hb hm he ho ht).mp hprotects
  | leave hn => exact ⟨b.size, .leave (back hn), .meet (Weaves.meets_end b b' flag)⟩
  | escape hthrow =>
    exact ⟨b.size, .escape ((hm.throws_iff he ho).mp hthrow), .meet (Weaves.meets_end b b' flag)⟩

/-- What the first body does the guarded one does too. -/
theorem Weaves.step_left {t : Place} (hs : b.Steps (.free throws) (p, none) t) :
    t.2 = none ∧ ∃ t', b'.Steps (.reading b flag v throws) (q, none) t' ∧
      b.Along b' flag v t.1 t' := by
  obtain ⟨hp, hnext⟩ := hm.same he ho
  have forth {br : Branch Label} (hn : b.get? p = some (.branch br)) :
      b'.get? q = some (.branch br) := (hm.get?_eq he ho).trans hn
  cases hs with
  | next hp' hplain =>
    cases Option.some.inj (hp.symm.trans hp')
    have hunread : (World.reading b flag v throws).pushed? e = none := if_neg fun hnew => hnew.1 ho
    have hstep : b'.Steps (.reading b flag v throws) (q, none)
        (q + 1, if e.2.isPseudo then none else (World.reading b flag v throws).pushed? e) :=
      .next he hplain
    rw [hunread, ite_self] at hstep
    exact ⟨ite_self none, _, hstep, .meet hnext⟩
  | jump hn hl hq ha =>
    obtain ⟨q', hq', hmeet⟩ := h.label_left hb (target_mem_labels hn hl) hq
    exact ⟨rfl, _, .jump (forth hn) hl hq' ha, .meet hmeet⟩
  | through hn hf hc ha => exact ⟨rfl, _, .through (forth hn) hf hc ha, .meet hnext⟩
  | @back _ c _ br _ hn hcall hc =>
    obtain ⟨e', he', heq⟩ := Option.map_eq_some_iff.mp hcall
    obtain ⟨q', hq', hmeet⟩ := h.kept he'
    have hcall' : b'.get? q' = some (.branch br) := by rw [get?_of_entry hq', heq]
    have ho' : e'.1 ∈ b.ids := mem_ids_of_entry he'
    exact ⟨rfl, _, .back (forth hn) hcall' hc, .meet (hmeet.same hq' ho').2⟩
  | handle hthrow ht hprotects hq =>
    obtain ⟨q', hq', hmeet⟩ := h.label_left hb (block_mem_labels ht).2.2 hq
    refine ⟨rfl, _, .handle ((hm.throws_iff he ho).mpr hthrow) (h.tryBlocks ▸ ht) ?_ hq', .meet hmeet⟩
    exact (h.protects_iff hb hm he ho ht).mpr hprotects
  | leave hn => exact ⟨rfl, _, .leave (forth hn), .meet (Weaves.meets_end b b' flag)⟩
  | escape hthrow =>
    exact ⟨rfl, _, .escape ((hm.throws_iff he ho).mpr hthrow), .meet (Weaves.meets_end b b' flag)⟩

end Same

theorem Guarding.not_throws (hg : Guarding flag e.2) (h : b'.entries[q]? = some e)
    (hnew : e.1 ∉ b.ids) : ¬ b'.Throws (.reading b flag v throws) q := by
  rintro ⟨e', he', -, ht⟩
  cases Option.some.inj (h.symm.trans he')
  rcases ht with ht | ht
  · exact hnew ht.1
  · rw [ht] at hg
    cases hg

/-- A run stays along the first body in a guard. Unless the guard jumps, it is still at the same
position there. -/
theorem Along.guard_step {s t : Place} (h : b.Weaves b' flag) (ha : b.Along b' flag v p s)
    (he : b'.entries[s.1]? = some e) (hnew : e.1 ∉ b.ids)
    (hs : b'.Steps (.reading b flag v throws) s t) :
    ∃ p', b.Along b' flag v p' t ∧ (v = false → p' = p) := by
  have hguard : Guarding flag e.2 := by
    rcases h.found he with ⟨ho, -⟩ | ⟨-, hg⟩
    · exact (hnew ho).elim
    · exact hg
  have hthrow : ¬ b'.Throws (.reading b flag v throws) s.1 := hguard.not_throws he hnew
  cases ha with
  | @meet q hmeet =>
    rw [Meets, onward_cons he] at hmeet
    rcases hmeet.new_head hnew with ⟨⟨l, hl⟩, hes⟩ | ⟨hread, j, l, rest, hj, hrest, hes⟩
    · rw [hs.plain he (by rw [hl]; rfl) hthrow, if_pos (by rw [hl]; rfl)]
      exact ⟨p, .meet hes, fun _ => rfl⟩
    · obtain ⟨hjump, rfl⟩ := onward_eq_cons hrest
      have hpushed : (World.reading b flag v throws).pushed? e = some v := if_pos ⟨hnew, hread⟩
      rw [hs.plain he (by rw [hread]; rfl) hthrow, if_neg (by simp [hread, Node.isPseudo]), hpushed]
      exact ⟨p, .read hjump hj hes, fun _ => rfl⟩
  | @read q j l hjump hj hmeet =>
    cases Option.some.inj (he.symm.trans hjump)
    -- The jump of a guard is taken just where the flag is set, and then leads to some label.
    rcases hs.ifZero (get?_of_entry he) hthrow with ⟨r, hr, htaken, rfl⟩ | ⟨-, rfl⟩
    · have hv : v = true := htaken
      obtain ⟨⟨n, hn, hnl⟩, -⟩ := labelPosition?_eq_some.mp hr
      rcases h.meet r with ⟨p', hmeet'⟩ | ⟨p', j', l', hj', -⟩
      · exact ⟨p', .meet hmeet', fun hfalse => by rw [hv] at hfalse; cases hfalse⟩
      · rw [get?_of_entry hj'] at hn
        cases hn
        cases hnl
    · exact ⟨p, .meet hmeet, fun _ => rfl⟩

/-- Where guards let runs through, they lead to the next node of the first body. -/
theorem Woven.advance {xs ys : List Entry} (h : Woven b flag xs ys) (hy : ys = b'.onward q)
    (hr : b'.Run (.reading b flag false throws) ids (q, none)) :
    ∃ news r, b'.Run (.reading b flag false throws) (ids ++ news) (r, none) ∧
      (∀ id ∈ news, id ∉ b.ids) ∧ Woven b flag xs (b'.onward r) ∧
      ∀ e, b'.entries[r]? = some e → e.1 ∈ b.ids := by
  induction h generalizing q ids with
  | nil =>
    refine ⟨[], q, by rwa [List.append_nil], by simp, hy ▸ .nil, fun e he => ?_⟩
    rw [onward_cons he] at hy
    cases hy
  | @old e es es' ho hes ih =>
    refine ⟨[], q, by rwa [List.append_nil], by simp, hy ▸ .old ho hes, fun e' he' => ?_⟩
    rw [onward_cons he'] at hy
    cases hy
    exact ho
  | @label id l es es' hid hl hes ih =>
    obtain ⟨he, hy⟩ := onward_eq_cons hy.symm
    obtain ⟨news, r, hrun, hnews, hmeet, hold⟩ := ih hy (hr.step he (.next he rfl))
    refine ⟨id :: news, r, ?_, ?_, hmeet, hold⟩
    · rwa [List.append_cons]
    · exact List.forall_mem_cons.mpr ⟨hid, hnews⟩
  | @guard i j l es es' hi hj hes ih =>
    obtain ⟨he, hy⟩ := onward_eq_cons hy.symm
    obtain ⟨he', hy⟩ := onward_eq_cons hy.symm
    have hread : b'.Run (.reading b flag false throws) (ids ++ [i]) (q + 1, some false) := by
      have hstep := hr.step he (.next he rfl)
      simpa [World.reading, hi, Node.isPseudo] using hstep
    have hthrough := hread.step he' (.through (get?_of_entry he') rfl rfl rfl)
    obtain ⟨news, r, hrun, hnews, hmeet, hold⟩ := ih hy hthrough
    refine ⟨i :: j :: news, r, ?_, ?_, hmeet, hold⟩
    · rwa [List.append_cons, List.append_cons]
    · exact List.forall_mem_cons.mpr ⟨hi, List.forall_mem_cons.mpr ⟨hj, hnews⟩⟩

theorem Along.advance {s : Place} (ha : b.Along b' flag false p s)
    (hr : b'.Run (.reading b flag false throws) ids s) :
    ∃ news r, b'.Run (.reading b flag false throws) (ids ++ news) (r, none) ∧
      (∀ id ∈ news, id ∉ b.ids) ∧ b.Meets b' flag p r ∧
      ∀ e, b'.entries[r]? = some e → e.1 ∈ b.ids := by
  cases ha with
  | meet hmeet => exact Woven.advance hmeet rfl hr
  | @read q j l hjump hj hmeet =>
    have hthrough := hr.step hjump (.through (get?_of_entry hjump) rfl rfl rfl)
    obtain ⟨news, r, hrun, hnews, hmeet, hold⟩ := Woven.advance hmeet rfl hthrough
    refine ⟨j :: news, r, ?_, List.forall_mem_cons.mpr ⟨hj, hnews⟩, hmeet, hold⟩
    rwa [List.append_cons]

/-- The nodes of a run that are from a body. -/
def ownPart (b : Body) (ids : List NodeId) : List NodeId := ids.filter fun id => id ∈ b.ids

theorem ownPart_append_old (ho : id ∈ b.ids) : b.ownPart (ids ++ [id]) = b.ownPart ids ++ [id] := by
  rw [ownPart, List.filter_append, List.filter_cons_of_pos (by simpa using ho)]
  rfl

theorem ownPart_append_new {news : List NodeId} (hnews : ∀ id ∈ news, id ∉ b.ids) :
    b.ownPart (ids ++ news) = b.ownPart ids := by
  have hnone : news.filter (fun id => decide (id ∈ b.ids)) = [] :=
    List.filter_eq_nil_iff.mpr fun id hid => by simpa using hnews id hid
  rw [ownPart, List.filter_append, hnone, List.append_nil]
  rfl

/-- Runs of the guarded body are along the first one. Where all guards let them through, they are runs
of the first one without the guards. -/
theorem Weaves.run_right (h : b.Weaves b' flag) (hb : b.WellMade) {s : Place}
    (hr : b'.Run (.reading b flag v throws) ids s) :
    ∃ p, b.Along b' flag v p s ∧ (v = false → b.Run (.free throws) (b.ownPart ids) (p, none)) := by
  induction hr with
  | start => exact ⟨0, .meet h.meets_start, fun _ => .start⟩
  | @step ids s t e hr he hs ih =>
    obtain ⟨p, ha, hrun⟩ := ih
    by_cases ho : e.1 ∈ b.ids
    · cases ha with
      | meet hmeet =>
        obtain ⟨p', hstep, ha⟩ := h.step_right hb hmeet he ho hs
        refine ⟨p', ha, fun hv => ?_⟩
        rw [ownPart_append_old ho]
        exact (hrun hv).step (hmeet.same he ho).1 hstep
      | read hjump hj =>
        cases Option.some.inj (he.symm.trans hjump)
        exact (hj ho).elim
    · obtain ⟨p', ha, hsame⟩ := ha.guard_step h he ho hs
      refine ⟨p', ha, fun hv => ?_⟩
      rw [ownPart_append_new (List.forall_mem_singleton.mpr ho), hsame hv]
      exact hrun hv

/-- Runs of the first body are runs of the guarded one without the guards. -/
theorem Weaves.run_left (h : b.Weaves b' flag) (hb : b.WellMade) {s : Place}
    (hr : b.Run (.free throws) ids s) :
    s.2 = none ∧ ∃ ids' s', b'.Run (.reading b flag false throws) ids' s' ∧ b.ownPart ids' = ids ∧
      b.Along b' flag false s.1 s' := by
  induction hr with
  | start => exact ⟨rfl, [], (0, none), .start, rfl, .meet h.meets_start⟩
  | @step ids s t e hr he hs ih =>
    -- First the guarded body goes through the guards that are in the way.
    obtain ⟨hnone, ids', s', hrun, rfl, ha⟩ := ih
    obtain ⟨p, top⟩ := s
    cases hnone
    obtain ⟨news, r, hrun, hnews, hmeet, hold⟩ := ha.advance hrun
    have ho : e.1 ∈ b.ids := mem_ids_of_entry he
    have he' : b'.entries[r]? = some e := (hmeet.entry_eq hold).trans he
    obtain ⟨hnone, t', hstep, ha⟩ := h.step_left hb hmeet he' ho hs
    refine ⟨hnone, _, t', hrun.step he' hstep, ?_, ha⟩
    rw [ownPart_append_old ho, ownPart_append_new hnews]

/-- Where all guards let runs through, runs are those of the first body, but for the guards. -/
theorem Weaves.runs_iff (h : b.Weaves b' flag) (hb : b.WellMade) :
    b.IsRun (.free throws) ids ↔
      ∃ ids', b'.IsRun (.reading b flag false throws) ids' ∧ b.ownPart ids' = ids := by
  constructor
  · rintro ⟨s, hr⟩
    obtain ⟨-, ids', s', hr', hown, -⟩ := h.run_left hb hr
    exact ⟨ids', ⟨s', hr'⟩, hown⟩
  · rintro ⟨ids', ⟨s', hr'⟩, rfl⟩
    obtain ⟨p, -, hr⟩ := h.run_right hb hr'
    exact ⟨_, hr rfl⟩

/-- The same holds of runs that are over. -/
theorem Weaves.wholeRuns_iff (h : b.Weaves b' flag) (hb : b.WellMade) :
    b.IsWholeRun (.free throws) ids ↔
      ∃ ids', b'.IsWholeRun (.reading b flag false throws) ids' ∧ b.ownPart ids' = ids := by
  constructor
  · rintro ⟨s, hr, hover⟩
    obtain ⟨-, ids', s', hr', rfl, ha⟩ := h.run_left hb hr
    obtain ⟨news, r, hrun, hnews, hmeet, hold⟩ := ha.advance hr'
    refine ⟨_, ⟨_, hrun, ?_⟩, ownPart_append_new hnews⟩
    have hnone := hmeet.entry_eq hold
    rw [Array.getElem?_eq_none hover] at hnone
    exact Array.getElem?_eq_none_iff.mp hnone
  · rintro ⟨ids', ⟨s', hr', hover⟩, rfl⟩
    obtain ⟨p, ha, hr⟩ := h.run_right hb hr'
    have hnone : b'.entries[s'.1]? = none := Array.getElem?_eq_none hover
    refine ⟨_, hr rfl, ?_⟩
    cases ha with
    | meet hmeet =>
      have hp := hmeet.entry_eq fun e he => by rw [hnone] at he; cases he
      rw [hnone] at hp
      exact Array.getElem?_eq_none_iff.mp hp.symm
    | read hjump => cases hnone.symm.trans hjump

end Body

end ClassGraft
