import ClassGraft.Proofs.DepthPaths
import ClassGraft.Proofs.PlacementFaults
import ClassGraft.Proofs.WellMadeBodies

namespace ClassGraft

/-- The bytes behind an offset are taken up by instructions that follow one another, and each is what its
own bytes are read as. -/
inductive Tiled (pool : Pool) (length : Nat) : Nat → Bytes → List (Nat × CodeItem) → Prop
  | done (o : Nat) : Tiled pool length o [] []
  | next {o : Nat} {op : UInt8} {operands rest : Bytes} {item : CodeItem} {os : List (Nat × CodeItem)} :
      (CodeSite.mk pool length o).item op ⟨o + 1, operands ++ rest⟩ =
        .ok (item, ⟨o + 1 + operands.length, rest⟩) →
      Tiled pool length (o + 1 + operands.length) rest os →
      Tiled pool length o (op :: (operands ++ rest)) ((o, item) :: os)

theorem listCode_tiled {pool : Pool} {length : Nat} {s : Cursor} {seen os : List (Nat × CodeItem)}
    (h : listCode pool length s seen = .ok os) :
    ∃ ts, os = seen.reverse ++ ts ∧ Tiled pool length s.offset s.rest ts := by
  fun_induction listCode pool length s seen with
  | case1 s seen hrest =>
    cases h
    rw [hrest]
    exact ⟨[], (List.append_nil _).symm, .done _⟩
  | case2 => cases h
  | case3 s seen op rest hrest item t hitem _ ih =>
    obtain ⟨⟨operands, hsplit⟩, htrack⟩ := CodeSite.item_follows _ hitem
    obtain ⟨ts, rfl, hts⟩ := ih h
    dsimp only at hsplit htrack
    have hoffset : t.offset = s.offset + 1 + operands.length := by
      rw [← hsplit, List.length_append] at htrack
      omega
    have ht : t = ⟨s.offset + 1 + operands.length, t.rest⟩ := by rw [← hoffset]
    rw [← hsplit, ht] at hitem
    rw [hoffset] at hts
    refine ⟨(s.offset, item) :: ts, by simp, ?_⟩
    rw [hrest, ← hsplit]
    exact .next hitem hts

theorem Listing.ofCode_tiled {pool : Pool} {code : Bytes} {l : Listing}
    (h : Listing.ofCode pool code = .ok l) :
    l.length = code.length ∧ Tiled pool code.length 0 code l.items := by
  obtain ⟨items, hitems, h⟩ := except_bind_ok.mp h
  cases h
  obtain ⟨ts, rfl, hts⟩ := listCode_tiled hitems
  exact ⟨rfl, hts⟩

theorem CodeItem.mapTargets_id {f : Nat → Nat} {i : CodeItem}
    (h : ∀ br, i = .inr br → ∀ t ∈ br.targets, f t = t) : i.mapTargets f = i := by
  rcases i with i | br
  · rfl
  · have hid : br.map f = br.map id := Branch.map_congr (h br rfl)
    have hmap : br.map id = br := by
      cases br with
      | tableSwitch | lookupSwitch => simp
      | _ => rfl
    exact congrArg Sum.inr (hid.trans hmap)

/-- The instructions that are read, if labels stand for the offsets that they were planned for. -/
theorem items_readNodes {plan : LabelPlan} {lines : List LineEntry} {frames : List (Nat × Frame)}
    {os : List (Nat × CodeItem)} {stop : Nat} {off : Label → Nat}
    (h : ∀ e ∈ os, ∀ br, e.2 = .inr br → ∀ t ∈ br.targets, off (plan.label t) = t) :
    items off (readNodes plan lines frames os ++ lastNodes plan stop) = os := by
  have hlast : items off (lastNodes plan stop) = [] := by
    unfold lastNodes
    split <;> rfl
  have hheads (o : Nat) : items off ((heads plan lines frames o).map fun n => (o, n)) = [] := by
    refine List.filterMap_eq_nil_iff.mpr fun e he => ?_
    obtain ⟨n, hn, rfl⟩ := List.mem_map.mp he
    rw [Option.map_eq_none_iff]
    exact List.filterMap_eq_nil_iff.mp (heads_item? off) n hn
  have hnodes (e : Nat × CodeItem) (he : ∀ br, e.2 = .inr br → ∀ t ∈ br.targets, off (plan.label t) = t) :
      items off ((nodesAt plan lines frames e.1 e.2).map fun n => (e.1, n)) = [e] := by
    have happend : items off ((heads plan lines frames e.1 ++ [e.2.toNode plan]).map fun n => (e.1, n)) =
        items off ((heads plan lines frames e.1).map fun n => (e.1, n)) ++
          items off [(e.1, e.2.toNode plan)] := by
      rw [List.map_append]
      exact List.filterMap_append
    rw [nodesAt_eq, happend, hheads, List.nil_append, items, List.filterMap_cons, CodeItem.item?_toNode,
      CodeItem.mapTargets_id he]
    rfl
  rw [items, List.filterMap_append]
  refine (congrArg₂ (· ++ ·) ?_ hlast).trans (List.append_nil _)
  induction os with
  | nil => rfl
  | cons e os ih =>
    obtain ⟨he, hos⟩ := List.forall_mem_cons.mp h
    rw [readNodes, List.flatMap_cons, List.filterMap_append]
    exact (congrArg₂ (· ++ ·) (hnodes e he) (ih hos)).trans rfl

theorem tryBlock_kept {pool : Pool} {plan : LabelPlan} {place : Label → Except ClassError Nat}
    {e : ExceptionEntry} {t : TryBlock} (h : tryBlock pool plan e = .ok t) (hlt : e.start < e.stop)
    (hplace : ∀ o ∈ [e.start.toNat, e.stop.toNat, e.handler.toNat], place (plan.label o) = .ok o) :
    t.Kept place pool e := by
  simp only [List.mem_cons, List.not_mem_nil, or_false, forall_eq_or_imp, forall_eq] at hplace
  obtain ⟨hstart, hstop, hhandler⟩ := hplace
  unfold tryBlock at h
  dsimp only at h
  split at h
  next hnone =>
    cases h
    exact ⟨hstart, hstop, hhandler, hlt, hnone⟩
  next hsome =>
    obtain ⟨type, htype, h⟩ := except_bind_ok.mp h
    cases type with
    | object n =>
      cases h
      exact ⟨hstart, hstop, hhandler, hlt, hsome, htype⟩
    | _ => cases h

theorem localRange_kept {pool : Pool} {plan : LabelPlan} {place : Label → Except ClassError Nat}
    {e : LocalEntry × Bool} {v : LocalRange} (h : localRange pool plan e = .ok v)
    (hplace : ∀ o ∈ [e.1.start.toNat, e.1.start.toNat + e.1.length.toNat],
      place (plan.label o) = .ok o) : v.Kept place pool e := by
  simp only [List.mem_cons, List.not_mem_nil, or_false, forall_eq_or_imp, forall_eq] at hplace
  obtain ⟨name, hname, h⟩ := except_bind_ok.mp h
  obtain ⟨descriptor, hdescriptor, h⟩ := except_bind_ok.mp h
  cases h
  exact ⟨hplace.1, hplace.2, rfl, rfl, hname, hdescriptor⟩

open Layout

namespace Body

variable {b : Body} {pool : Pool} {entry : Option Frame} {c : CodeAttribute} {l : Listing}
  {d : DebugTables} {fs : List (Nat × Frame)} {o : Nat}

/-- A body says what a code attribute says, where its nodes stand at the given offsets. -/
structure Represents (b : Body) (pool : Pool) (c : CodeAttribute) (es : List (Nat × Node)) : Prop where
  nodes : es.map Prod.snd = b.nodes
  spaced : Spaced c.code.length 0 es
  /-- The instructions, with the offsets of their targets, are those of the code array. -/
  tiled : Tiled pool c.code.length 0 c.code (items (offsetOf es) es)
  labelsOnce : b.LabelsOnce
  /-- Each label leads to the instruction at its offset, past nothing but pseudo nodes. -/
  landed : ∀ m o, (marked es).lookup m = some o →
    o = c.code.length ∧ b.labelTarget m = .ok none ∨
      ∃ r n, b.labelTarget m = .ok (some r) ∧ es[r]? = some (o, n) ∧ n.isPseudo = false
  blocks : List.Forall₂ (TryBlock.Kept (placeOf (marked es)) pool) b.tryBlocks c.exceptions
  /-- The ranges are those of the entries that begin and end at instructions. -/
  locals : ∃ l d, Listing.ofCode pool c.code = .ok l ∧
    DebugTables.ofAttributes pool l c.attributes = .ok d ∧
    List.Forall₂ (LocalRange.Kept (placeOf (marked es)) pool) b.locals d.locals
  news : ∀ r n, b.get? r = some (.insn (.new n)) → ∃ m, b.labelTarget m = .ok (some r)
  complete : b.checkLabels = .ok ()
  unedited : b.edits = #[]

namespace ReadFrom

theorem checked (h : b.ReadFrom pool entry c l d fs) : Checked l c.exceptions d :=
  ⟨h.listed, h.targets, h.handlers, DebugTables.ofAttributes_inRange h.tables⟩

theorem length_eq (h : b.ReadFrom pool entry c l d fs) : l.length = c.code.length :=
  (Listing.ofCode_tiled h.listing).1

variable (c l d) in
/-- The nodes of a body that is read, with their offsets. -/
abbrev laidNodes (fs : List (Nat × Frame)) : List (Nat × Node) :=
  readNodes (LabelPlan.make l c.exceptions d) d.lines fs l.items ++
    lastNodes (LabelPlan.make l c.exceptions d) l.length

/-- Every offset that something refers to has a label, which is placed there. -/
theorem placed (h : b.ReadFrom pool entry c l d fs) (ho : o ∈ LabelPlan.wanted l c.exceptions d) :
    (marked (laidNodes c l d fs)).lookup ((LabelPlan.make l c.exceptions d).label o) = some o :=
  lookup_marked_readNodes (h.checked.planned ho)
    ((Listing.isBoundary_iff h.listed.found o).mp (h.checked.wanted_boundary ho))

theorem items_eq (h : b.ReadFrom pool entry c l d fs) :
    items (offsetOf (laidNodes c l d fs)) (laidNodes c l d fs) = l.items := by
  refine items_readNodes fun e he br hbr t ht => ?_
  obtain ⟨o, _⟩ := e
  subst hbr
  rw [offsetOf, h.placed (LabelPlan.wanted_target c.exceptions d he t ht)]
  rfl

theorem landed (h : b.ReadFrom pool entry c l d fs) {m : Label}
    (hm : (marked (laidNodes c l d fs)).lookup m = some o) :
    o = l.length ∧ b.labelTarget m = .ok none ∨ ∃ r n, b.labelTarget m = .ok (some r) ∧
      (laidNodes c l d fs)[r]? = some (o, n) ∧ n.isPseudo = false := by
  obtain ⟨p, hp, hmark⟩ := Option.bind_eq_some_iff.mp ((lookup_marked_position h.nodes).symm.trans hm)
  obtain ⟨e, he, heo⟩ := Option.map_eq_some_iff.mp hmark
  rcases h.spaced.boundary e (List.mem_of_getElem? he) with hstop | hstart
  · have htarget : b.labelTarget m = .ok (b.instructionFrom? p) := by
      unfold labelTarget labelPosition
      rw [hp]
      rfl
    refine .inl ⟨heo ▸ hstop, htarget.trans (congrArg Except.ok ?_)⟩
    cases hi : b.instructionFrom? p with
    | none => rfl
    | some r =>
      rw [hi] at htarget
      obtain ⟨q, hq, hlt⟩ := label_offset h.spaced h.nodes htarget
      cases hm.symm.trans hq
      omega
  · obtain ⟨⟨q, n⟩, hin, hq⟩ := List.mem_map.mp hstart
    obtain ⟨hin, hreal⟩ := List.mem_filter.mp hin
    obtain ⟨r, hr⟩ := List.mem_iff_getElem?.mp hin
    have hreal : n.isPseudo = false := by simpa using hreal
    cases hq.trans heo
    exact .inr ⟨r, n, labelTarget_at h.spaced h.nodes hm hr hreal, hr, hreal⟩

theorem placeOf_wanted (h : b.ReadFrom pool entry c l d fs) (ho : o ∈ LabelPlan.wanted l c.exceptions d) :
    placeOf (marked (laidNodes c l d fs)) ((LabelPlan.make l c.exceptions d).label o) = .ok o :=
  placeOf_ok.mpr (h.placed ho)

theorem block_kept (h : b.ReadFrom pool entry c l d fs) {e : ExceptionEntry} (he : e ∈ c.exceptions)
    {t : TryBlock} (ht : tryBlock pool (LabelPlan.make l c.exceptions d) e = .ok t) :
    t.Kept (placeOf (marked (laidNodes c l d fs))) pool e := by
  obtain ⟨hstart, hstop, hhandler⟩ := LabelPlan.wanted_handler l d he
  have hsound : l.isSound e = true := Listing.checkHandlers_sound h.handlers e he
  simp only [Listing.isSound, Bool.and_eq_true, decide_eq_true_eq] at hsound
  refine tryBlock_kept ht hsound.1.1.1 ?_
  simpa using ⟨h.placeOf_wanted hstart, h.placeOf_wanted hstop, h.placeOf_wanted hhandler⟩

theorem range_kept (h : b.ReadFrom pool entry c l d fs) {v : LocalEntry × Bool} (hv : v ∈ d.locals)
    {r : LocalRange} (hr : localRange pool (LabelPlan.make l c.exceptions d) v = .ok r) :
    r.Kept (placeOf (marked (laidNodes c l d fs))) pool v := by
  obtain ⟨hstart, hstop⟩ := LabelPlan.wanted_local l c.exceptions hv
  refine localRange_kept hr ?_
  simpa using ⟨h.placeOf_wanted hstart, h.placeOf_wanted hstop⟩

/-- The label of a `new` leads to its node. -/
theorem new_target (h : b.ReadFrom pool entry c l d fs) {r : Nat} {n : BinaryName}
    (hr : b.get? r = some (.insn (.new n))) : ∃ m, b.labelTarget m = .ok (some r) := by
  obtain ⟨o, ho⟩ := (get?_of_nodes h.nodes).mp hr
  have hitem : (o, Sum.inl (.new n)) ∈ l.items := by
    rw [← h.items_eq]
    exact List.mem_filterMap.mpr ⟨_, List.mem_of_getElem? ho, rfl⟩
  exact ⟨_, labelTarget_at h.spaced h.nodes (h.placed (LabelPlan.wanted_new c.exceptions d hitem)) ho rfl⟩

theorem complete (h : b.ReadFrom pool entry c l d fs) : b.Complete := by
  have position {o : Nat} {m : Label} (hm : (marked (laidNodes c l d fs)).lookup m = some o) :
      ∃ p, b.labelPosition? m = some p := by
    rw [lookup_marked_position h.nodes] at hm
    obtain ⟨p, hp, -⟩ := Option.bind_eq_some_iff.mp hm
    exact ⟨p, hp⟩
  intro m hm
  rcases List.mem_append.mp hm with hm | hm
  · rcases List.mem_append.mp hm with hm | hm
    · obtain ⟨n, hn, hm⟩ := List.mem_flatMap.mp hm
      cases n with
      | branch br =>
        obtain ⟨⟨p, i | source⟩, hi, hnode⟩ := h.instruction_mem hn rfl
        · cases hnode
        · cases hnode
          replace hm : m ∈ (source.map _).targets := hm
          rw [Branch.targets_map] at hm
          obtain ⟨t, ht, rfl⟩ := List.mem_map.mp hm
          exact position (h.placed (LabelPlan.wanted_target c.exceptions d hi t ht))
      | _ => cases hm
    · obtain ⟨t, ht, hm⟩ := List.mem_flatMap.mp hm
      obtain ⟨e, he, ht⟩ := (mem_mapM_ok h.blocks t).mp ht
      obtain ⟨hstart, hstop, hhandler, -⟩ := h.block_kept he ht
      simp only [List.mem_cons, List.not_mem_nil, or_false] at hm
      rcases hm with rfl | rfl | rfl
      · exact position (placeOf_ok.mp hstart)
      · exact position (placeOf_ok.mp hstop)
      · exact position (placeOf_ok.mp hhandler)
  · obtain ⟨v, hv, hm⟩ := List.mem_flatMap.mp hm
    obtain ⟨e, he, hv⟩ := (mem_mapM_ok h.ranges v).mp hv
    obtain ⟨hstart, hstop, -⟩ := h.range_kept he hv
    simp only [List.mem_cons, List.not_mem_nil, or_false] at hm
    rcases hm with rfl | rfl
    · exact position (placeOf_ok.mp hstart)
    · exact position (placeOf_ok.mp hstop)

theorem represents (h : b.ReadFrom pool entry c l d fs) :
    b.Represents pool c (laidNodes c l d fs) where
  nodes := h.nodes
  spaced := h.length_eq ▸ h.spaced
  tiled := by
    rw [h.items_eq]
    exact (Listing.ofCode_tiled h.listing).2
  labelsOnce := h.labelsOnce
  landed m o hm := h.length_eq ▸ h.landed hm
  blocks := mapM_ok_forall₂ h.blocks fun _ he _ => h.block_kept he
  locals := ⟨l, d, h.listing, h.tables, mapM_ok_forall₂ h.ranges fun _ hv _ => h.range_kept hv⟩
  news _ _ := h.new_target
  complete := complete_iff.mpr h.complete
  unedited := congrArg Body.edits h.made

end ReadFrom

/-- Putting a body together never fails for a label that is missing or placed already, and what it gives
represents the code attribute. -/
theorem build_represents (pool : Pool) (entry : Option Frame) (c : CodeAttribute) :
    build pool entry c = ofCode pool entry c ∧
    (∀ e, build pool entry c = .error e → ¬e.IsPlacementFault) ∧
    ∀ b, build pool entry c = .ok b → ∃ es, b.Represents pool c es := by
  have hbuild := build_eq pool entry c
  refine ⟨hbuild, ?_, fun b hb => ?_⟩
  · rw [hbuild]
    exact ofCode_clear pool entry c
  · rw [hbuild] at hb
    obtain ⟨l, d, fs, hread⟩ := ofCode_readFrom hb
    exact ⟨_, hread.represents⟩

end Body

namespace GuardedJump

def code : CodeAttribute := ⟨0, 0, [0xA7, 0, 3, 0xB1], [⟨0, 3, 3, 0⟩], []⟩

def body : Body where
  entries := #[(⟨0⟩, .label ⟨0⟩), (⟨1⟩, .branch (.goto ⟨1⟩)), (⟨2⟩, .label ⟨1⟩),
    (⟨3⟩, .branch (.leave none))]
  nextId := 4
  nextLabel := 2
  version := 4
  edits := #[]
  tryBlocks := [⟨⟨0⟩, ⟨1⟩, ⟨1⟩, none⟩]
  locals := []

theorem built : Body.build Pool.empty none code = .ok body := by
  rw [Body.build_eq]
  cbv

end GuardedJump

theorem GuardedJump.represented : Body.build Pool.empty none code = .ok body ∧
    ∃ es, body.Represents Pool.empty code es :=
  ⟨built, (Body.build_represents Pool.empty none code).2.2 body built⟩

end ClassGraft
