import ClassGraft.Proofs.FrameRoundTrip
import ClassGraft.Proofs.PlacedBodies

namespace ClassGraft

theorem idxOf_map_of {α β : Type} [BEq α] [LawfulBEq α] [BEq β] [LawfulBEq β] {f : α → β} {xs : List α}
    {a : α} (hf : ∀ x ∈ xs, f x = f a → x = a) : (xs.map f).idxOf (f a) = xs.idxOf a := by
  induction xs with
  | nil => rfl
  | cons x xs ih =>
    obtain ⟨hx, hxs⟩ := List.forall_mem_cons.mp hf
    by_cases he : x = a
    · rw [he, List.map_cons, List.idxOf_cons_self, List.idxOf_cons_self]
    · rw [List.map_cons, List.idxOf_cons_ne _ he, List.idxOf_cons_ne _ fun h => he (hx h), ih hxs]

theorem eq_of_map_eq {α β : Type} {f g : α → β} {xs ys : List α} (h : xs.map f = ys.map g)
    (hf : ∀ x ∈ xs, ∀ y ∈ ys, f x = g y → x = y) : xs = ys := by
  induction xs generalizing ys with
  | nil => exact (List.map_eq_nil_iff.mp h.symm).symm
  | cons x xs ih =>
    cases ys with
    | nil => cases h
    | cons y ys =>
      obtain ⟨hxy, h⟩ := List.cons.inj h
      rw [hf x List.mem_cons_self y List.mem_cons_self hxy, ih h fun x hx y hy =>
        hf x (List.mem_cons_of_mem _ hx) y (List.mem_cons_of_mem _ hy)]

/-- What stands under one of several keys. -/
theorem filter_groups {ι α : Type} {key : ι → Nat} {g : ι → List α} {os : List ι}
    (hkeys : (os.map key).Nodup) {e : ι} (he : e ∈ os) :
    ((os.flatMap fun e => (g e).map fun a => (key e, a)).filter fun p => p.1 == key e).map Prod.snd =
      g e := by
  have hother {c : ι} (hne : key c ≠ key e) :
      ((g c).map fun a => (key c, a)).filter (fun p => p.1 == key e) = [] := by
    refine List.filter_eq_nil_iff.mpr fun p hp => ?_
    obtain ⟨_, -, rfl⟩ := List.mem_map.mp hp
    simpa using hne
  induction os with
  | nil => cases he
  | cons c os ih =>
    rw [List.map_cons] at hkeys
    obtain ⟨hnew, hkeys⟩ := List.nodup_cons.mp hkeys
    rw [List.flatMap_cons, List.filter_append, List.map_append]
    rcases List.mem_cons.mp he with rfl | he
    · have hrest : (os.flatMap fun e => (g e).map fun a => (key e, a)).filter
          (fun p => p.1 == key e) = [] := by
        rw [List.filter_flatMap]
        exact List.flatMap_eq_nil_iff.mpr fun c hc => hother fun h => hnew (h ▸ List.mem_map_of_mem hc)
      have hown : ((g e).map fun a => (key e, a)).filter (fun p => p.1 == key e) =
          (g e).map fun a => (key e, a) := by
        refine List.filter_eq_self.mpr fun p hp => ?_
        obtain ⟨_, -, rfl⟩ := List.mem_map.mp hp
        exact BEq.rfl
      rw [hrest, hown, List.map_nil, List.append_nil, List.map_map]
      exact List.map_id _
    · rw [hother fun h => hnew (h ▸ List.mem_map_of_mem he), ih hkeys he]
      rfl

theorem rank_getElem? {os : List Nat} (h : os.Pairwise (· < ·)) {k o : Nat} (ho : os[k]? = some o) :
    rank os o = k := by
  induction os generalizing k with
  | nil => cases ho
  | cons s os ih =>
    obtain ⟨hs, hos⟩ := List.pairwise_cons.mp h
    cases k with
    | zero =>
      cases ho
      exact rank_low (List.forall_mem_cons.mpr ⟨Nat.le_refl _, fun p hp => Nat.le_of_lt (hs p hp)⟩)
    | succ k =>
      rw [List.getElem?_cons_succ] at ho
      have hlt := hs o (List.mem_of_getElem? ho)
      have hrest := ih hos ho
      rw [rank] at hrest ⊢
      rw [List.countP_cons, hrest, if_pos (decide_eq_true hlt)]

/-- The label for an ordinal, where those that have one are given in order. -/
def labelOf (places : List Nat) : Option Nat → Label
  | some k => ⟨places.idxOf k⟩
  | none => ⟨places.length⟩

/-- A label has the number that its ordinal gives it. -/
def Label.Named (ks : List Nat) (f : Label → Option Nat) (m : Label) : Prop :=
  m = labelOf ks (f m)

variable {ks : List Nat} {f g : Label → Option Nat}

theorem Label.Named.eq {m n : Label} (hm : m.Named ks f) (hn : n.Named ks g)
    (h : f m = g n) : m = n := by
  rw [hm, hn, h]

theorem TryBlock.view_inj {t u : TryBlock} (ht : ∀ m ∈ t.labels, m.Named ks f)
    (hu : ∀ m ∈ u.labels, m.Named ks g) (h : t.view f = u.view g) : t = u := by
  simp only [TryBlock.labels, List.forall_mem_cons] at ht hu
  obtain ⟨hstart, hstop, hhandler, hcaught⟩ := BlockView.mk.inj h
  cases t
  cases u
  cases ht.1.eq hu.1 hstart
  cases ht.2.1.eq hu.2.1 hstop
  cases ht.2.2.1.eq hu.2.2.1 hhandler
  cases hcaught
  rfl

theorem LocalRange.view_inj {v w : LocalRange} (hv : v.start.Named ks f ∧ v.stop.Named ks f)
    (hw : w.start.Named ks g ∧ w.stop.Named ks g) (h : v.view f = w.view g) : v = w := by
  obtain ⟨hname, hdescriptor, hstart, hstop, hindex, hsign⟩ := LocalView.mk.inj h
  cases v
  cases w
  cases hv.1.eq hw.1 hstart
  cases hv.2.eq hw.2 hstop
  cases hname
  cases hdescriptor
  cases hindex
  cases hsign
  rfl

theorem VerifyType.view_inj {t u : VerifyType} (ht : Sited (fun s => s.label.Named ks f) t)
    (hu : Sited (fun s => s.label.Named ks g) u) (h : t.view f = u.view g) : t = u := by
  cases t with
  | uninitialized s =>
    cases u with
    | uninitialized r =>
      obtain ⟨htype, hmade⟩ := SiteView.mk.inj (SlotType.uninitialized.inj h)
      cases s
      cases r
      cases htype
      cases Label.Named.eq ht hu hmade
      rfl
    | _ => cases h
  | object c =>
    cases u with
    | object e =>
      cases h
      rfl
    | _ => cases h
  | _ => cases u <;> first | rfl | cases h

theorem Frame.view_inj {x y : Frame} (hx : x.Sited fun s => s.label.Named ks f)
    (hy : y.Sited fun s => s.label.Named ks g) (h : x.view f = y.view g) : x = y := by
  obtain ⟨hlocals, hstack⟩ := FrameOf.mk.inj h
  obtain ⟨ls, ss⟩ := x
  obtain ⟨ms, ts⟩ := y
  have hls : ls = ms := eq_of_map_eq hlocals fun t ht u hu =>
    VerifyType.view_inj (hx.locals t ht) (hy.locals u hu)
  have hss : ss = ts := eq_of_map_eq hstack fun t ht u hu =>
    VerifyType.view_inj (hx.stack t ht) (hy.stack u hu)
  rw [hls, hss]

theorem CodeItem.toNode_inj {plan plan' : LabelPlan} {i i' : CodeItem}
    (hi : ∀ br, i = .inr br → ∀ o ∈ br.targets, (plan.label o).Named ks f)
    (hi' : ∀ br, i' = .inr br → ∀ o ∈ br.targets, (plan'.label o).Named ks g)
    (h : i.mapTargets (fun o => f (plan.label o)) = i'.mapTargets fun o => g (plan'.label o)) :
    i.toNode plan = i'.toNode plan' := by
  have named {plan : LabelPlan} {f : Label → Option Nat} {br : Branch Nat}
      (hbr : ∀ o ∈ br.targets, (plan.label o).Named ks f) :
      br.map plan.label = (br.map fun o => f (plan.label o)).map (labelOf ks) := by
    rw [Branch.map_map]
    exact Branch.map_congr hbr
  rcases i with i | br <;> rcases i' with i' | br'
  · cases h
    rfl
  · cases h
  · cases h
  · have hbr := Sum.inr.inj h
    show Node.branch _ = Node.branch _
    rw [named (hi br rfl), named (hi' br' rfl), hbr]

/-- The line number that a node gives. -/
def Node.line? : Node → Option UInt16
  | .line n => some n
  | _ => none

theorem nodesAt_lines {plan : LabelPlan} {lines : List LineEntry} {frames : List (Nat × Frame)} {o : Nat}
    {i : CodeItem} : (nodesAt plan lines frames o i).filterMap Node.line? =
      (lines.filter fun z => z.start.toNat == o).map LineEntry.line := by
  have hlabel : (if plan.contains o then [Node.label (plan.label o)] else []).filterMap Node.line? = [] := by
    split <;> rfl
  have hframe : ((frames.lookup o).map Node.frame).toList.filterMap Node.line? = [] := by
    cases frames.lookup o <;> rfl
  have hitem : [i.toNode plan].filterMap Node.line? = [] := by rcases i with i | br <;> rfl
  rw [nodesAt, List.filterMap_append, List.filterMap_append, List.filterMap_append, hlabel, hframe,
    hitem, List.filterMap_map, List.nil_append, List.append_nil, List.append_nil]
  show (lines.filter _).filterMap (some ∘ LineEntry.line) = _
  rw [List.filterMap_eq_map]

theorem nodesAt_frames {plan : LabelPlan} {lines : List LineEntry} {frames : List (Nat × Frame)} {o : Nat}
    {i : CodeItem} : (nodesAt plan lines frames o i).filterMap Node.frame? = (frames.lookup o).toList := by
  have hlabel : (if plan.contains o then [Node.label (plan.label o)] else []).filterMap Node.frame? =
      [] := by split <;> rfl
  have hlines : ((lines.filter fun z => z.start.toNat == o).map fun z => Node.line z.line).filterMap
      Node.frame? = [] := by
    rw [List.filterMap_map]
    exact List.filterMap_eq_nil_iff.mpr fun _ _ => rfl
  have hitem : [i.toNode plan].filterMap Node.frame? = [] := by rcases i with i | br <;> rfl
  rw [nodesAt, List.filterMap_append, List.filterMap_append, List.filterMap_append, hlabel, hlines,
    hitem, List.append_nil]
  cases frames.lookup o <;> rfl

namespace Listing

/-- The number of instructions before an offset. -/
abbrev ordinal (l : Listing) (o : Nat) : Nat := rank (l.items.map Prod.fst) o

/-- An instruction begins at the offset, or it is behind the last one. -/
abbrev IsPlace (l : Listing) (o : Nat) : Prop := o = l.length ∨ o ∈ l.items.map Prod.fst

end Listing

/-- Two bodies say the same, the local variables in any order. -/
structure Body.Echoes (b' b : Body) : Prop where
  program : b'.program = b.program
  blocks : b'.tryBlocks.map (TryBlock.view b'.ordinal?) = b.tryBlocks.map (TryBlock.view b.ordinal?)
  locals : (b'.locals.map (LocalRange.view b'.ordinal?)).Perm
    (b.locals.map (LocalRange.view b.ordinal?))
  lines : b'.lineNumbers = b.lineNumbers
  frames : b'.carriedFrames = b.carriedFrames

namespace Body

theorem Echoes.symm {b b' : Body} (h : b'.Echoes b) : b.Echoes b' :=
  ⟨h.program.symm, h.blocks.symm, h.locals.symm, h.lines.symm, h.frames.symm⟩

namespace ReadFrom

variable {b b' : Body} {pool pool' : Pool} {entry entry' : Option Frame} {c c' : CodeAttribute}
  {l l' : Listing} {d d' : DebugTables} {fs fs' : List (Nat × Frame)} {o p k : Nat} {i : CodeItem}

variable (c l d) in
/-- The ordinals that have labels. -/
abbrev places : List Nat := (LabelPlan.make l c.exceptions d).map l.ordinal

theorem planned_place (h : b.ReadFrom pool entry c l d fs) (ho : o ∈ LabelPlan.make l c.exceptions d) :
    l.IsPlace o :=
  (Listing.isBoundary_iff h.listed.found o).mp (h.checked.wanted_boundary (LabelPlan.mem_make.mp ho).1)

theorem place_le (h : b.ReadFrom pool entry c l d fs) (ho : l.IsPlace o) : o ≤ l.length := by
  rcases ho with rfl | ho
  · exact Nat.le_refl _
  · exact Nat.le_of_lt ((List.pairwise_append.mp h.listed.ascend).2.2 o ho _ (by simp))

theorem ordinal_lt_iff (h : b.ReadFrom pool entry c l d fs) (ho : l.IsPlace o) (hp : l.IsPlace p) :
    l.ordinal o < l.ordinal p ↔ o < p := rank_lt_iff ho (h.place_le hp)

theorem ordinal_inj (h : b.ReadFrom pool entry c l d fs) (ho : l.IsPlace o) (hp : l.IsPlace p)
    (he : l.ordinal o = l.ordinal p) : o = p := by
  have hlt := h.ordinal_lt_iff ho hp
  have hgt := h.ordinal_lt_iff hp ho
  omega

theorem item_ordinal (h : b.ReadFrom pool entry c l d fs) (hk : l.items[k]? = some (o, i)) :
    l.ordinal o = k := by
  refine rank_getElem? (List.pairwise_append.mp h.listed.ascend).1 ?_
  rw [List.getElem?_map, hk]
  rfl

theorem ordinal?_planned (h : b.ReadFrom pool entry c l d fs)
    (ho : o ∈ LabelPlan.make l c.exceptions d) :
    b.ordinal? ((LabelPlan.make l c.exceptions d).label o) = some (l.ordinal o) :=
  ordinal?_readNodes h.nodes h.listed.head h.listed.ascend ho (h.planned_place ho)

/-- Labels are numbered in the order of their ordinals. -/
theorem named (h : b.ReadFrom pool entry c l d fs) (ho : o ∈ LabelPlan.make l c.exceptions d) :
    ((LabelPlan.make l c.exceptions d).label o).Named (places c l d) b.ordinal? := by
  rw [Label.Named, h.ordinal?_planned ho]
  refine congrArg Label.mk (idxOf_map_of fun p hp he => ?_).symm
  exact h.ordinal_inj (h.planned_place hp) (h.planned_place ho) he

theorem mem_places (h : b.ReadFrom pool entry c l d fs) (ho : l.IsPlace o) :
    l.ordinal o ∈ places c l d ↔ o ∈ LabelPlan.make l c.exceptions d := by
  rw [List.mem_map]
  constructor
  · rintro ⟨p, hp, he⟩
    exact h.ordinal_inj (h.planned_place hp) ho he ▸ hp
  · exact fun ho => ⟨o, ho, rfl⟩

theorem places_ascend (h : b.ReadFrom pool entry c l d fs) : (places c l d).Pairwise (· < ·) := by
  refine List.pairwise_map.mpr ((List.pairwise_lt_range.filter _).imp_of_mem fun ho hp hlt => ?_)
  exact (h.ordinal_lt_iff (h.planned_place ho) (h.planned_place hp)).mpr hlt

theorem program_eq (h : b.ReadFrom pool entry c l d fs) : b.program = l.items.map fun e =>
    e.2.mapTargets fun o => b.ordinal? ((LabelPlan.make l c.exceptions d).label o) :=
  program_readNodes h.nodes

theorem block_view (h : b.ReadFrom pool entry c l d fs) {e : ExceptionEntry} {t : TryBlock}
    (he : e ∈ c.exceptions) (ht : tryBlock pool (LabelPlan.make l c.exceptions d) e = .ok t) :
    t.view b.ordinal? = ⟨some (l.ordinal e.start.toNat), some (l.ordinal e.stop.toNat),
      some (l.ordinal e.handler.toNat), t.caught⟩ := by
  obtain ⟨hstart, hstop, hhandler⟩ := tryBlock_ok ht
  obtain ⟨wstart, wstop, whandler⟩ := LabelPlan.wanted_handler l d he
  rw [TryBlock.view, hstart, hstop, hhandler, h.ordinal?_planned (h.checked.planned wstart),
    h.ordinal?_planned (h.checked.planned wstop), h.ordinal?_planned (h.checked.planned whandler)]

theorem range_labels {v : LocalEntry × Bool} {r : LocalRange}
    (hr : localRange pool (LabelPlan.make l c.exceptions d) v = .ok r) :
    r.start = (LabelPlan.make l c.exceptions d).label v.1.start.toNat ∧
      r.stop = (LabelPlan.make l c.exceptions d).label (v.1.start.toNat + v.1.length.toNat) := by
  obtain ⟨_, -, hr⟩ := except_bind_ok.mp hr
  obtain ⟨_, -, hr⟩ := except_bind_ok.mp hr
  cases hr
  exact ⟨rfl, rfl⟩

theorem range_view (h : b.ReadFrom pool entry c l d fs) {v : LocalEntry × Bool} {r : LocalRange}
    (hv : v ∈ d.locals) (hr : localRange pool (LabelPlan.make l c.exceptions d) v = .ok r) :
    (r.view b.ordinal?).start = some (l.ordinal v.1.start.toNat) ∧
      (r.view b.ordinal?).stop = some (l.ordinal (v.1.start.toNat + v.1.length.toNat)) := by
  obtain ⟨hstart, hstop⟩ := range_labels hr
  obtain ⟨wstart, wstop⟩ := LabelPlan.wanted_local l c.exceptions hv
  rw [LocalRange.view, hstart, hstop]
  exact ⟨h.ordinal?_planned (h.checked.planned wstart), h.ordinal?_planned (h.checked.planned wstop)⟩

/-- What the nodes before an instruction say is said under its ordinal. -/
theorem collected (h : b.ReadFrom pool entry c l d fs) {α : Type} (sel : Node → Option α)
    (hl : ∀ m, sel (.label m) = none) :
    ((numbered 0 b.nodes).filterMap fun e =>
        if e.1 < b.program.length then (sel e.2).map fun a => (e.1, a) else none) =
      l.items.flatMap fun e =>
        ((nodesAt (LabelPlan.make l c.exceptions d) d.lines fs e.1 e.2).filterMap sel).map
          fun a => (l.ordinal e.1, a) := by
  have hlength : b.program.length = l.items.length := by rw [h.program_eq, List.length_map]
  rw [hlength, ← h.nodes, numbered_eq h.spaced, starts_readNodes, List.filterMap_map,
    List.filterMap_append]
  have hlast : (lastNodes (LabelPlan.make l c.exceptions d) l.length).filterMap
      ((fun e => if e.1 < l.items.length then (sel e.2).map fun a => (e.1, a) else none) ∘
        fun e => (0 + rank (l.items.map Prod.fst) e.1, e.2)) = [] := by
    unfold lastNodes
    split
    · simp [hl]
    · rfl
  rw [hlast, List.append_nil, readNodes, List.filterMap_flatMap]
  refine List.flatMap_congr fun e he => ?_
  obtain ⟨k, hk⟩ := List.mem_iff_getElem?.mp he
  have hlt : 0 + rank (l.items.map Prod.fst) e.1 < l.items.length := by
    rw [Nat.zero_add]
    refine lt_of_eq_of_lt (h.item_ordinal hk) ?_
    exact (List.getElem?_eq_some_iff.mp hk).1
  rw [List.filterMap_map, List.map_filterMap]
  refine List.filterMap_congr fun n _ => ?_
  refine (if_pos hlt).trans ?_
  dsimp only
  rw [Nat.zero_add]

theorem lineNumbers_items (h : b.ReadFrom pool entry c l d fs) : b.lineNumbers =
    l.items.flatMap fun e => ((d.lines.filter fun z => z.start.toNat == e.1).map LineEntry.line).map
      fun n => (l.ordinal e.1, n) := by
  have hsel : b.lineNumbers = (numbered 0 b.nodes).filterMap fun e =>
      if e.1 < b.program.length then (Node.line? e.2).map fun n => (e.1, n) else none := by
    refine List.filterMap_congr fun e _ => ?_
    obtain ⟨k, n⟩ := e
    cases n <;> first | rfl | exact (ite_self none).symm
  rw [hsel, h.collected Node.line? fun _ => rfl]
  exact List.flatMap_congr fun e _ => by rw [nodesAt_lines]

theorem carriedFrames_items (h : b.ReadFrom pool entry c l d fs) : b.carriedFrames =
    l.items.flatMap fun e => ((fs.lookup e.1).map (Frame.view b.ordinal?)).toList.map
      fun f => (l.ordinal e.1, f) := by
  have hsel : b.carriedFrames = (numbered 0 b.nodes).filterMap fun e => if e.1 < b.program.length then
      ((Node.frame? e.2).map (Frame.view b.ordinal?)).map fun f => (e.1, f) else none := by
    refine List.filterMap_congr fun e _ => ?_
    obtain ⟨k, n⟩ := e
    cases n <;> first | rfl | exact (ite_self none).symm
  have hview (ns : List Node) : ns.filterMap (fun n => (Node.frame? n).map (Frame.view b.ordinal?)) =
      (ns.filterMap Node.frame?).map (Frame.view b.ordinal?) := List.map_filterMap.symm
  rw [hsel, h.collected (fun n => (Node.frame? n).map (Frame.view b.ordinal?)) fun _ => rfl]
  refine List.flatMap_congr fun e _ => ?_
  rw [hview, nodesAt_frames]
  cases fs.lookup e.1 <;> rfl

theorem item_echoed (h : b.ReadFrom pool entry c l d fs) (h' : b'.ReadFrom pool' entry' c' l' d' fs')
    (he : b'.program = b.program) (hk : l.items[k]? = some (o, i)) : ∃ o' i',
      l'.items[k]? = some (o', i') ∧ l'.ordinal o' = l.ordinal o ∧
      i'.mapTargets (fun o => b'.ordinal? ((LabelPlan.make l' c'.exceptions d').label o)) =
        i.mapTargets fun o => b.ordinal? ((LabelPlan.make l c.exceptions d).label o) := by
  have hmap := congrArg (fun xs => xs[k]?) ((h'.program_eq.symm.trans he).trans h.program_eq)
  rw [List.getElem?_map, List.getElem?_map, hk] at hmap
  obtain ⟨⟨o', i'⟩, hk', hi⟩ := Option.map_eq_some_iff.mp hmap
  exact ⟨o', i', hk', (h'.item_ordinal hk').trans (h.item_ordinal hk).symm, hi⟩

end ReadFrom

end Body

end ClassGraft
