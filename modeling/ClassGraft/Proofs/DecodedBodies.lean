import ClassGraft.Proofs.ReadOrdinals

namespace ClassGraft

variable {f g : Label → Option Nat}

namespace Body

namespace ReadFrom

variable {b b' : Body} {pool pool' : Pool} {entry entry' : Option Frame} {c c' : CodeAttribute}
  {l l' : Listing} {d d' : DebugTables} {fs fs' : List (Nat × Frame)} {o p k : Nat} {i : CodeItem}

variable (l' c' d') in
/-- Something in the other body needs a label for the ordinal. -/
def Wants (k : Nat) : Prop := ∃ o ∈ LabelPlan.wanted l' c'.exceptions d', l'.ordinal o = k

theorem jump_wants (h : b.ReadFrom pool entry c l d fs) (h' : b'.ReadFrom pool' entry' c' l' d' fs')
    {br br' : Branch Nat} (hi : (p, Sum.inr br) ∈ l.items) (hi' : (k, Sum.inr br') ∈ l'.items)
    (he : br'.map (fun o => b'.ordinal? ((LabelPlan.make l' c'.exceptions d').label o)) =
      br.map fun o => b.ordinal? ((LabelPlan.make l c.exceptions d).label o)) (ho : o ∈ br.targets) :
    Wants c' l' d' (l.ordinal o) := by
  have htargets := congrArg Branch.targets he
  rw [Branch.targets_map, Branch.targets_map] at htargets
  have hin : b.ordinal? ((LabelPlan.make l c.exceptions d).label o) ∈ br.targets.map fun o =>
    b.ordinal? ((LabelPlan.make l c.exceptions d).label o) := List.mem_map.mpr ⟨o, ho, rfl⟩
  rw [← htargets] at hin
  obtain ⟨o', ho', heq⟩ := List.mem_map.mp hin
  have hwanted := LabelPlan.wanted_target c.exceptions d hi o ho
  have hwanted' := LabelPlan.wanted_target c'.exceptions d' hi' o' ho'
  rw [h.ordinal?_planned (h.checked.planned hwanted),
    h'.ordinal?_planned (h'.checked.planned hwanted')] at heq
  exact ⟨o', hwanted', Option.some.inj heq⟩

theorem block_wants (h : b.ReadFrom pool entry c l d fs) (h' : b'.ReadFrom pool' entry' c' l' d' fs')
    (he : b'.tryBlocks.map (TryBlock.view b'.ordinal?) = b.tryBlocks.map (TryBlock.view b.ordinal?))
    {e : ExceptionEntry} (hmem : e ∈ c.exceptions)
    (ho : o ∈ [e.start.toNat, e.stop.toNat, e.handler.toNat]) : Wants c' l' d' (l.ordinal o) := by
  obtain ⟨t, ht⟩ := mapM_ok_each h.blocks e hmem
  have hin : t.view b.ordinal? ∈ b.tryBlocks.map (TryBlock.view b.ordinal?) :=
    List.mem_map_of_mem ((mem_mapM_ok h.blocks t).mpr ⟨e, hmem, ht⟩)
  rw [← he] at hin
  obtain ⟨t', ht', hview⟩ := List.mem_map.mp hin
  obtain ⟨e', hmem', ht'⟩ := (mem_mapM_ok h'.blocks t').mp ht'
  rw [h.block_view hmem ht, h'.block_view hmem' ht', BlockView.mk.injEq] at hview
  obtain ⟨wstart, wstop, whandler⟩ := LabelPlan.wanted_handler l' d' hmem'
  simp only [List.mem_cons, List.not_mem_nil, or_false] at ho
  rcases ho with rfl | rfl | rfl
  · exact ⟨_, wstart, Option.some.inj hview.1⟩
  · exact ⟨_, wstop, Option.some.inj hview.2.1⟩
  · exact ⟨_, whandler, Option.some.inj hview.2.2.1⟩

theorem range_wants (h : b.ReadFrom pool entry c l d fs) (h' : b'.ReadFrom pool' entry' c' l' d' fs')
    (he : (b'.locals.map (LocalRange.view b'.ordinal?)).Perm
      (b.locals.map (LocalRange.view b.ordinal?))) {v : LocalEntry × Bool} (hmem : v ∈ d.locals)
    (ho : o ∈ [v.1.start.toNat, v.1.start.toNat + v.1.length.toNat]) :
    Wants c' l' d' (l.ordinal o) := by
  obtain ⟨r, hr⟩ := mapM_ok_each h.ranges v hmem
  have hin : r.view b.ordinal? ∈ b.locals.map (LocalRange.view b.ordinal?) :=
    List.mem_map_of_mem ((mem_mapM_ok h.ranges r).mpr ⟨v, hmem, hr⟩)
  obtain ⟨r', hr', hview⟩ := List.mem_map.mp (he.mem_iff.mpr hin)
  obtain ⟨v', hmem', hr'⟩ := (mem_mapM_ok h'.ranges r').mp hr'
  obtain ⟨hstart, hstop⟩ := h.range_view hmem hr
  obtain ⟨hstart', hstop'⟩ := h'.range_view hmem' hr'
  rw [hview] at hstart' hstop'
  obtain ⟨wstart, wstop⟩ := LabelPlan.wanted_local l' c'.exceptions hmem'
  simp only [List.mem_cons, List.not_mem_nil, or_false] at ho
  rcases ho with rfl | rfl
  · exact ⟨_, wstart, Option.some.inj (hstart'.symm.trans hstart)⟩
  · exact ⟨_, wstop, Option.some.inj (hstop'.symm.trans hstop)⟩

/-- What one body needs a label for, the other one needs a label for. -/
theorem wanted_wants (h : b.ReadFrom pool entry c l d fs) (h' : b'.ReadFrom pool' entry' c' l' d' fs')
    (he : b'.Echoes b) (ho : o ∈ LabelPlan.wanted l c.exceptions d) :
    Wants c' l' d' (l.ordinal o) := by
  rcases List.mem_append.mp ho with ho | ho
  · rcases List.mem_append.mp ho with ho | ho
    · obtain ⟨⟨p, i⟩, hi, ho⟩ := List.mem_flatMap.mp ho
      obtain ⟨k, hk⟩ := List.mem_iff_getElem?.mp hi
      obtain ⟨p', i', hk', hord, hmap⟩ := h.item_echoed h' he.program hk
      rcases i with i | br
      · cases i with
        | new n =>
          cases List.mem_singleton.mp ho
          rcases i' with i' | br'
          · cases hmap
            exact ⟨p', LabelPlan.wanted_new _ _ (List.mem_of_getElem? hk'), hord⟩
          · cases hmap
        | _ => cases ho
      · rcases i' with i' | br'
        · cases hmap
        · exact h.jump_wants h' hi (List.mem_of_getElem? hk') (Sum.inr.inj hmap) ho
    · obtain ⟨e, hmem, ho⟩ := List.mem_flatMap.mp ho
      exact h.block_wants h' he.blocks hmem ho
  · obtain ⟨v, hmem, ho⟩ := List.mem_flatMap.mp ho
    exact h.range_wants h' he.locals hmem ho

/-- The labels of both bodies are for the same instructions. -/
theorem places_eq (h : b.ReadFrom pool entry c l d fs) (h' : b'.ReadFrom pool' entry' c' l' d' fs')
    (he : b'.Echoes b) : places c' l' d' = places c l d := by
  have found {b b' : Body} {pool pool' : Pool} {entry entry' : Option Frame} {c c' : CodeAttribute}
      {l l' : Listing} {d d' : DebugTables} {fs fs' : List (Nat × Frame)}
      (h : b.ReadFrom pool entry c l d fs) (h' : b'.ReadFrom pool' entry' c' l' d' fs')
      (he : b'.Echoes b) {k : Nat} (hk : k ∈ places c l d) : k ∈ places c' l' d' := by
    obtain ⟨o, ho, rfl⟩ := List.mem_map.mp hk
    obtain ⟨o', ho', heq⟩ := h.wanted_wants h' he (LabelPlan.mem_make.mp ho).1
    exact List.mem_map.mpr ⟨o', h'.checked.planned ho', heq⟩
  exact h'.places_ascend.eq_of_mem_iff h.places_ascend fun k => ⟨found h' h he.symm, found h h' he⟩

theorem ordinals_nodup (h : b.ReadFrom pool entry c l d fs) :
    (l.items.map fun e => l.ordinal e.1).Nodup := by
  refine List.Pairwise.imp Nat.ne_of_lt (List.pairwise_map.mpr ?_)
  have hascend := List.pairwise_map.mp (List.pairwise_append.mp h.listed.ascend).1
  exact hascend.imp_of_mem fun he _ hlt => rank_lt (List.mem_map_of_mem he) hlt

/-- The line numbers of an instruction. -/
theorem lines_at (h : b.ReadFrom pool entry c l d fs) (hk : l.items[k]? = some (o, i)) :
    (b.lineNumbers.filter fun z => z.1 == k).map Prod.snd =
      (d.lines.filter fun z => z.start.toNat == o).map LineEntry.line := by
  rw [h.lineNumbers_items, ← h.item_ordinal hk]
  exact filter_groups (g := fun e => (d.lines.filter fun z => z.start.toNat == e.1).map LineEntry.line)
    h.ordinals_nodup (List.mem_of_getElem? hk)

/-- The frame before an instruction. -/
theorem frame_at (h : b.ReadFrom pool entry c l d fs) (hk : l.items[k]? = some (o, i)) :
    (b.carriedFrames.filter fun z => z.1 == k).map Prod.snd =
      ((fs.lookup o).map (Frame.view b.ordinal?)).toList := by
  rw [h.carriedFrames_items, ← h.item_ordinal hk]
  exact filter_groups (g := fun e => ((fs.lookup e.1).map (Frame.view b.ordinal?)).toList)
    h.ordinals_nodup (List.mem_of_getElem? hk)

/-- The labels of frames are those of `new` instructions. -/
theorem frame_named (h : b.ReadFrom pool entry c l d fs)
    (hentry : ∀ f, entry = some f → f.Sited fun _ => False) {f : Frame} (hf : (o, f) ∈ fs) :
    f.Sited fun s => s.label.Named (places c l d) b.ordinal? := by
  refine (h.frames_sited hentry _ hf).mono fun u hu => ?_
  obtain ⟨p, hat, hlabel⟩ := hu
  have hitem := h.listed.mem_of_at? hat
  rw [hlabel]
  exact h.named (h.item_planned hitem (LabelPlan.wanted_new _ _ hitem))

theorem target_named (h : b.ReadFrom pool entry c l d fs) (hi : (o, i) ∈ l.items) {br : Branch Nat}
    (hbr : i = .inr br) : ∀ t ∈ br.targets,
      ((LabelPlan.make l c.exceptions d).label t).Named (places c l d) b.ordinal? := by
  subst hbr
  exact fun t ht => h.named (h.checked.planned (LabelPlan.wanted_target c.exceptions d hi t ht))

theorem labels_eq (h : b.ReadFrom pool entry c l d fs) (h' : b'.ReadFrom pool' entry' c' l' d' fs')
    (he : b'.Echoes b) {o' : Nat} (ho : l.IsPlace o) (ho' : l'.IsPlace o')
    (heq : l'.ordinal o' = l.ordinal o) :
    (if (LabelPlan.make l' c'.exceptions d').contains o' then
        [Node.label ((LabelPlan.make l' c'.exceptions d').label o')] else []) =
      if (LabelPlan.make l c.exceptions d).contains o then
        [Node.label ((LabelPlan.make l c.exceptions d).label o)] else [] := by
  have hplaces := h.places_eq h' he
  have hiff : o' ∈ LabelPlan.make l' c'.exceptions d' ↔ o ∈ LabelPlan.make l c.exceptions d := by
    rw [← h'.mem_places ho', ← h.mem_places ho, hplaces, heq]
  by_cases hin : o ∈ LabelPlan.make l c.exceptions d
  · have hin' := hiff.mpr hin
    have hlabel : (LabelPlan.make l' c'.exceptions d').label o' =
        (LabelPlan.make l c.exceptions d).label o := by
      refine (hplaces ▸ h'.named hin').eq (h.named hin) ?_
      rw [h'.ordinal?_planned hin', h.ordinal?_planned hin, heq]
    rw [if_pos (List.contains_iff_mem.mpr hin'), if_pos (List.contains_iff_mem.mpr hin), hlabel]
  · rw [if_neg fun h => hin (hiff.mp (List.contains_iff_mem.mp h)),
      if_neg fun h => hin (List.contains_iff_mem.mp h)]

theorem frame_eq (h : b.ReadFrom pool entry c l d fs) (h' : b'.ReadFrom pool' entry' c' l' d' fs')
    (hentry : ∀ f, entry = some f → f.Sited fun _ => False)
    (hentry' : ∀ f, entry' = some f → f.Sited fun _ => False) (he : b'.Echoes b)
    {o' : Nat} {i' : CodeItem} (hk : l.items[k]? = some (o, i)) (hk' : l'.items[k]? = some (o', i')) :
    fs'.lookup o' = fs.lookup o := by
  have member {fs : List (Nat × Frame)} {o : Nat} {f : Frame} (h : fs.lookup o = some f) :
      (o, f) ∈ fs := by
    obtain ⟨xs, ys, rfl, -⟩ := List.lookup_eq_some_iff.mp h
    exact List.mem_append_right _ List.mem_cons_self
  have hviews := (h'.frame_at hk').symm.trans (he.frames ▸ h.frame_at hk)
  rcases hf : fs.lookup o with _ | f <;> rcases hf' : fs'.lookup o' with _ | f' <;>
    rw [hf, hf'] at hviews
  · cases hviews
  · cases hviews
  · have hnamed := h'.frame_named hentry' (member hf')
    rw [h.places_eq h' he] at hnamed
    exact congrArg some (Frame.view_inj hnamed (h.frame_named hentry (member hf)) (List.cons.inj hviews).1)

/-- The nodes of an instruction are the same in both bodies. -/
theorem nodesAt_eq (h : b.ReadFrom pool entry c l d fs) (h' : b'.ReadFrom pool' entry' c' l' d' fs')
    (hentry : ∀ f, entry = some f → f.Sited fun _ => False)
    (hentry' : ∀ f, entry' = some f → f.Sited fun _ => False) (he : b'.Echoes b)
    (hk : l.items[k]? = some (o, i)) : ∃ o' i', l'.items[k]? = some (o', i') ∧
      nodesAt (LabelPlan.make l' c'.exceptions d') d'.lines fs' o' i' =
        nodesAt (LabelPlan.make l c.exceptions d) d.lines fs o i := by
  obtain ⟨o', i', hk', hord, hi⟩ := h.item_echoed h' he.program hk
  have hmem := List.mem_of_getElem? hk
  have hmem' := List.mem_of_getElem? hk'
  have hplaces := h.places_eq h' he
  have hlines := (h'.lines_at hk').symm.trans (he.lines ▸ h.lines_at hk)
  have hnodes {lines lines' : List LineEntry} (h : lines'.map LineEntry.line = lines.map LineEntry.line) :
      (lines'.map fun z => Node.line z.line) = lines.map fun z => Node.line z.line := by
    simpa [Function.comp_def] using congrArg (List.map Node.line) h
  have hnode := CodeItem.toNode_inj (fun br hbr => hplaces ▸ h'.target_named hmem' hbr)
    (fun br hbr => h.target_named hmem hbr) hi
  refine ⟨o', i', hk', ?_⟩
  rw [nodesAt, nodesAt, h.labels_eq h' he (.inr (List.mem_map_of_mem hmem))
    (.inr (List.mem_map_of_mem hmem')) hord, hnodes hlines, h.frame_eq h' hentry hentry' he hk hk', hnode]

theorem nodes_eq (h : b.ReadFrom pool entry c l d fs) (h' : b'.ReadFrom pool' entry' c' l' d' fs')
    (hentry : ∀ f, entry = some f → f.Sited fun _ => False)
    (hentry' : ∀ f, entry' = some f → f.Sited fun _ => False) (he : b'.Echoes b) :
    b'.nodes = b.nodes := by
  have hlength : l'.items.length = l.items.length := by
    have := congrArg List.length he.program
    rwa [h.program_eq, h'.program_eq, List.length_map, List.length_map] at this
  have hgroups : (l'.items.map fun e => nodesAt (LabelPlan.make l' c'.exceptions d') d'.lines fs' e.1 e.2) =
      l.items.map fun e => nodesAt (LabelPlan.make l c.exceptions d) d.lines fs e.1 e.2 := by
    refine List.ext_getElem? fun k => ?_
    rw [List.getElem?_map, List.getElem?_map]
    rcases hk : l.items[k]? with _ | ⟨o, i⟩
    · rw [List.getElem?_eq_none (by rw [hlength]; exact List.getElem?_eq_none_iff.mp hk)]
      rfl
    · obtain ⟨o', i', hk', heq⟩ := h.nodesAt_eq h' hentry hentry' he hk
      rw [hk']
      exact congrArg some heq
  have hlast {b : Body} {pool : Pool} {entry : Option Frame} {c : CodeAttribute} {l : Listing}
      {d : DebugTables} {fs : List (Nat × Frame)} (h : b.ReadFrom pool entry c l d fs) :
      l.ordinal l.length = l.items.length := by
    refine (List.countP_eq_length.mpr fun s hs => decide_eq_true ?_).trans (List.length_map _)
    exact (List.pairwise_append.mp h.listed.ascend).2.2 s hs _ (by simp)
  rw [← h.nodes, ← h'.nodes, readNodes_nodes, readNodes_nodes, List.flatMap_def, List.flatMap_def, hgroups,
    h.labels_eq h' he (.inl rfl) (.inl rfl) (by rw [hlast h, hlast h', hlength])]

theorem labels_named (h : b.ReadFrom pool entry c l d fs) {m : Label} (hm : m ∈ b.labels) :
    m.Named (places c l d) b.ordinal? := by
  obtain ⟨o, ho, rfl⟩ := h.planned hm
  exact h.named ho

theorem ranges_named (h : b.ReadFrom pool entry c l d fs) {r : LocalRange} (hr : r ∈ b.locals) :
    r.start.Named (places c l d) b.ordinal? ∧ r.stop.Named (places c l d) b.ordinal? := by
  obtain ⟨v, hv, hr⟩ := (mem_mapM_ok h.ranges r).mp hr
  obtain ⟨hstart, hstop⟩ := range_labels hr
  obtain ⟨wstart, wstop⟩ := LabelPlan.wanted_local l c.exceptions hv
  rw [hstart, hstop]
  exact ⟨h.named (h.checked.planned wstart), h.named (h.checked.planned wstop)⟩

/-- Bodies that are read and say the same are the same, but for the order of their local variables. -/
theorem echo_eq (h : b.ReadFrom pool entry c l d fs) (h' : b'.ReadFrom pool' entry' c' l' d' fs')
    (hentry : ∀ f, entry = some f → f.Sited fun _ => False)
    (hentry' : ∀ f, entry' = some f → f.Sited fun _ => False) (he : b'.Echoes b) {vs : List LocalRange}
    (hvs : ∀ v ∈ vs, v ∈ b.locals) (hviews : b'.locals.map (LocalRange.view b'.ordinal?) =
      vs.map (LocalRange.view b.ordinal?)) : b' = { b with locals := vs } := by
  have hplaces := h.places_eq h' he
  have hnodes := h.nodes_eq h' hentry hentry' he
  have hlength : (LabelPlan.make l' c'.exceptions d').length = (LabelPlan.make l c.exceptions d).length := by
    simpa using congrArg List.length hplaces
  have hblocks : b'.tryBlocks = b.tryBlocks := eq_of_map_eq he.blocks fun t ht u hu =>
    TryBlock.view_inj (fun m hm => hplaces ▸ h'.labels_named (mem_labels.mpr (.inr ⟨t, ht, hm⟩)))
      fun m hm => h.labels_named (mem_labels.mpr (.inr ⟨u, hu, hm⟩))
  have hlocals : b'.locals = vs := eq_of_map_eq hviews fun v hv w hw =>
    LocalRange.view_inj (hplaces ▸ h'.ranges_named hv) (h.ranges_named (hvs w hw))
  rw [h.made, h'.made, hnodes, hlength, hblocks, hlocals]

end ReadFrom

end Body

end ClassGraft
