import ClassGraft.Proofs.BodyEdits
import ClassGraft.Proofs.LabelPlans
import ClassGraft.Proofs.StackMapBytes
import ClassGraft.Proofs.TypeOrigins

namespace ClassGraft

variable {P : NewSite → Prop} {pool : Pool} {l : Listing} {plan : LabelPlan}
  {resolve : RawType → Except ClassError VerifyType}

theorem sited_mapM {ts : List RawType} {us : List VerifyType}
    (hr : ∀ t u, resolve t = .ok u → Sited P u) (h : ts.mapM resolve = .ok us) :
    ∀ u ∈ us, Sited P u := by
  intro u hu
  obtain ⟨t, -, ht⟩ := (mem_mapM_ok h u).mp hu
  exact hr t u ht

namespace Frame

variable {f f' : Frame}

theorem Sited.ofPacked {ls ss : List VerifyType} (hl : ∀ t ∈ ls, ClassGraft.Sited P t)
    (hs : ∀ t ∈ ss, ClassGraft.Sited P t) : Frame.Sited P (.ofPacked ls ss) :=
  ⟨sited_spreadLocals hl, hs⟩

/-- A frame that is described as a difference has types of the frame before, and resolved ones. -/
theorem Sited.next {e : StackMapFrame} (hf : f.Sited P)
    (hr : ∀ t u, resolve t = .ok u → ClassGraft.Sited P u) (h : f.next e resolve = .ok f') :
    f'.Sited P := by
  have hempty : ∀ t ∈ ([] : List VerifyType), ClassGraft.Sited P t :=
    fun t ht => absurd ht List.not_mem_nil
  have hpacked : ∀ t ∈ f.packed, ClassGraft.Sited P t :=
    fun t ht => hf.locals t (mem_packLocals ht)
  cases e with
  | same d => cases h; exact ⟨hf.locals, hempty⟩
  | sameOne d item =>
    obtain ⟨t, ht, h⟩ := except_bind_ok.mp h
    cases h
    exact ⟨hf.locals, List.forall_mem_singleton.mpr (hr item t ht)⟩
  | chop d count =>
    simp only [Frame.next] at h
    split at h
    · cases h
    · cases h
      exact .ofPacked (fun t ht => hpacked t (List.mem_of_mem_take ht)) hempty
  | append d locals =>
    obtain ⟨ls, hls, h⟩ := except_bind_ok.mp h
    cases h
    exact .ofPacked (fun t ht => (List.mem_append.mp ht).elim (hpacked t) (sited_mapM hr hls t)) hempty
  | full d locals stack =>
    obtain ⟨ls, hls, h⟩ := except_bind_ok.mp h
    obtain ⟨ss, hss, h⟩ := except_bind_ok.mp h
    cases h
    exact .ofPacked (sited_mapM hr hls) fun t ht => sited_mapM hr hss t (List.mem_reverse.mp ht)

end Frame

/-- What holds of a frame and is kept by differences holds of all frames behind it. -/
theorem Listing.declaredFrames_keep {K : Frame → Prop} {base : Nat} {before : Frame}
    {es : List StackMapFrame} {fs : List (Nat × Frame)} (hb : K before)
    (hnext : ∀ f e f', K f → Frame.next f e resolve = .ok f' → K f')
    (h : l.declaredFrames resolve base before es = .ok fs) : ∀ e ∈ fs, K e.2 := by
  induction es generalizing base before fs with
  | nil => cases h; exact fun e he => absurd he List.not_mem_nil
  | cons e es ih =>
    simp only [Listing.declaredFrames] at h
    split at h
    · cases h
    · obtain ⟨f, hf, h⟩ := except_bind_ok.mp h
      obtain ⟨gs, hgs, h⟩ := except_bind_ok.mp h
      cases h
      have hkept := hnext _ _ _ hb hf
      exact List.forall_mem_cons.mpr ⟨hkept, ih hkept hgs⟩

/-- All types of the entries behind a frame have been resolved. -/
theorem Listing.declaredFrames_types {base : Nat} {before : Frame} {es : List StackMapFrame}
    {fs : List (Nat × Frame)} (h : l.declaredFrames resolve base before es = .ok fs) :
    ∀ e ∈ es, ∀ t ∈ e.types, ∃ v, resolve t = .ok v := by
  induction es generalizing base before fs with
  | nil => exact fun e he => absurd he List.not_mem_nil
  | cons e es ih =>
    simp only [Listing.declaredFrames] at h
    split at h
    · cases h
    · obtain ⟨f, hf, h⟩ := except_bind_ok.mp h
      obtain ⟨gs, hgs, -⟩ := except_bind_ok.mp h
      refine List.forall_mem_cons.mpr ⟨?_, ih hgs⟩
      cases e with
      | same d => exact fun t ht => absurd ht List.not_mem_nil
      | chop d count => exact fun t ht => absurd ht List.not_mem_nil
      | sameOne d item =>
        obtain ⟨v, hv, -⟩ := except_bind_ok.mp hf
        exact List.forall_mem_singleton.mpr ⟨v, hv⟩
      | append d locals =>
        obtain ⟨ls, hls, -⟩ := except_bind_ok.mp hf
        exact mapM_ok_each hls
      | full d locals stack =>
        obtain ⟨ls, hls, hf⟩ := except_bind_ok.mp hf
        obtain ⟨ss, hss, -⟩ := except_bind_ok.mp hf
        intro t ht
        rcases List.mem_append.mp ht with ht | ht
        · exact mapM_ok_each hls t ht
        · exact mapM_ok_each hss t ht

theorem Listing.resolve_uninitialized {o : UInt16} {v : VerifyType}
    (h : l.resolve pool plan (.uninitialized o) = .ok v) :
    ∃ c, l.at? o.toNat = some (.inl (.new c)) := by
  obtain ⟨u, hu, -⟩ := except_bind_ok.mp h
  dsimp only at hu
  split at hu
  next c hat => exact ⟨c, hat⟩
  next => cases hu

/-- Wherever the stack map table of a body gives the offset of a `new`, a `new` is there. -/
def CodeAttribute.SitesStand (c : CodeAttribute) (pool : Pool) : Prop :=
  ∃ l d, Listing.ofCode pool c.code = .ok l ∧
    DebugTables.ofAttributes pool l c.attributes = .ok d ∧
    ∀ table, d.frames = some table → ∀ e ∈ table, ∀ o : UInt16, SlotType.uninitialized o ∈ e.types →
      ∃ n, l.at? o.toNat = some (.inl (.new n))

/-- The label of a `new` is the one planned for its offset. -/
theorem Listing.resolve_sited {t : RawType} {v : VerifyType} (h : l.resolve pool plan t = .ok v) :
    Sited (fun u => ∃ o, l.at? o = some (.inl (.new u.type)) ∧ u.label = plan.label o) v := by
  cases t with
  | object c =>
    obtain ⟨t, -, h⟩ := except_bind_ok.mp h
    cases h
    trivial
  | uninitialized o =>
    obtain ⟨u, hu, h⟩ := except_bind_ok.mp h
    cases h
    dsimp only at hu
    split at hu
    next c hat => cases hu; exact ⟨o.toNat, hat, rfl⟩
    next => cases hu
  | _ => cases h; trivial

namespace Body

variable {b : Body} {entry : Option Frame} {c : CodeAttribute} {d : DebugTables}
  {fs : List (Nat × Frame)}

/-- What a body was read from: the instructions, their labels and the frames among them. -/
structure ReadFrom (b : Body) (pool : Pool) (entry : Option Frame) (c : CodeAttribute) (l : Listing)
    (d : DebugTables) (fs : List (Nat × Frame)) : Prop where
  listing : Listing.ofCode pool c.code = .ok l
  targets : l.checkTargets l.items = .ok ()
  handlers : l.checkHandlers c.exceptions = .ok ()
  tables : DebugTables.ofAttributes pool l c.attributes = .ok d
  frames : (d.frames = none ∨ entry = none) ∧ fs = [] ∨ ∃ table before, d.frames = some table ∧
    entry = some before ∧
    l.declaredFrames (l.resolve pool (LabelPlan.make l c.exceptions d)) 0 before table = .ok fs
  nodes : (readNodes (LabelPlan.make l c.exceptions d) d.lines fs l.items ++
    lastNodes (LabelPlan.make l c.exceptions d) l.length).map Prod.snd = b.nodes
  blocks : c.exceptions.mapM (tryBlock pool (LabelPlan.make l c.exceptions d)) = .ok b.tryBlocks
  ranges : d.locals.mapM (localRange pool (LabelPlan.make l c.exceptions d)) = .ok b.locals
  made : b = { ofNodes (LabelPlan.make l c.exceptions d).length b.nodes with
    tryBlocks := b.tryBlocks, locals := b.locals }

theorem ofCode_readFrom (h : Body.ofCode pool entry c = .ok b) :
    ∃ l d fs, b.ReadFrom pool entry c l d fs := by
  obtain ⟨l, hl, h⟩ := except_bind_ok.mp h
  obtain ⟨_, ht, h⟩ := except_bind_ok.mp h
  obtain ⟨_, hh, h⟩ := except_bind_ok.mp h
  obtain ⟨d, hd, h⟩ := except_bind_ok.mp h
  have framed (fs : List (Nat × Frame)) (hfs : (d.frames = none ∨ entry = none) ∧ fs = [] ∨
      ∃ table before, d.frames = some table ∧ entry = some before ∧
        l.declaredFrames (l.resolve pool (LabelPlan.make l c.exceptions d)) 0 before table = .ok fs)
      (h : (do
      let ts ← c.exceptions.mapM (tryBlock pool (LabelPlan.make l c.exceptions d))
      let vs ← d.locals.mapM (localRange pool (LabelPlan.make l c.exceptions d))
      return { ofNodes (LabelPlan.make l c.exceptions d).length
        ((l.items.flatMap fun e => nodesAt (LabelPlan.make l c.exceptions d) d.lines fs e.1 e.2) ++
          if (LabelPlan.make l c.exceptions d).contains l.length then
            [Node.label ((LabelPlan.make l c.exceptions d).label l.length)] else []) with
        tryBlocks := ts, locals := vs } : Except ClassError Body) = .ok b) :
      b.ReadFrom pool entry c l d fs := by
    obtain ⟨ts, hts, h⟩ := except_bind_ok.mp h
    obtain ⟨vs, hvs, h⟩ := except_bind_ok.mp h
    cases h
    exact ⟨hl, ht, hh, hd, hfs, by rw [readNodes_nodes, nodes_ofNodes], hts, hvs,
      by rw [nodes_ofNodes]⟩
  cases htable : d.frames with
  | none =>
    rw [htable] at h
    exact ⟨l, d, [], framed [] (.inl ⟨.inl htable, rfl⟩) h⟩
  | some table =>
    rw [htable] at h
    cases entry with
    | none =>
      exact ⟨l, d, [], framed [] (.inl ⟨.inr rfl, rfl⟩) h⟩
    | some before =>
      obtain ⟨fs, hfs, h⟩ := except_bind_ok.mp h
      exact ⟨l, d, fs, framed fs (.inr ⟨table, before, htable, rfl, hfs⟩) h⟩

namespace ReadFrom

theorem listed (h : b.ReadFrom pool entry c l d fs) : Listed l (l.items.map Prod.fst) l.length :=
  Listing.ofCode_listed h.listing

theorem spaced (h : b.ReadFrom pool entry c l d fs) :
    Spaced l.length 0 (readNodes (LabelPlan.make l c.exceptions d) d.lines fs l.items ++
      lastNodes (LabelPlan.make l c.exceptions d) l.length) :=
  readNodes_spaced h.listed.head h.listed.ascend

theorem placedLabels (h : b.ReadFrom pool entry c l d fs) : b.placedLabels =
    ((l.items.map Prod.fst ++ [l.length]).filter fun o =>
      (LabelPlan.make l c.exceptions d).contains o).map (LabelPlan.make l c.exceptions d).label := by
  rw [Body.placedLabels, ← h.nodes, labels_marked, marked_readNodes, List.map_map]
  rfl

theorem labelsOnce (h : b.ReadFrom pool entry c l d fs) : b.LabelsOnce := by
  rw [LabelsOnce, Body.placedLabels, ← h.nodes]
  exact readNodes_labels_nodup h.listed.ascend

theorem item_planned (h : b.ReadFrom pool entry c l d fs) {o : Nat} {i : CodeItem} (hi : (o, i) ∈ l.items)
    (hwanted : o ∈ LabelPlan.wanted l c.exceptions d) : o ∈ LabelPlan.make l c.exceptions d := by
  refine LabelPlan.mem_make.mpr ⟨hwanted, ?_⟩
  have := (List.pairwise_append.mp h.listed.ascend).2.2 o (List.mem_map_of_mem hi) l.length (by simp)
  omega

/-- The label of an instruction designates the node of the instruction. -/
theorem target (h : b.ReadFrom pool entry c l d fs) {o : Nat} {i : CodeItem} (hi : (o, i) ∈ l.items)
    (hwanted : o ∈ LabelPlan.wanted l c.exceptions d) :
    ∃ r, b.labelTarget ((LabelPlan.make l c.exceptions d).label o) = .ok (some r) ∧
      b.get? r = some (i.toNode (LabelPlan.make l c.exceptions d)) := by
  have hstart : o ∈ l.items.map Prod.fst := List.mem_map_of_mem hi
  have hplan := h.item_planned hi hwanted
  refine (labelTarget_offset h.spaced h.nodes).mpr ⟨o, lookup_marked_readNodes hplan (.inr hstart), ?_,
    CodeItem.toNode_isPseudo _ i⟩
  refine List.mem_append_left _ (List.mem_flatMap.mpr ⟨_, hi, ?_⟩)
  exact List.mem_map_of_mem (List.mem_append_right _ (List.mem_singleton.mpr rfl))

/-- An offset of a `new` has a label that is tied to it. -/
theorem ties (h : b.ReadFrom pool entry c l d fs) {u : NewSite} {o : Nat}
    (hat : l.at? o = some (.inl (.new u.type)))
    (hu : u.label = (LabelPlan.make l c.exceptions d).label o) : b.Ties u := by
  have hitem := h.listed.mem_of_at? hat
  rw [Ties, hu]
  exact h.target hitem (LabelPlan.wanted_new _ _ hitem)

theorem frame_mem (h : b.ReadFrom pool entry c l d fs) {f : Frame} (hf : Node.frame f ∈ b.nodes) :
    ∃ o, (o, f) ∈ fs := by
  rw [← h.nodes, readNodes_nodes] at hf
  rcases List.mem_append.mp hf with hf | hf
  · obtain ⟨e, -, hf⟩ := List.mem_flatMap.mp hf
    simp only [nodesAt, List.mem_append, List.mem_map, Option.mem_toList, Option.map_eq_some_iff,
      List.mem_singleton] at hf
    rcases hf with ((hf | ⟨_, -, hf⟩) | ⟨k, hk, hf⟩) | hf
    · split at hf
      · cases List.mem_singleton.mp hf
      · cases hf
    · cases hf
    · cases hf
      obtain ⟨xs, ys, he, -⟩ := List.lookup_eq_some_iff.mp hk
      exact ⟨e.1, by rw [he]; exact List.mem_append_right _ List.mem_cons_self⟩
    · obtain ⟨_, i | br⟩ := e <;> cases hf
  · split at hf
    · cases List.mem_singleton.mp hf
    · cases hf

/-- What holds of the entry frame and is kept by differences holds of all frames that are read. -/
theorem frames_keep {K : Frame → Prop} (h : b.ReadFrom pool entry c l d fs)
    (hentry : ∀ f, entry = some f → K f)
    (hnext : ∀ f e f', K f → Frame.next f e (l.resolve pool (LabelPlan.make l c.exceptions d)) = .ok f' →
      K f') : ∀ e ∈ fs, K e.2 := by
  rcases h.frames with ⟨-, rfl⟩ | ⟨table, before, -, hbefore, hfs⟩
  · exact nofun
  · exact Listing.declaredFrames_keep (hentry before hbefore) hnext hfs

theorem frames_sited (h : b.ReadFrom pool entry c l d fs)
    (hentry : ∀ f, entry = some f → f.Sited fun _ => False) :
    ∀ e ∈ fs, e.2.Sited fun u => ∃ o, l.at? o = some (.inl (.new u.type)) ∧
      u.label = (LabelPlan.make l c.exceptions d).label o :=
  h.frames_keep (fun f hf => (hentry f hf).mono fun _ hu => hu.elim)
    fun _ _ _ hk => hk.next fun _ _ hv => Listing.resolve_sited hv

theorem sitesStand {before : Frame} (h : b.ReadFrom pool (some before) c l d fs) :
    c.SitesStand pool := by
  refine ⟨l, d, h.listing, h.tables, fun table htable e he o ho => ?_⟩
  rcases h.frames with ⟨hnone | hnone, -⟩ | ⟨table', before', htable', -, hfs⟩
  · cases hnone.symm.trans htable
  · cases hnone
  · cases Option.some.inj (htable.symm.trans htable')
    obtain ⟨v, hv⟩ := Listing.declaredFrames_types hfs e he _ ho
    exact Listing.resolve_uninitialized hv

/-- Whatever frames a class declares, in the body that is read they are tied. -/
theorem tied (h : b.ReadFrom pool entry c l d fs)
    (hentry : ∀ f, entry = some f → f.Sited fun _ => False) : b.Tied := by
  refine tied_iff.mpr fun f hf => ?_
  obtain ⟨o, ho⟩ := h.frame_mem hf
  exact (h.frames_sited hentry _ ho).mono fun u ⟨o, hat, hl⟩ => h.ties hat hl

end ReadFrom

end Body

end ClassGraft
