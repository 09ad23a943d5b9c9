import ClassGraft.Proofs.LoadDecoding

namespace ClassGraft

/-- The labels that a node places or may go to. -/
def Node.labels : Node → List Label
  | .label l => [l]
  | .branch br => br.targets
  | _ => []

def TryBlock.labels (t : TryBlock) : List Label := [t.start, t.stop, t.handler]

namespace Body

/-- The labels that a body is about: nodes place them or go to them, or handlers use them. -/
def labels (b : Body) : List Label :=
  b.nodes.flatMap Node.labels ++ b.tryBlocks.flatMap TryBlock.labels

/-- The ids and the labels of a body are ones that it has made. A label means something only in the body
that made it. -/
structure WellMade (b : Body) : Prop where
  distinct : b.ids.Nodup
  ids : ∀ id ∈ b.ids, id.index < b.nextId
  labels : ∀ l ∈ b.labels, l.index < b.nextLabel

instance (b : Body) : Decidable b.WellMade :=
  decidable_of_iff (b.ids.Nodup ∧ (∀ id ∈ b.ids, id.index < b.nextId) ∧
      ∀ l ∈ b.labels, l.index < b.nextLabel)
    ⟨fun ⟨hd, hi, hl⟩ => ⟨hd, hi, hl⟩, fun h => ⟨h.distinct, h.ids, h.labels⟩⟩

variable {b b' : Body} {p q : Nat} {ns : List Node} {n : Node} {l : Label} {id : NodeId}

theorem mem_labels : l ∈ b.labels ↔
    (∃ n ∈ b.nodes, l ∈ n.labels) ∨ ∃ t ∈ b.tryBlocks, l ∈ t.labels := by
  rw [labels, List.mem_append, List.mem_flatMap, List.mem_flatMap]

theorem target_mem_labels {br : Branch Label} (h : b.get? p = some (.branch br))
    (hl : l ∈ br.targets) : l ∈ b.labels :=
  mem_labels.mpr (.inl ⟨_, List.mem_of_getElem? ((nodes_get? b p).trans h), hl⟩)

theorem label_mem_labels (h : b.get? p = some n) (hl : n.label? = some l) : l ∈ b.labels := by
  refine mem_labels.mpr (.inl ⟨n, List.mem_of_getElem? ((nodes_get? b p).trans h), ?_⟩)
  cases n with
  | label m =>
    cases hl
    exact List.mem_singleton_self l
  | _ => cases hl

theorem block_mem_labels {t : TryBlock} (h : t ∈ b.tryBlocks) :
    t.start ∈ b.labels ∧ t.stop ∈ b.labels ∧ t.handler ∈ b.labels := by
  have hall : ∀ l ∈ t.labels, l ∈ b.labels := fun l hl => mem_labels.mpr (.inr ⟨t, h, hl⟩)
  simpa [TryBlock.labels] using hall

theorem number_ids (first : Nat) (ns : List Node) :
    (number first ns).map Prod.fst = (List.range ns.length).map fun i => ⟨first + i⟩ := by
  refine List.ext_getElem? fun i => ?_
  rw [List.getElem?_map, List.getElem?_map, number, List.getElem?_mapIdx, Option.map_map]
  by_cases hi : i < ns.length
  · rw [List.getElem?_eq_getElem hi, List.getElem?_range hi]
    rfl
  · have hge := Nat.le_of_not_lt hi
    rw [List.getElem?_eq_none hge, List.getElem?_eq_none (by simpa using hge)]
    rfl

theorem mem_number_ids {first : Nat} : id ∈ (number first ns).map Prod.fst ↔
    first ≤ id.index ∧ id.index < first + ns.length := by
  rw [number_ids, List.mem_map]
  constructor
  · rintro ⟨i, hi, rfl⟩
    have := List.mem_range.mp hi
    exact ⟨Nat.le_add_right _ _, by dsimp only; omega⟩
  · rintro ⟨hge, hlt⟩
    refine ⟨id.index - first, List.mem_range.mpr (by omega), ?_⟩
    rw [Nat.add_sub_cancel' hge]

theorem number_ids_nodup (first : Nat) (ns : List Node) : ((number first ns).map Prod.fst).Nodup := by
  rw [number_ids]
  refine List.Nodup.map (fun i j hij => ?_) List.nodup_range
  exact Nat.add_left_cancel (NodeId.mk.inj hij)

theorem place_low (ns : List Node) (hp : p ≤ b.size) (hq : q < p) :
    (b.place p 0 ns).entries[q]? = b.entries[q]? := by
  have hlen : (b.entries.toList.take p).length = p := List.length_take_of_le hp
  rw [← Array.getElem?_toList, place_entries, List.append_assoc,
    List.getElem?_append_left (by omega), List.getElem?_take, if_pos hq, Array.getElem?_toList]

theorem place_new (ns : List Node) (hp : p ≤ b.size) (hq : q < ns.length) :
    (b.place p 0 ns).entries[p + q]? = (number b.nextId ns)[q]? := by
  have hlen : (b.entries.toList.take p).length = p := List.length_take_of_le hp
  have hnumber : (number b.nextId ns).length = ns.length := List.length_mapIdx
  rw [← Array.getElem?_toList, place_entries, List.append_assoc,
    List.getElem?_append_right (by omega), hlen, Nat.add_sub_cancel_left,
    List.getElem?_append_left (by omega)]

theorem place_high (ns : List Node) (hp : p ≤ b.size) (hq : p ≤ q) :
    (b.place p 0 ns).entries[q + ns.length]? = b.entries[q]? := by
  have hlen : (b.entries.toList.take p).length = p := List.length_take_of_le hp
  have hnumber : (number b.nextId ns).length = ns.length := List.length_mapIdx
  rw [← Array.getElem?_toList, place_entries, List.getElem?_append_right
    (by rw [List.length_append]; omega), List.length_append, hlen, hnumber, List.getElem?_drop,
    Array.getElem?_toList]
  congr 1
  omega

/-- A body in which nodes have been inserted. -/
theorem splice_place {anchor : Option NodeId} {ids : List NodeId}
    (h : b.splice p 0 anchor ns = .ok (ids, b')) :
    ∃ edits, b' = { b.place p 0 ns with edits } := by
  obtain ⟨_, -, h⟩ := except_bind_ok.mp h
  cases h
  exact ⟨_, rfl⟩

theorem position_entry (h : b.position id = .ok p) : ∃ n, b.entries[p]? = some (id, n) := by
  obtain ⟨hlt, he, -⟩ := Array.findIdx?_eq_some_iff_getElem.mp (position_ok.mp h)
  refine ⟨b.entries[p].2, Array.getElem?_eq_some_iff.mpr ⟨hlt, ?_⟩⟩
  exact Prod.ext (beq_iff_eq.mp he) rfl

theorem ids_get? (b : Body) (p : Nat) : b.ids[p]? = b.idAt? p := by
  rw [ids, List.getElem?_map, Array.getElem?_toList, idAt?]

theorem mem_ids_of_idAt? (h : b.idAt? p = some id) : id ∈ b.ids :=
  List.mem_of_getElem? ((b.ids_get? p).trans h)

theorem idAt?_unique (hids : b.ids.Nodup) (hp : b.idAt? p = some id) (hq : b.idAt? q = some id) :
    p = q := by
  rw [← ids_get?] at hp hq
  obtain ⟨hlt, -⟩ := List.getElem?_eq_some_iff.mp hp
  exact (List.getElem?_inj hlt hids).mp (hp.trans hq.symm)

theorem WellMade.position_unique (hb : b.WellMade) {n m : Node} (hp : b.entries[p]? = some (id, n))
    (hq : b.entries[q]? = some (id, m)) : p = q :=
  idAt?_unique hb.distinct (congrArg (Option.map Prod.fst) hp) (congrArg (Option.map Prod.fst) hq)

theorem WellMade.not_mem_ids (hb : b.WellMade) (h : b.nextId ≤ id.index) : id ∉ b.ids := by
  intro hid
  have := hb.ids id hid
  omega

theorem WellMade.newLabel (h : b.WellMade) : b.newLabel.2.WellMade where
  distinct := h.distinct
  ids := h.ids
  labels l hl := Nat.lt_succ_of_lt (h.labels l hl)

theorem WellMade.splice {anchor : Option NodeId} {ids : List NodeId} (h : b.WellMade)
    (hns : ∀ n ∈ ns, ∀ l ∈ n.labels, l.index < b.nextLabel)
    (hs : b.splice p 0 anchor ns = .ok (ids, b')) : b'.WellMade := by
  obtain ⟨edits, rfl⟩ := splice_place hs
  have hids : (b.place p 0 ns).ids =
      b.ids.take p ++ (number b.nextId ns).map Prod.fst ++ b.ids.drop p := by
    rw [Body.ids, place_entries, List.map_append, List.map_append, Body.ids, List.map_take,
      List.map_drop]
  have hperm : (b.place p 0 ns).ids.Perm ((number b.nextId ns).map Prod.fst ++ b.ids) := by
    rw [hids]
    refine (List.perm_append_comm.append_right _).trans ?_
    rw [List.append_assoc, List.take_append_drop]
  constructor
  · refine hperm.nodup_iff.mpr (List.nodup_append.mpr ⟨number_ids_nodup _ _, h.distinct, ?_⟩)
    rintro id hnew _ hold rfl
    have := h.ids id hold
    have := (mem_number_ids.mp hnew).1
    omega
  · intro id hid
    show id.index < b.nextId + ns.length
    rcases List.mem_append.mp (hperm.mem_iff.mp hid) with hnew | hold
    · exact (mem_number_ids.mp hnew).2
    · have := h.ids id hold
      omega
  · intro l hl
    show l.index < b.nextLabel
    rcases mem_labels.mp hl with ⟨n, hn, hl⟩ | ⟨t, ht, hl⟩
    · have hn : n ∈ b.nodes.take p ++ ns ++ b.nodes.drop p := place_nodes b p ns ▸ hn
      rw [List.append_assoc, List.mem_append, List.mem_append] at hn
      rcases hn with hn | hn | hn
      · exact h.labels l (mem_labels.mpr (.inl ⟨n, List.mem_of_mem_take hn, hl⟩))
      · exact hns n hn l hl
      · exact h.labels l (mem_labels.mpr (.inl ⟨n, List.mem_of_mem_drop hn, hl⟩))
    · exact h.labels l (mem_labels.mpr (.inr ⟨t, ht, hl⟩))

variable {pool : Pool} {entry : Option Frame} {c : CodeAttribute} {lst : Listing} {d : DebugTables}
  {fs : List (Nat × Frame)}

theorem ReadFrom.start_le (h : b.ReadFrom pool entry c lst d fs) {o : Nat}
    (ho : lst.isBoundary o = true) : o ≤ lst.length := by
  rcases (Listing.isBoundary_iff h.listed.found o).mp ho with rfl | hstart
  · exact Nat.le_refl _
  · have := (List.pairwise_append.mp h.listed.ascend).2.2 o hstart lst.length (by simp)
    omega

theorem tryBlock_ok {plan : LabelPlan} {e : ExceptionEntry} {t : TryBlock}
    (h : tryBlock pool plan e = .ok t) : t.start = plan.label e.start.toNat ∧
      t.stop = plan.label e.stop.toNat ∧ t.handler = plan.label e.handler.toNat := by
  unfold tryBlock at h
  dsimp only at h
  split at h
  next =>
    obtain ⟨caught, -, h⟩ := except_bind_ok.mp h
    cases h
    exact ⟨rfl, rfl, rfl⟩
  next =>
    obtain ⟨type, -, h⟩ := except_bind_ok.mp h
    split at h
    next =>
      cases h
      exact ⟨rfl, rfl, rfl⟩
    next => cases h

/-- All labels that a body is about have been planned. -/
theorem ReadFrom.planned (h : b.ReadFrom pool entry c lst d fs) (hl : l ∈ b.labels) :
    ∃ o ∈ LabelPlan.make lst c.exceptions d, l = (LabelPlan.make lst c.exceptions d).label o := by
  have boundary {o : Nat} (ho : lst.isStart o = true) : lst.isBoundary o = true := by
    rw [Listing.isBoundary, ho, Bool.or_true]
  rcases mem_labels.mp hl with ⟨n, hn, hl⟩ | ⟨t, ht, hl⟩
  · cases n with
    | label m =>
      cases List.mem_singleton.mp hl
      have hplaced : l ∈ b.placedLabels := List.mem_filterMap.mpr ⟨_, hn, rfl⟩
      rw [h.placedLabels] at hplaced
      obtain ⟨o, ho, rfl⟩ := List.mem_map.mp hplaced
      exact ⟨o, List.contains_iff_mem.mp (List.mem_filter.mp ho).2, rfl⟩
    | branch br =>
      obtain ⟨⟨o, i | source⟩, hi, hnode⟩ := h.instruction_mem hn rfl
      · cases hnode
      · cases hnode
        rw [Node.labels, Branch.targets_map] at hl
        obtain ⟨t, ht, rfl⟩ := List.mem_map.mp hl
        have hstart := Listing.checkTargets_starts h.targets hi t ht
        refine ⟨t, LabelPlan.mem_make.mpr ⟨?_, h.start_le (boundary hstart)⟩, rfl⟩
        exact LabelPlan.wanted_target c.exceptions d hi t ht
    | insn i => cases hl
    | line n => cases hl
    | frame f => cases hl
  · obtain ⟨e, he, ht⟩ := (mem_mapM_ok h.blocks t).mp ht
    have hsound : lst.isSound e = true := Listing.checkHandlers_sound h.handlers e he
    obtain ⟨h₁, h₂, h₃⟩ := tryBlock_ok ht
    simp only [Listing.isSound, Bool.and_eq_true] at hsound
    obtain ⟨⟨⟨-, hstart⟩, hstop⟩, hhandler⟩ := hsound
    obtain ⟨w₁, w₂, w₃⟩ := LabelPlan.wanted_handler lst d he
    rw [TryBlock.labels, h₁, h₂, h₃, List.mem_cons, List.mem_cons, List.mem_singleton] at hl
    rcases hl with rfl | rfl | rfl
    · exact ⟨_, LabelPlan.mem_make.mpr ⟨w₁, h.start_le (boundary hstart)⟩, rfl⟩
    · exact ⟨_, LabelPlan.mem_make.mpr ⟨w₂, h.start_le hstop⟩, rfl⟩
    · exact ⟨_, LabelPlan.mem_make.mpr ⟨w₃, h.start_le (boundary hhandler)⟩, rfl⟩

theorem ofCode_wellMade (h : Body.ofCode pool entry c = .ok b) : b.WellMade := by
  obtain ⟨lst, d, fs, hfrom⟩ := ofCode_readFrom h
  have hids : b.ids = (number 0 b.nodes).map Prod.fst := congrArg Body.ids hfrom.made
  have hnext : b.nextId = b.nodes.length := congrArg Body.nextId hfrom.made
  have hlabel : b.nextLabel = (LabelPlan.make lst c.exceptions d).length :=
    congrArg Body.nextLabel hfrom.made
  constructor
  · rw [hids]
    exact number_ids_nodup _ _
  · intro id hid
    rw [hids] at hid
    rw [hnext]
    have := (mem_number_ids.mp hid).2
    omega
  · intro l hl
    obtain ⟨o, ho, rfl⟩ := hfrom.planned hl
    rw [hlabel]
    exact List.idxOf_lt_length_of_mem ho

end Body

end ClassGraft
