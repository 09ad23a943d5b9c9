import ClassGraft.Code.Disassembly
import ClassGraft.Flow.Inference
import ClassGraft.Proofs.BranchBytes
import ClassGraft.Proofs.Ordinals

namespace ClassGraft

theorem marks_get (n : Nat) (positions : List Nat) (p : Nat) :
    (Body.marks n positions)[p]?.getD false = true ↔ p ∈ positions ∧ p < n := by
  have go (a : Array Bool) : (positions.foldl (fun a p => a.setIfInBounds p true) a)[p]?.getD false =
      true ↔ a[p]?.getD false = true ∨ p ∈ positions ∧ p < a.size := by
    induction positions generalizing a with
    | nil => simp
    | cons r rs ih =>
      rw [List.foldl_cons, ih, Array.size_setIfInBounds, Array.getElem?_setIfInBounds]
      by_cases hr : r = p
      · subst hr
        by_cases hlt : r < a.size
        · simp [hlt]
        · simp [hlt]
      · have hp : p ≠ r := fun h => hr h.symm
        simp [hr, hp]
  unfold Body.marks
  rw [go, Array.getElem?_replicate, Array.size_replicate]
  split <;> simp

variable {os : List (Nat × CodeItem)} {stop o : Nat}

namespace Listing

/-- The instruction at an offset is the one listed there. -/
theorem at?_eq {l : Listing} (h : (os.map Prod.fst).Pairwise (· < ·))
    (hb : ∀ e ∈ os, e.1 < l.length)
    (ht : l.table = os.foldl (fun t e => t.setIfInBounds e.1 (some e.2))
      (Array.replicate l.length none)) (o : Nat) : l.at? o = os.lookup o := by
  have go : ∀ t : Array (Option CodeItem), (∀ e ∈ os, e.1 < t.size) →
      (os.foldl (fun t e => t.setIfInBounds e.1 (some e.2)) t)[o]?.getD none =
        (os.lookup o).or (t[o]?.getD none) := by
    clear ht hb
    induction os with
    | nil => intro t _; simp
    | cons e os ih =>
      intro t hb
      rw [List.map_cons, List.pairwise_cons] at h
      have hs : ∀ d ∈ os, d.1 < (t.setIfInBounds e.1 (some e.2)).size := fun d hd => by
        rw [Array.size_setIfInBounds]
        exact hb d (List.mem_cons_of_mem _ hd)
      have he := hb e List.mem_cons_self
      rw [List.foldl_cons, ih h.2 _ hs, List.lookup_cons, Array.getElem?_setIfInBounds]
      by_cases ho : o = e.1
      · have hnone : os.lookup o = none := by
          rw [List.lookup_eq_none_iff]
          intro d hd
          have := h.1 d.1 (List.mem_map_of_mem hd)
          rw [bne_iff_ne]
          omega
        subst ho
        simp [hnone, he]
      · have hne : (o == e.1) = false := beq_false_of_ne ho
        rw [hne, if_neg (fun h => ho h.symm)]
  rw [at?, ht, go _ (by simpa using hb), Array.getElem?_replicate]
  split <;> simp

theorem isStart_iff {l : Listing} (h : ∀ o, l.at? o = os.lookup o) (o : Nat) :
    l.isStart o = true ↔ o ∈ os.map Prod.fst := by
  rw [isStart, h, List.lookup_isSome_iff, List.mem_map]
  constructor
  · rintro ⟨e, he, ho⟩
    exact ⟨e, he, (eq_of_beq ho).symm⟩
  · rintro ⟨e, he, rfl⟩
    exact ⟨e, he, beq_self_eq_true _⟩

theorem isBoundary_iff {l : Listing} (h : ∀ o, l.at? o = os.lookup o) (o : Nat) :
    l.isBoundary o = true ↔ o = l.length ∨ o ∈ os.map Prod.fst := by
  rw [isBoundary, Bool.or_eq_true, beq_iff_eq, isStart_iff h]

end Listing

/-- What is known of the listing of a code array: where its instructions start and where it ends. -/
structure Listed (l : Listing) (ss : List Nat) (stop : Nat) : Prop where
  length : l.length = stop
  starts : l.items.map Prod.fst = ss
  found : ∀ o, l.at? o = l.items.lookup o
  head : (ss ++ [stop]).head? = some 0
  ascend : (ss ++ [stop]).Pairwise (· < ·)

theorem Listed.mem_of_at? {l : Listing} {ss : List Nat} {i : CodeItem} (h : Listed l ss stop)
    (hat : l.at? o = some i) : (o, i) ∈ l.items := by
  rw [h.found] at hat
  obtain ⟨xs, ys, he, -⟩ := List.lookup_eq_some_iff.mp hat
  rw [he]
  exact List.mem_append_right _ List.mem_cons_self

/-- Instructions are listed one behind the other up to the end. -/
theorem listCode_ascends {p : Pool} {length : Nat} {s : Cursor} {seen : List (Nat × CodeItem)}
    (h : listCode p length s seen = .ok os) : ∃ ts, os = seen.reverse ++ ts ∧
      (ts.map Prod.fst ++ [s.offset + s.rest.length]).head? = some s.offset ∧
      (ts.map Prod.fst ++ [s.offset + s.rest.length]).Pairwise (· < ·) := by
  fun_induction listCode p length s seen with
  | case1 s seen hs =>
    cases h
    refine ⟨[], (List.append_nil _).symm, ?_, List.pairwise_singleton _ _⟩
    rw [hs]
    rfl
  | case2 => cases h
  | case3 s seen op rest hs item t hitem _ ih =>
    obtain ⟨ts, rfl, hhead, hascend⟩ := ih h
    obtain ⟨hsuffix, htrack⟩ := CodeSite.item_follows _ hitem
    have hshort := hsuffix.length_le
    dsimp only at hshort htrack
    have hlength : s.rest.length = rest.length + 1 := by rw [hs, List.length_cons]
    have hend : t.offset + t.rest.length = s.offset + s.rest.length := by omega
    have hlater : s.offset < t.offset := by omega
    refine ⟨(s.offset, item) :: ts, by simp, rfl, ?_⟩
    rw [hend] at hhead hascend
    rw [List.map_cons, List.cons_append, List.pairwise_cons]
    refine ⟨fun o ho => ?_, hascend⟩
    obtain ⟨first, rest, he⟩ := List.exists_cons_of_ne_nil (List.ne_nil_of_mem ho)
    rw [he] at hhead hascend ho
    cases hhead
    rcases List.mem_cons.mp ho with rfl | ho
    · exact hlater
    · have := (List.pairwise_cons.mp hascend).1 o ho
      omega

theorem Listing.ofCode_listed {p : Pool} {code : Bytes} {l : Listing}
    (h : Listing.ofCode p code = .ok l) : Listed l (l.items.map Prod.fst) l.length := by
  obtain ⟨items, hitems, h⟩ := except_bind_ok.mp h
  cases h
  obtain ⟨ts, rfl, hhead, hascend⟩ := listCode_ascends hitems
  rw [Nat.zero_add] at hhead hascend
  obtain ⟨hitems, -, hlast⟩ := List.pairwise_append.mp hascend
  refine ⟨rfl, rfl, fun o => Listing.at?_eq hitems (fun e he => ?_) rfl o, hhead, hascend⟩
  exact hlast e.1 (List.mem_map_of_mem he) _ (List.mem_singleton.mpr rfl)

namespace LabelPlan

/-- The offsets that something refers to. -/
def wanted (l : Listing) (es : List ExceptionEntry) (d : DebugTables) : List Nat :=
  (l.items.flatMap fun e => CodeItem.labelled e.1 e.2) ++
    (es.flatMap fun e => [e.start.toNat, e.stop.toNat, e.handler.toNat]) ++
    d.locals.flatMap fun v => [v.1.start.toNat, v.1.start.toNat + v.1.length.toNat]

theorem mem_make {l : Listing} {es : List ExceptionEntry} {d : DebugTables} :
    o ∈ make l es d ↔ o ∈ wanted l es d ∧ o ≤ l.length := by
  have h := marks_get (l.length + 1) (wanted l es d) o
  unfold make
  rw [List.mem_filter, List.mem_range]
  constructor
  · rintro ⟨hlt, hm⟩
    exact ⟨(h.mp hm).1, Nat.le_of_lt_succ hlt⟩
  · rintro ⟨hw, hle⟩
    exact ⟨Nat.lt_succ_of_le hle, h.mpr ⟨hw, Nat.lt_succ_of_le hle⟩⟩

variable (l : Listing) (es : List ExceptionEntry) (d : DebugTables)

theorem wanted_target {l : Listing} {br : Branch Nat} (h : (o, Sum.inr br) ∈ l.items) :
    ∀ t ∈ br.targets, t ∈ wanted l es d := by
  intro t ht
  refine List.mem_append_left _ (List.mem_append_left _ ?_)
  exact List.mem_flatMap.mpr ⟨_, h, ht⟩

theorem wanted_new {l : Listing} {c : BinaryName} (h : (o, Sum.inl (.new c)) ∈ l.items) :
    o ∈ wanted l es d := by
  refine List.mem_append_left _ (List.mem_append_left _ ?_)
  exact List.mem_flatMap.mpr ⟨_, h, List.mem_singleton.mpr rfl⟩

theorem wanted_handler {es : List ExceptionEntry} {e : ExceptionEntry} (h : e ∈ es) :
    e.start.toNat ∈ wanted l es d ∧ e.stop.toNat ∈ wanted l es d ∧
      e.handler.toNat ∈ wanted l es d := by
  have hm : ∀ o ∈ [e.start.toNat, e.stop.toNat, e.handler.toNat], o ∈ wanted l es d := by
    intro o ho
    refine List.mem_append_left _ (List.mem_append_right _ ?_)
    exact List.mem_flatMap.mpr ⟨e, h, ho⟩
  exact ⟨hm _ (by simp), hm _ (by simp), hm _ (by simp)⟩

theorem wanted_local {d : DebugTables} {v : LocalEntry × Bool} (h : v ∈ d.locals) :
    v.1.start.toNat ∈ wanted l es d ∧ v.1.start.toNat + v.1.length.toNat ∈ wanted l es d := by
  have hm : ∀ o ∈ [v.1.start.toNat, v.1.start.toNat + v.1.length.toNat], o ∈ wanted l es d :=
    fun o ho => List.mem_append_right _ (List.mem_flatMap.mpr ⟨v, h, ho⟩)
  exact ⟨hm _ (by simp), hm _ (by simp)⟩

theorem label_injective {plan : LabelPlan} {o p : Nat} (ho : o ∈ plan) (hp : p ∈ plan)
    (h : plan.label o = plan.label p) : o = p := by
  have hi : plan.idxOf o = plan.idxOf p := congrArg Label.index h
  have hlo := List.idxOf_lt_length_of_mem ho
  have hlp := List.idxOf_lt_length_of_mem hp
  rw [← List.getElem_idxOf hlo, ← List.getElem_idxOf hlp]
  simp only [hi]

end LabelPlan

/-- The nodes of some instructions at their offsets. -/
def readNodes (plan : LabelPlan) (lines : List LineEntry) (frames : List (Nat × Frame))
    (os : List (Nat × CodeItem)) : List (Nat × Node) :=
  os.flatMap fun e => (nodesAt plan lines frames e.1 e.2).map fun n => (e.1, n)

/-- The label at the end, if there is one. -/
def lastNodes (plan : LabelPlan) (stop : Nat) : List (Nat × Node) :=
  if plan.contains stop then [(stop, .label (plan.label stop))] else []

variable {plan : LabelPlan} {lines : List LineEntry} {frames : List (Nat × Frame)}

theorem spaced_pseudo {es : List (Nat × Node)} {ns : List Node} (h : Spaced stop o es)
    (hn : ∀ n ∈ ns, n.isPseudo = true) : Spaced stop o (ns.map (fun n => (o, n)) ++ es) := by
  induction ns with
  | nil => exact h
  | cons n ns ih =>
    refine ⟨rfl, o, ?_, ih fun m hm => hn m (List.mem_cons_of_mem _ hm)⟩
    rw [hn n List.mem_cons_self, if_pos rfl]

theorem CodeItem.toNode_isPseudo (plan : LabelPlan) (i : CodeItem) :
    (i.toNode plan).isPseudo = false := by cases i <;> rfl

/-- All nodes at an offset but the last one. -/
def heads (plan : LabelPlan) (lines : List LineEntry) (frames : List (Nat × Frame)) (o : Nat) :
    List Node :=
  (if plan.contains o then [.label (plan.label o)] else []) ++
    (lines.filter fun e => e.start.toNat == o).map (fun e => .line e.line) ++
    ((frames.lookup o).map Node.frame).toList

theorem nodesAt_eq (i : CodeItem) : nodesAt plan lines frames o i =
    heads plan lines frames o ++ [i.toNode plan] := rfl

theorem heads_isPseudo : ∀ n ∈ heads plan lines frames o, n.isPseudo = true := by
  intro n hn
  simp only [heads, List.mem_append, List.mem_map, Option.mem_toList, Option.map_eq_some_iff] at hn
  rcases hn with (hn | ⟨e, _, rfl⟩) | ⟨f, _, rfl⟩
  · split at hn
    · rw [List.mem_singleton] at hn
      rw [hn]
      rfl
    · cases hn
  · rfl
  · rfl

theorem readNodes_spaced (hh : (os.map Prod.fst ++ [stop]).head? = some o)
    (ha : (os.map Prod.fst ++ [stop]).Pairwise (· < ·)) :
    Spaced stop o (readNodes plan lines frames os ++ lastNodes plan stop) := by
  induction os generalizing o with
  | nil =>
    cases hh
    unfold lastNodes
    split
    · exact ⟨rfl, stop, rfl, rfl⟩
    · rfl
  | cons e os ih =>
    cases hh
    rw [List.map_cons, List.cons_append, List.pairwise_cons] at ha
    obtain ⟨next, hnext⟩ : ∃ next, (os.map Prod.fst ++ [stop]).head? = some next := by
      cases os <;> exact ⟨_, rfl⟩
    have hlt : e.1 < next := ha.1 next (List.mem_of_head? hnext)
    rw [readNodes, List.flatMap_cons, nodesAt_eq, List.map_append, List.append_assoc,
      List.append_assoc]
    refine spaced_pseudo ⟨rfl, next, ?_, ih hnext ha.2⟩ heads_isPseudo
    rw [CodeItem.toNode_isPseudo, if_neg Bool.false_ne_true]
    exact hlt

theorem starts_append (es ds : List (Nat × Node)) : starts (es ++ ds) = starts es ++ starts ds := by
  simp [starts]

theorem starts_heads : starts ((heads plan lines frames o).map fun n => (o, n)) = [] := by
  rw [starts, List.map_eq_nil_iff, List.filter_eq_nil_iff]
  rintro ⟨_, n⟩ hn
  obtain ⟨m, hm, he⟩ := List.mem_map.mp hn
  cases he
  rw [heads_isPseudo n hm]
  exact Bool.false_ne_true

theorem starts_readNodes :
    starts (readNodes plan lines frames os ++ lastNodes plan stop) = os.map Prod.fst := by
  induction os with
  | nil =>
    simp only [readNodes, List.flatMap_nil, List.nil_append, lastNodes, List.map_nil]
    split <;> rfl
  | cons e os ih =>
    rw [readNodes, List.flatMap_cons, nodesAt_eq, List.map_append, List.append_assoc,
      List.append_assoc, starts_append, starts_heads, List.nil_append, List.map_cons,
      List.map_nil, List.singleton_append, starts_instruction (CodeItem.toNode_isPseudo plan e.2),
      List.map_cons]
    exact congrArg _ ih

theorem marked_append (es ds : List (Nat × Node)) : marked (es ++ ds) = marked es ++ marked ds := by
  simp [marked]

theorem marked_heads : marked ((heads plan lines frames o).map fun n => (o, n)) =
    if plan.contains o then [(plan.label o, o)] else [] := by
  have hlines : ∀ es : List LineEntry,
      marked ((es.map fun e => Node.line e.line).map fun n => (o, n)) = [] := by
    intro es
    simp [marked, Node.label?]
  have hframes : marked (((frames.lookup o).map Node.frame).toList.map fun n => (o, n)) = [] := by
    cases frames.lookup o <;> rfl
  rw [heads, List.map_append, List.map_append, marked_append, marked_append, hlines, hframes]
  split <;> rfl

/-- The labels that are read stand at the offsets that are planned. -/
theorem marked_readNodes : marked (readNodes plan lines frames os ++ lastNodes plan stop) =
    ((os.map Prod.fst ++ [stop]).filter fun o => plan.contains o).map fun o => (plan.label o, o) := by
  induction os with
  | nil =>
    simp only [readNodes, List.flatMap_nil, List.nil_append, lastNodes, List.map_nil,
      List.filter_cons, List.filter_nil]
    split <;> rfl
  | cons e os ih =>
    have hitem : marked [(e.1, e.2.toNode plan)] = [] := by
      rcases e with ⟨o, i | br⟩ <;> rfl
    rw [readNodes, List.flatMap_cons, nodesAt_eq, List.map_append, List.append_assoc,
      List.append_assoc, marked_append, marked_heads, marked_append, List.map_cons, List.map_nil,
      hitem, List.nil_append, List.map_cons, List.cons_append, List.filter_cons]
    have ih' : marked (os.flatMap (fun e => (nodesAt plan lines frames e.1 e.2).map fun n => (e.1, n)) ++
        lastNodes plan stop) = _ := ih
    rw [ih']
    cases plan.contains e.1 <;> rfl

theorem labels_marked (es : List (Nat × Node)) :
    (es.map Prod.snd).filterMap Node.label? = (marked es).map Prod.fst := by
  rw [marked, List.filterMap_map, List.map_filterMap]
  refine List.filterMap_congr fun e _ => ?_
  show e.2.label? = (e.2.label?.map fun l => (l, e.1)).map Prod.fst
  rw [Option.map_map]
  exact Option.map_id'.symm

/-- No label is read twice. -/
theorem readNodes_labels_nodup (ha : (os.map Prod.fst ++ [stop]).Pairwise (· < ·)) :
    (((readNodes plan lines frames os ++ lastNodes plan stop).map Prod.snd).filterMap
      Node.label?).Nodup := by
  rw [labels_marked, marked_readNodes, List.map_map, List.Nodup, List.pairwise_map]
  refine (ha.filter _).imp_of_mem fun {o p} ho hp hlt he => ?_
  have hin {o : Nat} (ho : o ∈ (os.map Prod.fst ++ [stop]).filter fun o => plan.contains o) : o ∈ plan :=
    List.contains_iff_mem.mp (List.mem_filter.mp ho).2
  have := LabelPlan.label_injective (hin ho) (hin hp) he
  omega

theorem lookup_marked_readNodes (hp : o ∈ plan) (ho : o = stop ∨ o ∈ os.map Prod.fst) :
    (marked (readNodes plan lines frames os ++ lastNodes plan stop)).lookup (plan.label o) =
      some o := by
  rw [marked_readNodes]
  have hm : o ∈ (os.map Prod.fst ++ [stop]).filter fun o => plan.contains o := by
    rw [List.mem_filter, List.mem_append, List.mem_singleton]
    exact ⟨ho.symm, List.contains_iff_mem.mpr hp⟩
  have hin : ∀ p ∈ (os.map Prod.fst ++ [stop]).filter fun o => plan.contains o, p ∈ plan :=
    fun p hp => List.contains_iff_mem.mp (List.mem_filter.mp hp).2
  revert hm hin
  generalize (os.map Prod.fst ++ [stop]).filter (fun o => plan.contains o) = ps
  intro hm hin
  induction ps with
  | nil => cases hm
  | cons p ps ih =>
    rw [List.map_cons, List.lookup_cons]
    by_cases h : plan.label o = plan.label p
    · rw [h, beq_self_eq_true]
      exact congrArg some (LabelPlan.label_injective (hin p List.mem_cons_self) hp h.symm)
    · rw [beq_false_of_ne h]
      have hne : o ≠ p := fun e => h (by rw [e])
      refine ih ?_ fun r hr => hin r (List.mem_cons_of_mem _ hr)
      exact (List.mem_cons.mp hm).resolve_left hne

theorem readNodes_nodes : (readNodes plan lines frames os ++ lastNodes plan stop).map Prod.snd =
    (os.flatMap fun e => nodesAt plan lines frames e.1 e.2) ++
      if plan.contains stop then [Node.label (plan.label stop)] else [] := by
  rw [List.map_append, readNodes, List.map_flatMap]
  congr 1
  · refine List.flatMap_congr fun e _ => ?_
    rw [List.map_map]
    exact List.map_id _
  · unfold lastNodes
    split <;> rfl

theorem Body.nodes_ofNodes (labels : Nat) (ns : List Node) (ts : List TryBlock)
    (ls : List LocalRange) :
    { Body.ofNodes labels ns with tryBlocks := ts, locals := ls }.nodes = ns := by
  exact Body.number_nodes 0 ns

/-- The labels that are read have the ordinals of the offsets that they were planned for. -/
theorem ordinal?_readNodes {b : Body}
    (hn : (readNodes plan lines frames os ++ lastNodes plan stop).map Prod.snd = b.nodes)
    (hh : (os.map Prod.fst ++ [stop]).head? = some 0)
    (ha : (os.map Prod.fst ++ [stop]).Pairwise (· < ·)) (hp : o ∈ plan)
    (ho : o = stop ∨ o ∈ os.map Prod.fst) :
    b.ordinal? (plan.label o) = some (rank (os.map Prod.fst) o) := by
  rw [Body.ordinal?_eq (readNodes_spaced hh ha) hn, lookup_marked_readNodes hp ho, starts_readNodes]
  rfl

/-- An item with something else in place of offsets. -/
def CodeItem.mapTargets {M : Type} (f : Nat → M) : CodeItem → Instruction ⊕ Branch M
  | .inl i => .inl i
  | .inr br => .inr (br.map f)

theorem CodeItem.item?_toNode {M : Type} (f : Label → M) (i : CodeItem) :
    (i.toNode plan).item? f = some (i.mapTargets fun o => f (plan.label o)) := by
  cases i with
  | inl i => rfl
  | inr br =>
    show some (Sum.inr ((br.map plan.label).map f)) = _
    rw [Branch.map_map]
    rfl

theorem heads_item? {M : Type} (f : Label → M) :
    (heads plan lines frames o).filterMap (Node.item? f) = [] := by
  rw [List.filterMap_eq_nil_iff]
  intro n hn
  have hp := heads_isPseudo n hn
  cases n with
  | insn i => cases hp
  | branch br => cases hp
  | _ => rfl

theorem program_readNodes {b : Body}
    (hn : (readNodes plan lines frames os ++ lastNodes plan stop).map Prod.snd = b.nodes) :
    b.program = os.map fun e => e.2.mapTargets fun o => b.ordinal? (plan.label o) := by
  have hlast : (if plan.contains stop then [Node.label (plan.label stop)] else []).filterMap
      (Node.item? b.ordinal?) = [] := by split <;> rfl
  rw [Body.program, ← hn, readNodes_nodes, List.filterMap_append, hlast, List.append_nil,
    List.filterMap_flatMap]
  clear hn hlast
  induction os with
  | nil => rfl
  | cons e os ih =>
    rw [List.flatMap_cons, nodesAt_eq, List.filterMap_append, heads_item?, List.nil_append, ih,
      List.filterMap_cons, CodeItem.item?_toNode]
    rfl

end ClassGraft
