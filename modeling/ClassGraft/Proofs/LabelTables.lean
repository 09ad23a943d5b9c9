import ClassGraft.Code.Placement
import ClassGraft.Proofs.LoadDecoding
import Mathlib

namespace ClassGraft

variable {l : Listing} {es : List ExceptionEntry} {d : DebugTables} {pool : Pool} {c : CodeAttribute}
  {o : Nat}

namespace DebugTables

theorem ofAttributes_inRange {as : List Attribute} (h : ofAttributes pool l as = .ok d) :
    ∀ v ∈ d.locals, InRange l v.1 := by
  refine foldlM_keeps (P := fun d : DebugTables => ∀ v ∈ d.locals, InRange l v.1)
    (fun a d d' hd hadd => ?_) (fun v hv => absurd hv List.not_mem_nil) h
  have grown (flag : Bool) (vs : List LocalEntry) : ∀ v ∈ d.locals ++ (vs.filter fun v =>
      l.isBoundary v.start.toNat && l.isBoundary (v.start.toNat + v.length.toNat)).map fun v => (v, flag),
      InRange l v.1 := by
    intro v hv
    rcases List.mem_append.mp hv with hv | hv
    · exact hd v hv
    · obtain ⟨w, hw, rfl⟩ := List.mem_map.mp hv
      exact Bool.and_eq_true_iff.mp (List.mem_filter.mp hw).2
  obtain ⟨name, -, hadd⟩ := except_bind_ok.mp hadd
  dsimp only at hadd
  split at hadd
  · obtain ⟨_, -, hadd⟩ := except_bind_ok.mp hadd
    cases hadd
    exact hd
  split at hadd
  · obtain ⟨vs, -, hadd⟩ := except_bind_ok.mp hadd
    cases hadd
    exact grown false vs
  split at hadd
  · obtain ⟨vs, -, hadd⟩ := except_bind_ok.mp hadd
    cases hadd
    exact grown true vs
  split at hadd
  · obtain ⟨_, -, hadd⟩ := except_bind_ok.mp hadd
    cases hadd
    exact hd
  · cases hadd
    exact hd

end DebugTables

/-- The offsets that something refers to are checked before labels are made for them. -/
structure Checked (l : Listing) (es : List ExceptionEntry) (d : DebugTables) : Prop where
  listed : Listed l (l.items.map Prod.fst) l.length
  targets : l.checkTargets l.items = .ok ()
  handlers : l.checkHandlers es = .ok ()
  locals : ∀ v ∈ d.locals, DebugTables.InRange l v.1

namespace Checked

theorem start_boundary (ho : l.isStart o = true) : l.isBoundary o = true := by
  rw [Listing.isBoundary, ho, Bool.or_true]

theorem wanted_boundary (h : Checked l es d) (ho : o ∈ LabelPlan.wanted l es d) :
    l.isBoundary o = true := by
  rcases List.mem_append.mp ho with ho | ho
  · rcases List.mem_append.mp ho with ho | ho
    · obtain ⟨⟨p, i⟩, hi, ho⟩ := List.mem_flatMap.mp ho
      refine start_boundary ?_
      rcases i with i | br
      · have hp : o = p := by
          cases i with
          | new => exact List.mem_singleton.mp ho
          | _ => cases ho
        rw [hp, Listing.isStart_iff h.listed.found]
        exact List.mem_map_of_mem hi
      · exact Listing.checkTargets_starts h.targets hi o ho
    · obtain ⟨e, he, ho⟩ := List.mem_flatMap.mp ho
      have hsound : l.isSound e = true := Listing.checkHandlers_sound h.handlers e he
      simp only [Listing.isSound, Bool.and_eq_true] at hsound
      obtain ⟨⟨⟨-, hstart⟩, hstop⟩, hhandler⟩ := hsound
      simp only [List.mem_cons, List.not_mem_nil, or_false] at ho
      rcases ho with rfl | rfl | rfl
      · exact start_boundary hstart
      · exact hstop
      · exact start_boundary hhandler
  · obtain ⟨v, hv, ho⟩ := List.mem_flatMap.mp ho
    obtain ⟨hstart, hstop⟩ := h.locals v hv
    simp only [List.mem_cons, List.not_mem_nil, or_false] at ho
    rcases ho with rfl | rfl
    · exact hstart
    · exact hstop

theorem wanted_le (h : Checked l es d) (ho : o ∈ LabelPlan.wanted l es d) : o ≤ l.length := by
  rcases (Listing.isBoundary_iff h.listed.found o).mp (h.wanted_boundary ho) with rfl | hstart
  · exact Nat.le_refl _
  · exact Nat.le_of_lt ((List.pairwise_append.mp h.listed.ascend).2.2 o hstart _ (by simp))

theorem planned (h : Checked l es d) (ho : o ∈ LabelPlan.wanted l es d) :
    o ∈ LabelPlan.make l es d := LabelPlan.mem_make.mpr ⟨ho, h.wanted_le ho⟩

end Checked

namespace LabelTable

theorem mem_foldl_insertMany {α : Type} (f : α → List Nat) (xs : List α) (s : Std.TreeSet Nat) :
    o ∈ xs.foldl (fun s x => s.insertMany (f x)) s ↔ o ∈ s ∨ o ∈ xs.flatMap f := by
  induction xs generalizing s with
  | nil => simp
  | cons x xs ih =>
    rw [List.foldl_cons, ih, Std.TreeSet.mem_insertMany_list, List.contains_iff_mem,
      List.flatMap_cons, List.mem_append, or_assoc]

theorem mem_collect : o ∈ collect l es d ↔ o ∈ LabelPlan.wanted l es d := by
  unfold collect LabelPlan.wanted
  have hempty : o ∉ (∅ : Std.TreeSet Nat) := Std.TreeSet.not_mem_emptyc
  rw [List.mem_append, List.mem_append]
  refine (mem_foldl_insertMany (fun v : LocalEntry × Bool => _) d.locals _).trans ?_
  refine or_congr ((mem_foldl_insertMany (fun e : ExceptionEntry => _) es _).trans ?_) Iff.rfl
  refine or_congr ((mem_foldl_insertMany (fun e : Nat × CodeItem => _) l.items _).trans ?_) Iff.rfl
  exact or_iff_right hempty

/-- The offsets are collected in the order in which labels are planned for them. -/
theorem collect_toList (h : Checked l es d) : (collect l es d).toList = LabelPlan.make l es d := by
  have hcollect : (collect l es d).toList.Pairwise (· < ·) := by
    simpa only [compare_lt_iff_lt] using (collect l es d).ordered_toList
  have hplan : (LabelPlan.make l es d).Pairwise (· < ·) := List.pairwise_lt_range.filter _
  refine List.Pairwise.eq_of_mem_iff hcollect hplan fun o => ?_
  rw [Std.TreeSet.mem_toList, mem_collect]
  exact ⟨h.planned, fun ho => (LabelPlan.mem_make.mp ho).1⟩

variable {t : LabelTable} {plan : LabelPlan}

/-- The table has the labels that are planned, and no others. -/
def Follows (t : LabelTable) (plan : LabelPlan) : Prop :=
  ∀ o, t[o]? = if o ∈ plan then some (plan.label o) else none

theorem make_append (b : Body) (os : List Nat) (p : Nat) : make b (os ++ [p]) =
    ((make b os).1.insert p (make b os).2.newLabel.1, (make b os).2.newLabel.2) := by
  unfold make
  rw [List.foldl_append]
  rfl

/-- Labels are made in the order of the offsets. -/
theorem make_spec (b : Body) {os : List Nat} (h : os.Nodup) :
    (make b os).2 = { b with nextLabel := b.nextLabel + os.length } ∧
    ∀ o, (make b os).1[o]? = if o ∈ os then some ⟨b.nextLabel + os.idxOf o⟩ else none := by
  induction os using List.reverseRecOn with
  | nil => exact ⟨rfl, fun o => Std.HashMap.getElem?_empty⟩
  | append_singleton os p ih =>
    obtain ⟨hos, -, hp⟩ := List.nodup_append.mp h
    have hnew : p ∉ os := fun hin => hp p hin p (List.mem_singleton_self p) rfl
    obtain ⟨hb, ht⟩ := ih hos
    rw [make_append]
    refine ⟨?_, fun o => ?_⟩
    · rw [hb, List.length_append]
      rfl
    · rw [Std.HashMap.getElem?_insert, ht, List.idxOf_append]
      simp only [hb, Body.newLabel, List.mem_append, List.mem_singleton, beq_iff_eq]
      by_cases ho : o = p
      · subst ho
        simp [hnew]
      · simp only [ho, or_false, Ne.symm ho, if_false]
        split <;> rfl

theorem make_follows (hplan : plan.Nodup) : (make Body.empty plan).1.Follows plan ∧
    (make Body.empty plan).2 = Body.ofNodes plan.length [] := by
  obtain ⟨hb, ht⟩ := make_spec Body.empty hplan
  refine ⟨fun o => ?_, ?_⟩
  · rw [ht]
    simp only [Body.empty, Nat.zero_add]
    rfl
  · rw [hb]
    simp only [Body.empty, Nat.zero_add]
    rfl

namespace Follows

theorem planned (h : t.Follows plan) (ho : o ∈ plan) : t[o]? = some (plan.label o) := by
  rw [h o, if_pos ho]

theorem labelAt (h : t.Follows plan) (ho : o ∈ plan) : t.labelAt o = .ok (plan.label o) := by
  unfold LabelTable.labelAt
  rw [h.planned ho]

theorem labels (h : t.Follows plan) (o : Nat) : (t[o]?.map Node.label).toList =
    if plan.contains o then [.label (plan.label o)] else [] := by
  rw [h o]
  by_cases ho : o ∈ plan
  · rw [if_pos ho, if_pos (List.contains_iff_mem.mpr ho)]
    rfl
  · rw [if_neg ho, if_neg (fun hc => ho (List.contains_iff_mem.mp hc))]
    rfl

/-- Where each `new` has a label, types are resolved as they are with the plan. -/
theorem resolve (h : t.Follows plan) (hl : Checked l es d) (hplan : plan = LabelPlan.make l es d)
    (pool : Pool) : t.resolve l pool = l.resolve pool plan := by
  funext type
  unfold LabelTable.resolve Listing.resolve
  congr 1
  funext offset
  cases hat : l.at? offset.toNat with
  | none => rfl
  | some i =>
    rcases i with i | br
    · cases i with
      | new c =>
        have hmem := hl.planned (LabelPlan.wanted_new es d (hl.listed.mem_of_at? hat))
        simp only [h.planned (hplan ▸ hmem)]
      | _ => rfl
    · rfl

theorem tryBlock (h : t.Follows plan) (hl : Checked l es d) (hplan : plan = LabelPlan.make l es d)
    (pool : Pool) {e : ExceptionEntry} (he : e ∈ es) :
    t.tryBlock pool e = ClassGraft.tryBlock pool plan e := by
  obtain ⟨h1, h2, h3⟩ := LabelPlan.wanted_handler l d he
  have hlabel {o : Nat} (ho : o ∈ LabelPlan.wanted l es d) : t.labelAt o = .ok (plan.label o) :=
    h.labelAt (hplan ▸ hl.planned ho)
  unfold LabelTable.tryBlock ClassGraft.tryBlock
  rw [hlabel h1, hlabel h2, hlabel h3]
  rfl

theorem localRange (h : t.Follows plan) (hl : Checked l es d) (hplan : plan = LabelPlan.make l es d)
    (pool : Pool) {v : LocalEntry × Bool} (hv : v ∈ d.locals) :
    t.localRange pool v = ClassGraft.localRange pool plan v := by
  obtain ⟨h1, h2⟩ := LabelPlan.wanted_local l es hv
  unfold LabelTable.localRange ClassGraft.localRange
  dsimp only
  rw [h.labelAt (hplan ▸ hl.planned h1), h.labelAt (hplan ▸ hl.planned h2)]
  rfl

end Follows

end LabelTable

theorem Branch.mapM_ok {L M ε : Type} {f : L → Except ε M} {g : L → M} {br : Branch L}
    (h : ∀ l ∈ br.targets, f l = .ok (g l)) : br.mapM f = .ok (br.map g) := by
  cases br with
  | tableSwitch default low ls =>
    obtain ⟨hdefault, hls⟩ := List.forall_mem_cons.mp h
    rw [map_tableSwitch, mapM, hdefault, ClassGraft.mapM_ok hls]
    rfl
  | lookupSwitch default cases =>
    obtain ⟨hdefault, hcases⟩ := List.forall_mem_cons.mp h
    have hpairs : cases.mapM (fun (c : Int32 × L) => (do return (c.1, ← f c.2) : Except ε (Int32 × M))) =
        .ok (cases.map fun c => (c.1, g c.2)) :=
      ClassGraft.mapM_ok fun c hc => by rw [hcases c.2 (List.mem_map_of_mem hc)]; rfl
    rw [map_lookupSwitch, mapM, hdefault]
    exact except_bind_ok.mpr ⟨_, rfl, except_bind_ok.mpr ⟨_, hpairs, rfl⟩⟩
  | ret | leave | athrow => rfl
  | _ =>
    rw [mapM, h _ List.mem_cons_self]
    rfl

namespace Body

variable {t : LabelTable} {plan : LabelPlan} {ns ms : List Node} {n : Node} {k : Nat}
  {lines : List LineEntry} {frames : List (Nat × Frame)} {os : List (Nat × CodeItem)}

theorem ofNodes_entries (k : Nat) (ns : List Node) :
    (ofNodes k (ns ++ [n])).entries = (ofNodes k ns).entries.push (⟨ns.length⟩, n) := by
  have hnumber : number 0 (ns ++ [n]) = number 0 ns ++ [(⟨ns.length⟩, n)] := by
    rw [number, List.mapIdx_append]
    simp [number]
  show (number 0 (ns ++ [n])).toArray = (number 0 ns).toArray.push _
  rw [hnumber, List.push_toArray]

/-- A label that is not among the nodes can be placed behind them. -/
theorem ofNodes_push (h : ((ns ++ [n]).filterMap Node.label?).Nodup) :
    (ofNodes k ns).push n = .ok (⟨ns.length⟩, ofNodes k (ns ++ [n])) := by
  have hclash : clash? [] (ofNodes k ns) [n] = none := by
    unfold clash?
    cases hn : n.label? with
    | none => rfl
    | some l =>
      have hfree : (ofNodes k ns).isPlaced l = false := by
        rw [Bool.eq_false_iff]
        intro hplaced
        obtain ⟨p, m, hm, hl⟩ := isPlaced_iff.mp hplaced
        have hmem : m ∈ ns := nodes_ofNodes k ns [] [] ▸ List.mem_of_getElem? ((nodes_get? _ p).trans hm)
        rw [List.filterMap_append, List.filterMap_cons, hn] at h
        exact (List.nodup_append.mp h).2.2 l (List.mem_filterMap.mpr ⟨m, hmem, hl⟩) l
          (List.mem_singleton_self l) rfl
      simp only [List.not_mem_nil, decide_false, hfree, Bool.or_self, Bool.false_eq_true, if_false]
      rfl
  have hfresh : (ofNodes k ns).checkFresh [n] = .ok () := by
    unfold checkFresh
    rw [hclash]
  have hnew : ofNodes k (ns ++ [n]) = { ofNodes k ns with
      entries := (ofNodes k ns).entries.push (⟨ns.length⟩, n)
      nextId := ns.length + 1
      version := ns.length + 1 } := by
    rw [← ofNodes_entries]
    unfold ofNodes
    rw [List.length_append, List.length_singleton]
  unfold push
  rw [hfresh, hnew]
  rfl

theorem ofNodes_pushAll (h : ((ns ++ ms).filterMap Node.label?).Nodup) :
    (ofNodes k ns).pushAll ms = .ok (ofNodes k (ns ++ ms)) := by
  induction ms generalizing ns with
  | nil => rw [List.append_nil]; rfl
  | cons m ms ih =>
    rw [List.append_cons] at h ⊢
    have hpush := ofNodes_push (k := k) (List.Nodup.sublist
      ((List.sublist_append_left (ns ++ [m]) ms).filterMap _) h)
    unfold pushAll
    rw [List.foldlM_cons, hpush]
    exact ih h

theorem pushAll_append (b : Body) (ns ms : List Node) :
    b.pushAll (ns ++ ms) = b.pushAll ns >>= fun b => b.pushAll ms := List.foldlM_append

/-- The nodes at an offset are put in one behind the other. -/
theorem pushItem_eq (h : t.Follows plan) {item : CodeItem}
    (ht : ∀ br, item = .inr br → ∀ target ∈ br.targets, target ∈ plan) (b : Body) :
    pushItem t lines frames b (o, item) = b.pushAll (nodesAt plan lines frames o item) := by
  have hnode : t.node o item = .ok (item.toNode plan) := by
    rcases item with i | br
    · rfl
    · have hlabels : ∀ target ∈ br.targets, t.jumpLabel o target = .ok (plan.label target) := by
        intro target htarget
        unfold LabelTable.jumpLabel
        rw [h.planned (ht br rfl target htarget)]
      rw [LabelTable.node, Branch.mapM_ok hlabels]
      rfl
  unfold pushItem nodesAt
  simp only [hnode, h.labels, pushAll_append, bind_assoc]
  rfl

theorem foldlM_pushItem (h : t.Follows plan)
    (ht : ∀ e ∈ os, ∀ br, e.2 = .inr br → ∀ target ∈ br.targets, target ∈ plan) (b : Body) :
    os.foldlM (pushItem t lines frames) b =
      b.pushAll (os.flatMap fun e => nodesAt plan lines frames e.1 e.2) := by
  induction os generalizing b with
  | nil => rfl
  | cons e os ih =>
    obtain ⟨he, hos⟩ := List.forall_mem_cons.mp ht
    rw [List.foldlM_cons, List.flatMap_cons, pushAll_append, pushItem_eq h he]
    exact except_bind_congr fun b _ => ih hos b

/-- All nodes that are read can be put in one behind the other. -/
theorem pushAll_nodes (h : Checked l es d) (plan : LabelPlan) (frames : List (Nat × Frame)) :
    (ofNodes plan.length []).pushAll ((l.items.flatMap fun e => nodesAt plan d.lines frames e.1 e.2) ++
      if plan.contains l.length then [.label (plan.label l.length)] else []) =
    .ok (ofNodes plan.length ((l.items.flatMap fun e => nodesAt plan d.lines frames e.1 e.2) ++
      if plan.contains l.length then [.label (plan.label l.length)] else [])) := by
  refine ofNodes_pushAll ?_
  rw [List.nil_append, ← readNodes_nodes]
  exact readNodes_labels_nodup h.listed.ascend

/-- A body is the same whether it is put together node by node or made at once. -/
theorem build_eq (pool : Pool) (entry : Option Frame) (c : CodeAttribute) :
    build pool entry c = ofCode pool entry c := by
  refine except_bind_congr fun l hl => ?_
  refine except_bind_congr fun _ ht => ?_
  refine except_bind_congr fun _ hh => ?_
  refine except_bind_congr fun d hd => ?_
  have h : Checked l c.exceptions d :=
    ⟨Listing.ofCode_listed hl, ht, hh, DebugTables.ofAttributes_inRange hd⟩
  obtain ⟨plan, hplan⟩ : ∃ plan, plan = LabelPlan.make l c.exceptions d := ⟨_, rfl⟩
  have hnodup : plan.Nodup := hplan ▸ List.nodup_range.filter _
  obtain ⟨hfollows, hmade⟩ := LabelTable.make_follows hnodup
  have htargets : ∀ e ∈ l.items, ∀ br, e.2 = .inr br → ∀ target ∈ br.targets, target ∈ plan := by
    rintro ⟨o, _⟩ he br rfl target htarget
    exact hplan ▸ h.planned (LabelPlan.wanted_target c.exceptions d he target htarget)
  rw [LabelTable.collect_toList h, ← hplan]
  generalize LabelTable.make Body.empty plan = made at hfollows hmade
  obtain ⟨t, b⟩ := made
  dsimp only at hfollows hmade
  subst hmade
  dsimp only
  rw [hfollows.resolve h hplan]
  have hrest (frames : List (Nat × Frame)) : (do
      let b ← l.items.foldlM (pushItem t d.lines frames) (ofNodes plan.length [])
      let b ← b.pushAll (t[l.length]?.map Node.label).toList
      let tryBlocks ← c.exceptions.mapM (t.tryBlock pool)
      let locals ← d.locals.mapM (t.localRange pool)
      return { b with tryBlocks, locals }) = (do
      let tryBlocks ← c.exceptions.mapM (tryBlock pool plan)
      let locals ← d.locals.mapM (localRange pool plan)
      return { ofNodes plan.length ((l.items.flatMap fun e => nodesAt plan d.lines frames e.1 e.2) ++
        if plan.contains l.length then [.label (plan.label l.length)] else []) with tryBlocks, locals } :
      Except ClassError Body) := by
    have hnodes := pushAll_nodes h plan frames
    rw [pushAll_append, ← foldlM_pushItem hfollows htargets, ← hfollows.labels] at hnodes
    rw [← bind_assoc, hnodes, mapM_congr_mem fun e he => hfollows.tryBlock h hplan pool he,
      mapM_congr_mem fun v hv => hfollows.localRange h hplan pool hv, hfollows.labels]
    rfl
  cases d.frames with
  | none => exact hrest []
  | some table =>
    cases entry with
    | none => exact hrest []
    | some entry => exact except_bind_congr fun frames _ => hrest frames

end Body

end ClassGraft
