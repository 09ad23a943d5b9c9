import ClassGraft.Proofs.ArenaTables
import ClassGraft.Proofs.BodyEdits
import Mathlib

namespace ClassGraft

namespace BodyChange

/-- The node that is already there, by its id. -/
def node? : BodyChange → Option NodeId
  | .insertBefore id _ | .insertAfter id _ | .replace id _ | .remove id | .replaceOperand id _ => some id
  | _ => none

/-- The nodes to put in. -/
def nodes : BodyChange → List Node
  | .push n | .insertUnrecorded _ n => [n]
  | .insertBefore _ ns | .insertAfter _ ns | .insertAtStart ns | .replace _ ns => ns
  | _ => []

end BodyChange

namespace Arena

variable {a : Arena} {p q : Nat} {id : NodeId} {n : Node} {ns : List Node} {l : Label}

theorem pairs_of {es : List Entry} (ho : a.order = es.map Prod.fst)
    (hnodes : ∀ e ∈ es, a.node? e.1 = some e.2) : a.pairs = es := by
  unfold pairs
  rw [ho]
  clear ho
  induction es with
  | nil => rfl
  | cons e es ih =>
    obtain ⟨he, hes⟩ := List.forall_mem_cons.mp hnodes
    rw [List.map_cons, List.filterMap_cons_some (by rw [he]; rfl), ih hes]

theorem mem_pairs {e : Entry} : e ∈ a.pairs ↔ e.1 ∈ a.order ∧ a.node? e.1 = some e.2 := by
  unfold pairs
  rw [List.mem_filterMap]
  constructor
  · rintro ⟨id, hid, he⟩
    obtain ⟨n, hn, rfl⟩ := Option.map_eq_some_iff.mp he
    exact ⟨hid, hn⟩
  · rintro ⟨hid, hn⟩
    exact ⟨e.1, hid, by rw [hn]; rfl⟩

theorem Sound.ids (h : a.Sound) : a.pairs.map Prod.fst = a.order := by
  have hall : ∀ id ∈ a.order, (a.node? id).isSome = true := fun id hid => h.mem_order.mp hid
  unfold pairs
  revert hall
  induction a.order with
  | nil => exact fun _ => rfl
  | cons id os ih =>
    intro hall
    obtain ⟨hid, hos⟩ := List.forall_mem_cons.mp hall
    obtain ⟨n, hn⟩ := Option.isSome_iff_exists.mp hid
    rw [List.filterMap_cons_some (by rw [hn]; rfl), List.map_cons, ih hos]

theorem Sound.body_size (h : a.Sound) : a.body.size = a.order.length := by
  rw [← h.ids, List.length_map]
  rfl

theorem Sound.mem_pairs (h : a.Sound) {e : Entry} : e ∈ a.pairs ↔ a.node? e.1 = some e.2 := by
  rw [Arena.mem_pairs, h.mem_order]
  exact ⟨fun he => he.2, fun he => ⟨by rw [he]; rfl, he⟩⟩

theorem Sound.body_position? (h : a.Sound) (id : NodeId) : a.body.position? id = a.position? id := by
  have hget (p : Nat) : (a.pairs[p]?).map Prod.fst = a.order[p]? := by
    rw [← h.ids, List.getElem?_map]
  refine Option.ext fun p => ?_
  rw [h.placed, ← hget]
  unfold Body.position? body
  rw [List.findIdx?_toArray, List.findIdx?_eq_some_iff_getElem]
  constructor
  · rintro ⟨hlt, he, -⟩
    rw [List.getElem?_eq_getElem hlt]
    exact congrArg some (beq_iff_eq.mp he)
  · intro hp
    obtain ⟨e, he, hid⟩ := Option.map_eq_some_iff.mp hp
    obtain ⟨hlt, he⟩ := List.getElem?_eq_some_iff.mp he
    refine ⟨hlt, by rw [he]; exact beq_iff_eq.mpr hid, fun q hq hbeq => ?_⟩
    have hq' : a.order[q]? = some id := by
      rw [← hget, List.getElem?_eq_getElem (by omega)]
      exact congrArg some (beq_iff_eq.mp hbeq)
    rw [hget] at hp
    have := (h.placed id q).mpr hq'
    rw [(h.placed id p).mpr hp] at this
    cases this
    exact Nat.lt_irrefl _ hq

theorem Sound.body_position (h : a.Sound) (id : NodeId) :
    a.body.position id = match a.position? id with
      | some p => .ok p
      | none => .error (.missingNode id) := by
  unfold Body.position
  cases hp : a.position? id <;> simp only [h.body_position?, hp]

theorem Sound.body_node (h : a.Sound) (id : NodeId) :
    a.body.node id = match a.node? id with
      | some n => .ok n
      | none => .error (.missingNode id) := by
  have hfind : a.body.entries.find? (fun e => e.1 == id) = (a.node? id).map fun n => (id, n) := by
    refine (List.find?_toArray ..).trans ?_
    cases hn : a.node? id with
    | none =>
      refine List.find?_eq_none.mpr fun e he hid => ?_
      have := h.mem_pairs.mp he
      rw [beq_iff_eq.mp hid, hn] at this
      cases this
    | some n =>
      have hmem : (id, n) ∈ a.pairs := h.mem_pairs.mpr hn
      obtain ⟨e, he⟩ : ∃ e, a.pairs.find? (fun e => e.1 == id) = some e :=
        Option.isSome_iff_exists.mp (List.find?_isSome.mpr ⟨(id, n), hmem, beq_iff_eq.mpr rfl⟩)
      have hid : e.1 = id := beq_iff_eq.mp (List.find?_some (p := fun e : Entry => e.1 == id) he)
      have := h.mem_pairs.mp (List.mem_of_find?_eq_some he)
      rw [hid, hn] at this
      rw [he]
      exact congrArg some (Prod.ext hid (Option.some.inj this).symm)
  unfold Body.node
  rw [hfind]
  cases a.node? id <;> rfl

theorem Sound.missing (h : a.Sound) (hp : a.position? id = none) : id ∉ a.order := by
  intro hid
  rw [h.mem_order, h.live, hp] at hid
  cases hid

theorem Sound.contains_iff (h : a.Sound) :
    a.labelNodes.contains l = true ↔ ∃ id, (id, .label l) ∈ a.pairs := by
  rw [← Std.HashMap.mem_iff_contains, Std.HashMap.mem_iff_isSome_getElem?,
    Option.isSome_iff_exists]
  exact exists_congr fun id => (h.labels l id).trans (h.mem_pairs (e := (id, .label l))).symm

theorem Sound.body_isPlaced (h : a.Sound) (l : Label) :
    a.body.isPlaced l = a.labelNodes.contains l := by
  have hget (p : Nat) : a.body.get? p = (a.pairs[p]?).map Prod.snd := by
    unfold Body.get? body
    rw [List.getElem?_toArray]
  rw [Bool.eq_iff_iff, Body.isPlaced_iff, h.contains_iff]
  constructor
  · rintro ⟨p, n, hp, hl⟩
    rw [hget] at hp
    obtain ⟨e, he, rfl⟩ := Option.map_eq_some_iff.mp hp
    exact ⟨e.1, label_of_label? hl ▸ List.mem_of_getElem? he⟩
  · rintro ⟨id, hid⟩
    obtain ⟨p, hp⟩ := List.mem_iff_getElem?.mp hid
    exact ⟨p, .label l, by rw [hget, hp]; rfl, rfl⟩

theorem Sound.body_clash? (h : a.Sound) (placing : List Label) (ns : List Node) :
    Body.clash? placing a.body ns = clash? placing a ns := by
  induction ns generalizing placing with
  | nil => rfl
  | cons n ns ih =>
    unfold Body.clash? clash?
    cases n.label? with
    | none => exact ih placing
    | some l => simp only [h.body_isPlaced, ih]

theorem Sound.free (h : a.Sound) (hclash : clash? [] a ns = none) :
    (∀ n ∈ ns, ∀ l, n.label? = some l → a.labelNodes[l]? = none) ∧
      (ns.filterMap Node.label?).Nodup := by
  rw [← h.body_clash?] at hclash
  obtain ⟨hfree, hdistinct⟩ := Body.clash?_none hclash
  refine ⟨fun n hn l hl => ?_, hdistinct⟩
  have := (hfree n hn l hl).2
  rw [h.body_isPlaced] at this
  cases hid : a.labelNodes[l]? with
  | none => rfl
  | some id =>
    have hmem : l ∈ a.labelNodes := Std.HashMap.mem_iff_isSome_getElem?.mpr (by rw [hid]; rfl)
    rw [Std.HashMap.mem_iff_contains, this] at hmem
    cases hmem

variable {es₁ es₂ removed : List Entry}

theorem labelNodes_releasedAll {es : List Entry} (h : a.labelNodes[l]? = none) :
    (a.releasedAll es).labelNodes[l]? = none := by
  induction es generalizing a with
  | nil => exact h
  | cons e es ih =>
    refine ih ((labelNodes_released a e.1 e.2 l).trans ?_)
    split
    · rfl
    · exact h

theorem number_ids_nodes (first : Nat) (ns : List Node) :
    ((Body.number first ns).map Prod.fst).zip ns = Body.number first ns := by
  induction ns generalizing first with
  | nil => rfl
  | cons n ns ih => rw [number_cons, List.map_cons, List.zip_cons_cons, ih]

theorem exchanged_size (a : Arena) (os₁ os₂ : List NodeId) (es : List Entry) (ns : List Node) :
    (a.exchanged os₁ os₂ es ns).slots.size = a.slots.size + ns.length :=
  (allocatedAll_size _ ns).trans (congrArg (· + ns.length) (releasedAll_size a es))

theorem Sound.order_of_pairs (h : a.Sound) (hp : a.pairs = es₁ ++ (removed ++ es₂)) :
    a.order = es₁.map Prod.fst ++ (removed.map Prod.fst ++ es₂.map Prod.fst) := by
  rw [← h.ids, hp, List.map_append, List.map_append]

theorem Sound.node?_removed (h : a.Sound) (hp : a.pairs = es₁ ++ (removed ++ es₂)) :
    ∀ e ∈ removed, a.node? e.1 = some e.2 := fun _ he =>
  h.mem_pairs.mp (hp ▸ List.mem_append_right _ (List.mem_append_left _ he))

theorem Sound.exchanged (h : a.Sound) (hp : a.pairs = es₁ ++ (removed ++ es₂))
    (hclash : clash? [] a ns = none) :
    (a.exchanged (es₁.map Prod.fst) (es₂.map Prod.fst) removed ns).Sound := by
  obtain ⟨hfree, hdistinct⟩ := h.free hclash
  have hout := (h.loose (es₁.map Prod.fst).length).releasedAll (h.order_of_pairs hp) (Nat.le_refl _)
    (h.node?_removed hp)
  have hin := hout.allocatedAll rfl (Nat.le_refl _)
    (fun n hn l hl => labelNodes_releasedAll (hfree n hn l hl)) hdistinct
  have hfresh : Arena.freshIds
      { a.releasedAll removed with order := es₁.map Prod.fst ++ es₂.map Prod.fst } ns =
        a.freshIds ns := freshIds_released a removed ns
  rw [allocatedAll_order, hfresh] at hin
  have hdone := hin.reindexed
  exact ⟨hdone.nodup, hdone.placed, hdone.live, hdone.labels, hdone.sizes⟩

/-- All nodes that are not taken out stay where they are. -/
theorem Sound.exchanged_pairs (h : a.Sound) (hp : a.pairs = es₁ ++ (removed ++ es₂)) :
    (a.exchanged (es₁.map Prod.fst) (es₂.map Prod.fst) removed ns).pairs =
      es₁ ++ (Body.number a.slots.size ns ++ es₂) := by
  have hnodup := h.nodup
  rw [h.order_of_pairs hp, List.nodup_append, List.nodup_append] at hnodup
  obtain ⟨-, ⟨-, -, hbehind⟩, hbefore⟩ := hnodup
  have hkept {e : Entry} (he : e ∈ a.pairs) (hout : e.1 ∉ removed.map Prod.fst) :
      ((a.releasedAll removed).allocatedAll ns).node? e.1 = some e.2 := by
    have hnode := h.mem_pairs.mp he
    have hlt : e.1.index < (a.releasedAll removed).slots.size := by
      rw [releasedAll_size]
      exact node?_lt (by rw [hnode]; rfl)
    rw [node?_allocatedAll_old hlt, node?_releasedAll hout, hnode]
  refine pairs_of ?_ fun e he => ?_
  · rw [List.map_append, List.map_append]
    rfl
  · change ((a.releasedAll removed).allocatedAll ns).node? e.1 = some e.2
    rcases List.mem_append.mp he with he | he
    · refine hkept (hp ▸ List.mem_append_left _ he) fun hout => ?_
      exact hbefore e.1 (List.mem_map_of_mem he) e.1 (List.mem_append_left _ hout) rfl
    · rcases List.mem_append.mp he with he | he
      · exact node?_allocatedAll_new ((releasedAll_size a removed).symm ▸ he)
      · refine hkept (hp ▸ List.mem_append_right _ (List.mem_append_right _ he)) fun hout => ?_
        exact hbehind e.1 hout e.1 (List.mem_map_of_mem he) rfl

theorem Sound.exchanged_body (h : a.Sound) (hp : a.pairs = es₁ ++ (removed ++ es₂))
    (ns : List Node) :
    (a.exchanged (es₁.map Prod.fst) (es₂.map Prod.fst) removed ns).body =
      a.body.place es₁.length removed.length ns := by
  have hentries : a.body.entries = (es₁ ++ (removed ++ es₂)).toArray := congrArg List.toArray hp
  have hfirst : a.body.entries.extract 0 es₁.length = es₁.toArray := by
    rw [hentries, List.extract_toArray, List.extract_eq_take_drop, List.drop_zero, Nat.sub_zero,
      List.take_left]
  have hlast : a.body.entries.extract (es₁.length + removed.length) a.body.entries.size =
      es₂.toArray := by
    rw [hentries, List.extract_toArray, List.extract_eq_take_drop, ← List.append_assoc,
      ← List.length_append, List.drop_left, List.size_toArray, List.length_append,
      Nat.add_sub_cancel_left, List.take_length]
  unfold Body.place
  rw [hfirst, hlast]
  unfold body
  rw [h.exchanged_pairs hp, exchanged_size, List.append_toArray, List.append_toArray,
    List.append_assoc]
  rfl

theorem extract_body (hp : a.pairs = es₁ ++ (removed ++ es₂)) :
    (a.body.entries.extract es₁.length (es₁.length + removed.length)).toList = removed := by
  unfold body
  rw [hp, List.extract_toArray, List.extract_eq_take_drop, List.drop_left, Nat.add_sub_cancel_left,
    List.take_left]

end Arena

end ClassGraft
