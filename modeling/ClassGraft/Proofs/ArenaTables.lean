import ClassGraft.Proofs.ArenaEntries

namespace ClassGraft

namespace Arena

variable {a : Arena} {p : Nat} {id : NodeId} {n : Node} {ns : List Node} {l : Label} {os₁ os₂ : List NodeId}

theorem number_cons (first : Nat) (n : Node) (ns : List Node) :
    Body.number first (n :: ns) = (⟨first⟩, n) :: Body.number (first + 1) ns := by
  unfold Body.number
  rw [List.mapIdx_cons]
  refine congrArg _ (congrArg (fun f => List.mapIdx f ns) ?_)
  funext i m
  exact Prod.ext (congrArg NodeId.mk (by omega)) rfl

/-- The ids that new nodes get. -/
def freshIds (a : Arena) (ns : List Node) : List NodeId := (Body.number a.slots.size ns).map Prod.fst

theorem freshIds_cons (a : Arena) (n : Node) (ns : List Node) :
    a.freshIds (n :: ns) = ⟨a.slots.size⟩ :: (a.allocated n).freshIds ns := by
  unfold freshIds
  rw [number_cons, List.map_cons, show (a.allocated n).slots.size = a.slots.size + 1 from
    Array.size_push ..]

/-- The arena with new nodes, which have no positions yet. -/
def allocatedAll (a : Arena) (ns : List Node) : Arena := ns.foldl allocated a

/-- The arena without some nodes. The order is left to do. -/
def releasedAll (a : Arena) (es : List Entry) : Arena := es.foldl (fun a e => a.released e.1 e.2) a

/-- Nothing but nodes, positions and labels is changed. -/
def Retains (a b : Arena) : Prop :=
  b = { a with slots := b.slots, positions := b.positions, labelNodes := b.labelNodes }

theorem allocatedAll_retains (a : Arena) (ns : List Node) : a.Retains (a.allocatedAll ns) := by
  induction ns generalizing a with
  | nil => rfl
  | cons n ns ih => exact ih (a.allocated n)

theorem releasedAll_retains (a : Arena) (es : List Entry) : a.Retains (a.releasedAll es) := by
  induction es generalizing a with
  | nil => rfl
  | cons e es ih => exact ih (a.released e.1 e.2)

theorem allocatedAll_order (a : Arena) (ns : List Node) (os : List NodeId) :
    allocatedAll { a with order := os } ns = { a.allocatedAll ns with order := os } := by
  induction ns generalizing a with
  | nil => rfl
  | cons n ns ih => exact ih (a.allocated n)

theorem releasedAll_order (a : Arena) (es : List Entry) (os : List NodeId) :
    releasedAll { a with order := os } es = { a.releasedAll es with order := os } := by
  induction es generalizing a with
  | nil => rfl
  | cons e es ih => exact ih (a.released e.1 e.2)

theorem allocatedAll_size (a : Arena) (ns : List Node) :
    (a.allocatedAll ns).slots.size = a.slots.size + ns.length := by
  induction ns generalizing a with
  | nil => rfl
  | cons n ns ih =>
    rw [show a.allocatedAll (n :: ns) = (a.allocated n).allocatedAll ns from rfl, ih,
      show (a.allocated n).slots.size = a.slots.size + 1 from Array.size_push .., List.length_cons]
    omega

theorem releasedAll_size (a : Arena) (es : List Entry) :
    (a.releasedAll es).slots.size = a.slots.size := by
  induction es generalizing a with
  | nil => rfl
  | cons e es ih => exact (ih _).trans Array.size_setIfInBounds

theorem node?_allocatedAll_old (h : id.index < a.slots.size) (ns : List Node) :
    (a.allocatedAll ns).node? id = a.node? id := by
  induction ns generalizing a with
  | nil => rfl
  | cons n ns ih =>
    have hlt : id.index < (a.allocated n).slots.size := by
      rw [show (a.allocated n).slots.size = a.slots.size + 1 from Array.size_push ..]
      omega
    refine (ih hlt).trans ((node?_allocated a n id).trans (if_neg ?_))
    rintro rfl
    exact Nat.lt_irrefl _ h

theorem node?_allocatedAll_new (h : (id, n) ∈ Body.number a.slots.size ns) :
    (a.allocatedAll ns).node? id = some n := by
  induction ns generalizing a with
  | nil => cases h
  | cons m ns ih =>
    have hsize : (a.allocated m).slots.size = a.slots.size + 1 := Array.size_push ..
    rw [number_cons] at h
    rcases List.mem_cons.mp h with h | h
    · cases h
      refine (node?_allocatedAll_old (by rw [hsize]; exact Nat.lt_succ_self _) ns).trans ?_
      exact (node?_allocated a n _).trans (if_pos rfl)
    · exact ih (hsize.symm ▸ h)

theorem node?_releasedAll {es : List Entry} (h : id ∉ es.map Prod.fst) :
    (a.releasedAll es).node? id = a.node? id := by
  induction es generalizing a with
  | nil => rfl
  | cons e es ih =>
    rw [List.map_cons, List.mem_cons, not_or] at h
    exact (ih h.2).trans ((node?_released a e.1 e.2 id).trans (if_neg h.1))

theorem Loose.allocatedAll (h : a.Loose p) (ho : a.order = os₁ ++ os₂) (hp : p ≤ os₁.length)
    (hfree : ∀ n ∈ ns, ∀ l, n.label? = some l → a.labelNodes[l]? = none)
    (hdistinct : (ns.filterMap Node.label?).Nodup) :
    Loose { a.allocatedAll ns with order := os₁ ++ (a.freshIds ns ++ os₂) } p := by
  induction ns generalizing a os₁ with
  | nil =>
    rw [show { a.allocatedAll [] with order := os₁ ++ (a.freshIds [] ++ os₂) } = a by
      rw [show a.freshIds [] = [] from rfl, List.nil_append, ← ho]; rfl]
    exact h
  | cons n ns ih =>
    obtain ⟨hn, hns⟩ := List.forall_mem_cons.mp hfree
    have hone := h.allocated ho hp hn
    have hsplit : os₁ ++ ⟨a.slots.size⟩ :: os₂ = (os₁ ++ [⟨a.slots.size⟩]) ++ os₂ := by simp
    have hlater : ∀ m ∈ ns, ∀ l, m.label? = some l → (a.allocated n).labelNodes[l]? = none := by
      intro m hm l hl
      rw [labelNodes_allocated, if_neg fun hnl => ?_, hns m hm l hl]
      rw [List.filterMap_cons_some hnl, List.nodup_cons] at hdistinct
      exact hdistinct.1 (List.mem_filterMap.mpr ⟨m, hm, hl⟩)
    have hrest : (ns.filterMap Node.label?).Nodup :=
      hdistinct.sublist (List.Sublist.filterMap _ (List.sublist_cons_self n ns))
    have hall := ih hone hsplit (by rw [List.length_append]; omega) hlater hrest
    rw [allocatedAll_order] at hall
    rw [freshIds_cons, show os₁ ++ (⟨a.slots.size⟩ :: (a.allocated n).freshIds ns ++ os₂) =
      os₁ ++ [⟨a.slots.size⟩] ++ ((a.allocated n).freshIds ns ++ os₂) by simp]
    exact hall

theorem Loose.releasedAll {es : List Entry} (h : a.Loose p)
    (ho : a.order = os₁ ++ (es.map Prod.fst ++ os₂)) (hp : p ≤ os₁.length)
    (hnodes : ∀ e ∈ es, a.node? e.1 = some e.2) :
    Loose { a.releasedAll es with order := os₁ ++ os₂ } p := by
  induction es generalizing a with
  | nil =>
    rw [show { a.releasedAll [] with order := os₁ ++ os₂ } = a by
      rw [show os₁ ++ os₂ = a.order from ho.symm]; rfl]
    exact h
  | cons e es ih =>
    obtain ⟨he, hes⟩ := List.forall_mem_cons.mp hnodes
    have hnodup := h.nodup
    rw [ho, List.map_cons, List.cons_append, List.nodup_middle, List.nodup_cons, List.mem_append,
      List.mem_append] at hnodup
    have hone := h.released ho hp he
    have hall := ih hone rfl fun x hx => ?_
    · rw [releasedAll_order] at hall
      exact hall
    · refine (node?_released a e.1 e.2 x.1).trans ((if_neg fun hxe => ?_).trans (hes x hx))
      exact hnodup.1 (.inr (.inl (hxe ▸ List.mem_map_of_mem hx)))

theorem run_modify (f : Arena → Arena) (a : Arena) :
    (modify f : ArenaM Unit) a = (.ok (), f a) := rfl

theorem run_get (a : Arena) : (get : ArenaM Arena) a = (.ok a, a) := rfl

theorem run_pure {α : Type} (x : α) (a : Arena) : (pure x : ArenaM α) a = (.ok x, a) := rfl

theorem run_allocate (n : Node) (a : Arena) :
    (allocate n : ArenaM NodeId) a = (.ok ⟨a.slots.size⟩, a.allocated n) := rfl

theorem run_position (id : NodeId) (a : Arena) : (position id : ArenaM Nat) a =
    match a.position? id with
    | some p => (.ok p, a)
    | none => (.error (.missingNode id), a) := by
  unfold position
  rw [run_bind, run_get]
  cases h : a.position? id <;> simp only [h] <;> rfl

theorem run_node (id : NodeId) (a : Arena) : (node id : ArenaM Node) a =
    match a.node? id with
    | some n => (.ok n, a)
    | none => (.error (.missingNode id), a) := by
  unfold node
  rw [run_bind, run_get]
  cases h : a.node? id <;> simp only [h] <;> rfl

theorem run_checkLabels (ns : List Node) (a : Arena) : (checkLabels ns : ArenaM Unit) a =
    match clash? [] a ns with
    | some l => (.error (.duplicateLabel l), a)
    | none => (.ok (), a) := by
  unfold checkLabels
  rw [run_bind, run_get]
  cases h : clash? [] a ns <;> simp only [h] <;> rfl

theorem run_allocate_all (ns : List Node) (a : Arena) :
    (ns.mapM allocate : ArenaM (List NodeId)) a = (.ok (a.freshIds ns), a.allocatedAll ns) := by
  induction ns generalizing a with
  | nil => rfl
  | cons n ns ih =>
    rw [List.mapM_cons, run_bind, run_allocate]
    dsimp only
    rw [run_bind, ih, freshIds_cons]
    rfl

theorem run_release (h : a.node? id = some n) :
    (release id : ArenaM Node) a = (.ok n, a.released id n) := by
  unfold release
  rw [run_bind, run_node, h]
  rfl

theorem run_release_all {es : List Entry} (hnodes : ∀ e ∈ es, a.node? e.1 = some e.2)
    (hnodup : (es.map Prod.fst).Nodup) : ((es.map Prod.fst).mapM release : ArenaM (List Node)) a =
      (.ok (es.map Prod.snd), a.releasedAll es) := by
  induction es generalizing a with
  | nil => rfl
  | cons e es ih =>
    obtain ⟨he, hes⟩ := List.forall_mem_cons.mp hnodes
    obtain ⟨hout, hnodup⟩ := List.nodup_cons.mp hnodup
    have hlater : ∀ x ∈ es, (a.released e.1 e.2).node? x.1 = some x.2 := fun x hx => by
      have hne : x.1 ≠ e.1 := fun hxe => hout (hxe ▸ List.mem_map_of_mem hx)
      rw [node?_released, if_neg hne, hes x hx]
    rw [List.map_cons, List.mapM_cons, run_bind, run_release he]
    dsimp only
    rw [run_bind, ih hlater hnodup]
    rfl

theorem Retains.trans {b c : Arena} (h : a.Retains b) (hc : b.Retains c) : a.Retains c := by
  unfold Retains at *
  rw [h] at hc
  exact hc

/-- What an arena becomes when nodes are taken out and others are put in their place. -/
def exchanged (a : Arena) (os₁ os₂ : List NodeId) (removed : List Entry) (ns : List Node) : Arena :=
  let b := Arena.reindexed { (a.releasedAll removed).allocatedAll ns with
    order := os₁ ++ (a.freshIds ns ++ os₂) } os₁.length
  { a with
    slots := b.slots
    order := b.order
    positions := b.positions
    labelNodes := b.labelNodes
    version := a.version + 1 }

variable {removed : List Entry}

theorem freshIds_released (a : Arena) (es : List Entry) (ns : List Node) :
    (a.releasedAll es).freshIds ns = a.freshIds ns := by
  unfold freshIds
  rw [releasedAll_size]

theorem run_splice (ho : a.order = os₁ ++ (removed.map Prod.fst ++ os₂)) (hnodup : a.order.Nodup)
    (hnodes : ∀ e ∈ removed, a.node? e.1 = some e.2) (anchor : Option NodeId) (ns : List Node) :
    splice os₁.length anchor ns (removed.map Prod.fst) a =
      match clash? [] a ns with
      | some l => (.error (.duplicateLabel l), a)
      | none => (.ok (a.freshIds ns), { a.exchanged os₁ os₂ removed ns with
          edits := a.edits.push ⟨anchor, a.freshIds ns, removed.map Prod.fst, Node.totalEffect ns,
            Node.totalEffect (removed.map Prod.snd)⟩ }) := by
  have hids : (removed.map Prod.fst).Nodup := by
    rw [ho] at hnodup
    exact (hnodup.sublist (List.sublist_append_right _ _)).sublist (List.sublist_append_left _ _)
  have hkept : (a.releasedAll removed).order = os₁ ++ (removed.map Prod.fst ++ os₂) :=
    (congrArg Arena.order (releasedAll_retains a removed)).trans ho
  have hdrop : (os₁ ++ (removed.map Prod.fst ++ os₂)).drop
      (os₁.length + (removed.map Prod.fst).length) = os₂ := by
    rw [← List.append_assoc, ← List.length_append, List.drop_left]
  have hretains : a.Retains ((a.releasedAll removed).allocatedAll ns) :=
    (releasedAll_retains a removed).trans (allocatedAll_retains _ ns)
  have hfresh : Arena.freshIds { a.releasedAll removed with order := os₁ ++ os₂ } ns = a.freshIds ns :=
    freshIds_released a removed ns
  unfold splice
  rw [run_bind, run_checkLabels]
  cases clash? [] a ns with
  | some l => rfl
  | none =>
    simp only [run_bind, run_release_all hnodes hids, run_modify, hkept, List.take_left, hdrop,
      run_allocate_all, allocatedAll_order, run_pure]
    rw [hfresh, List.drop_left, List.append_assoc]
    unfold exchanged
    rw [hretains]
    rfl

theorem run_insertUnrecorded (ho : a.order = os₁ ++ os₂) (n : Node) :
    insertUnrecorded os₁.length n a =
      match clash? [] a [n] with
      | some l => (.error (.duplicateLabel l), a)
      | none => (.ok ⟨a.slots.size⟩, a.exchanged os₁ os₂ [] [n]) := by
  unfold insertUnrecorded
  simp only [run_bind, run_checkLabels, run_allocate, run_modify, run_pure]
  cases clash? [] a [n] with
  | some l => rfl
  | none =>
    dsimp only
    rw [show (a.allocated n).order = os₁ ++ os₂ from ho, List.take_left, List.drop_left]
    rfl

/-- Behind the last node no position changes but that of the new one. -/
theorem run_push (n : Node) (a : Arena) : push n a = insertUnrecorded a.order.length n a := by
  unfold push insertUnrecorded
  simp only [run_bind, run_checkLabels, run_allocate, run_modify, run_pure]
  cases clash? [] a [n] with
  | some l => rfl
  | none =>
    dsimp only
    rw [show (a.allocated n).order = a.order from rfl, List.take_length, List.drop_length]
    unfold reindexed
    dsimp only
    rw [List.drop_left]
    rfl

end Arena

end ClassGraft
