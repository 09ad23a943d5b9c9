import ClassGraft.Proofs.ArenaBodies

namespace ClassGraft

namespace Arena

variable {a a' : Arena} {p : Nat} {id : NodeId} {n : Node} {ns : List Node} {l : Label}
variable {es₁ es₂ removed : List Entry} {anchor : Option NodeId}

/-- Nodes that lie in a row are exchanged for new ones under ids that are not used. All other nodes
stay in their places. -/
structure Exchanges (used : NodeId → Prop) (a a' : Arena) (position : Nat) (removed : List Entry)
    (ns : List Node) (ids : List NodeId) : Prop where
  pairs : ∃ before after, before.length = position ∧ a.pairs = before ++ (removed ++ after) ∧
    a'.pairs = before ++ (ids.zip ns ++ after)
  count : ids.length = ns.length
  fresh : ∀ id ∈ ids, ¬ used id
  version : a'.version = a.version + 1
  rest : a'.nextLabel = a.nextLabel ∧ a'.tryBlocks = a.tryBlocks ∧ a'.locals = a.locals

/-- Nodes are exchanged, and one edit says so. -/
structure Records (used : NodeId → Prop) (a a' : Arena) (position : Nat) (anchor : Option NodeId)
    (removed : List Entry) (ns : List Node) (ids : List NodeId) : Prop
    extends Exchanges used a a' position removed ns ids where
  edits : a'.edits = a.edits.push ⟨anchor, ids, removed.map Prod.fst, Node.totalEffect ns,
    Node.totalEffect (removed.map Prod.snd)⟩

/-- A node is changed under its id, and one edit says so. -/
structure Updates (a a' : Arena) (id : NodeId) (old new : Node) : Prop where
  pairs : ∃ before after, a.pairs = before ++ (id, old) :: after ∧
    a'.pairs = before ++ (id, new) :: after
  version : a'.version = a.version + 1
  edits : a'.edits = a.edits.push ⟨some id, [id], [], new.effect, old.effect⟩
  rest : a'.nextLabel = a.nextLabel ∧ a'.tryBlocks = a.tryBlocks ∧ a'.locals = a.locals

/-- What a change that succeeds does, and what it gives back. -/
inductive Carried (used : NodeId → Prop) (a a' : Arena) : BodyChange → ChangeResult → Prop
  | push {n : Node} {id : NodeId} : Exchanges used a a' a.order.length [] [n] [id] →
      a'.edits = a.edits → Carried used a a' (.push n) (.id id)
  | newLabel : a' = { a with nextLabel := a.nextLabel + 1 } →
      Carried used a a' .newLabel (.label ⟨a.nextLabel⟩)
  | insertBefore {anchor : NodeId} {p : Nat} {ns : List Node} {ids : List NodeId} :
      a.order[p]? = some anchor → Records used a a' p (some anchor) [] ns ids →
      Carried used a a' (.insertBefore anchor ns) (.ids ids)
  | insertAfter {anchor : NodeId} {p : Nat} {ns : List Node} {ids : List NodeId} :
      a.order[p]? = some anchor → Records used a a' (p + 1) (some anchor) [] ns ids →
      Carried used a a' (.insertAfter anchor ns) (.ids ids)
  | insertAtStart {ns : List Node} {ids : List NodeId} : Records used a a' 0 none [] ns ids →
      Carried used a a' (.insertAtStart ns) (.ids ids)
  | replace {id : NodeId} {p : Nat} {old : Node} {ns : List Node} {ids : List NodeId} :
      Records used a a' p (some id) [(id, old)] ns ids →
      Carried used a a' (.replace id ns) (.ids ids)
  | remove {id : NodeId} {p : Nat} {old : Node} : Records used a a' p (some id) [(id, old)] [] [] →
      Carried used a a' (.remove id) (.node old)
  | replaceOperand {id : NodeId} {o : Operand} {old new : Node} : old.withOperand? o = some new →
      Updates a a' id old new → Carried used a a' (.replaceOperand id o) .done
  | insertUnrecorded {p : Nat} {n : Node} {id : NodeId} : Exchanges used a a' p [] [n] [id] →
      a'.edits = a.edits → Carried used a a' (.insertUnrecorded p n) (.id id)

/-- A label would be placed twice. -/
inductive Repeats (a : Arena) (ns : List Node) : ClassError → Prop
  | intro {l : Label} {before after : List Node} : ns = before ++ .label l :: after →
      (.label l ∈ before ∨ ∃ id, (id, .label l) ∈ a.pairs) → Repeats a ns (.duplicateLabel l)

/-- Why a change fails. -/
inductive Refused (a : Arena) : BodyChange → ClassError → Prop
  | missing {c : BodyChange} {id : NodeId} : c.node? = some id → id ∉ a.order →
      Refused a c (.missingNode id)
  | repeated {c : BodyChange} {ns : List Node} {e : ClassError} : c.nodes = ns → a.Repeats ns e →
      Refused a c e
  | mismatch {id : NodeId} {o : Operand} {old : Node} : (id, old) ∈ a.pairs →
      old.withOperand? o = none → Refused a (.replaceOperand id o) (.operandMismatch id)

/-- A node without a record comes at a position of the order, or right behind its end. -/
def Admits (a : Arena) : BodyChange → Prop
  | .insertUnrecorded p _ => p ≤ a.order.length
  | _ => True

/-- A computation on an arena does what one on the body does that is held. One that fails changes
nothing. -/
inductive Matches {α : Type} (a : Arena) (Fails : ClassError → Prop) (Does : α → Arena → Prop) :
    Except ClassError α × Arena → Except ClassError (α × Body) → Prop
  | fails {e : ClassError} : Fails e → Matches a Fails Does (.error e, a) (.error e)
  | does {x : α} {a' : Arena} : a'.Sound → a.slots.size ≤ a'.slots.size → Does x a' →
      Matches a Fails Does (.ok x, a') (.ok (x, a'.body))

variable {α β : Type} {Fails Fails₂ : ClassError → Prop} {Does Does₂ : α → Arena → Prop}
  {Does' : β → Arena → Prop} {x : Except ClassError α × Arena} {y : Except ClassError (α × Body)}

theorem Matches.imp (h : a.Matches Fails Does x y) (hf : ∀ e, Fails e → Fails₂ e)
    (hd : ∀ v a', Does v a' → Does₂ v a') : a.Matches Fails₂ Does₂ x y := by
  cases h with
  | fails hfails => exact .fails (hf _ hfails)
  | does hsound hsize hdoes => exact .does hsound hsize (hd _ _ hdoes)

theorem Matches.map {x : ArenaM α} (h : a.Matches Fails Does (x a) y) {f : α → β}
    (hf : ∀ v a', Does v a' → Does' (f v) a') :
    a.Matches Fails Does' ((x >>= fun v => pure (f v)) a) (y.map fun (v, b) => (f v, b)) := by
  rw [run_bind]
  generalize x a = r at h
  cases h with
  | fails hfails => exact .fails hfails
  | does hsound hsize hdoes => exact .does hsound hsize (hf _ _ hdoes)

theorem Sound.at_position (h : a.Sound) (hmissing : id ∉ a.order → Fails (.missingNode id))
    {f : Nat → ArenaM α} {g : Nat → Except ClassError (α × Body)}
    (hfg : ∀ p, a.order[p]? = some id → a.Matches Fails Does (f p a) (g p)) :
    a.Matches Fails Does ((position id >>= f) a) (a.body.position id >>= g) := by
  rw [run_bind, run_position, h.body_position]
  cases hp : a.position? id with
  | none => exact .fails (hmissing (h.missing hp))
  | some p => exact hfg p ((h.placed id p).mp hp)

theorem Sound.at_node (h : a.Sound) (hmissing : id ∉ a.order → Fails (.missingNode id))
    {f : Node → ArenaM α} {g : Node → Except ClassError (α × Body)}
    (hfg : ∀ n, a.node? id = some n → a.Matches Fails Does (f n a) (g n)) :
    a.Matches Fails Does ((node id >>= f) a) (a.body.node id >>= g) := by
  rw [run_bind, run_node, h.body_node]
  cases hn : a.node? id with
  | none =>
    refine .fails (hmissing fun hid => ?_)
    rw [h.mem_order, hn] at hid
    cases hid
  | some n => exact hfg n hn

theorem Sound.repeats_of_clash? (h : a.Sound) (hclash : clash? [] a ns = some l) :
    a.Repeats ns (.duplicateLabel l) := by
  have hall {placing : List Label} (hc : clash? placing a ns = some l) :
      ∃ before after, ns = before ++ .label l :: after ∧
        (l ∈ placing ∨ .label l ∈ before ∨ ∃ id, (id, .label l) ∈ a.pairs) := by
    clear hclash
    induction ns generalizing placing with
    | nil => cases hc
    | cons n ns ih =>
      unfold clash? at hc
      cases hn : n.label? with
      | none =>
        rw [hn] at hc
        obtain ⟨before, after, rfl, hwhere⟩ := ih hc
        exact ⟨n :: before, after, rfl, hwhere.imp_right (Or.imp_left (List.mem_cons_of_mem n))⟩
      | some k =>
        simp only [hn] at hc
        split at hc
        next hin =>
          cases hc
          cases label_of_label? hn
          refine ⟨[], ns, rfl, ?_⟩
          rw [Bool.or_eq_true, decide_eq_true_eq, h.contains_iff] at hin
          exact hin.imp_right .inr
        next =>
          obtain ⟨before, after, rfl, hwhere⟩ := ih hc
          refine ⟨n :: before, after, rfl, ?_⟩
          rcases hwhere with hplacing | hin | hpairs
          · rcases List.mem_cons.mp hplacing with rfl | hplacing
            · exact .inr (.inl (label_of_label? hn ▸ List.mem_cons_self))
            · exact .inl hplacing
          · exact .inr (.inl (List.mem_cons_of_mem n hin))
          · exact .inr (.inr hpairs)
  obtain ⟨before, after, hns, hwhere⟩ := hall hclash
  exact .intro hns (hwhere.resolve_left List.not_mem_nil)

section Steps

variable {used : NodeId → Prop}

theorem freshIds_unused (hused : ∀ id, used id → id.index < a.slots.size) :
    ∀ id ∈ a.freshIds ns, ¬ used id := by
  intro id hid hin
  obtain ⟨e, he, rfl⟩ := List.mem_map.mp hid
  have hlt := hused e.1 hin
  obtain ⟨i, hi, rfl⟩ := List.mem_mapIdx.mp he
  exact Nat.not_lt.mpr (Nat.le_add_right _ i) hlt

theorem Sound.exchanges (h : a.Sound) (hused : ∀ id, used id → id.index < a.slots.size)
    (hp : a.pairs = es₁ ++ (removed ++ es₂)) (ns : List Node) :
    Exchanges used a (a.exchanged (es₁.map Prod.fst) (es₂.map Prod.fst) removed ns) es₁.length removed
      ns (a.freshIds ns) where
  pairs := by
    refine ⟨es₁, es₂, rfl, hp, (h.exchanged_pairs hp).trans ?_⟩
    rw [freshIds, number_ids_nodes]
  count := by rw [freshIds, List.length_map, Body.number, List.length_mapIdx]
  fresh := freshIds_unused hused
  version := rfl
  rest := ⟨rfl, rfl, rfl⟩

/-- The one computation that most changes are. -/
theorem Sound.spliced (h : a.Sound) (hused : ∀ id, used id → id.index < a.slots.size)
    (hp : a.pairs = es₁ ++ (removed ++ es₂)) (anchor : Option NodeId) (ns : List Node) :
    a.Matches (a.Repeats ns) (fun ids a' => Records used a a' es₁.length anchor removed ns ids)
      (splice es₁.length anchor ns (removed.map Prod.fst) a)
      (a.body.splice es₁.length removed.length anchor ns) := by
  have hrun := run_splice (h.order_of_pairs hp) h.nodup (h.node?_removed hp) anchor ns
  rw [List.length_map] at hrun
  unfold Body.splice Body.checkFresh
  rw [hrun, h.body_clash?]
  cases hclash : clash? [] a ns with
  | some l => exact .fails (h.repeats_of_clash? hclash)
  | none =>
    have hsound := h.exchanged hp hclash
    have hdone := h.exchanges hused hp ns
    have hsize := exchanged_size a (es₁.map Prod.fst) (es₂.map Prod.fst) removed ns
    rw [extract_body hp]
    dsimp only [bind, Except.bind, pure, Except.pure]
    rw [← h.exchanged_body hp]
    exact .does ⟨hsound.nodup, hsound.placed, hsound.live, hsound.labels, hsound.sizes⟩
      (hsize ▸ Nat.le_add_right _ _)
      ⟨⟨hdone.pairs, hdone.count, hdone.fresh, hdone.version, hdone.rest⟩, rfl⟩

theorem Sound.split_between (h : a.Sound) (hp : p ≤ a.order.length) :
    (a.pairs.take p).length = p ∧ a.pairs = a.pairs.take p ++ ([] ++ a.pairs.drop p) := by
  rw [← h.ids, List.length_map] at hp
  exact ⟨List.length_take_of_le hp, (List.take_append_drop p a.pairs).symm⟩

theorem Sound.inserted (h : a.Sound) (hused : ∀ id, used id → id.index < a.slots.size)
    (hp : p ≤ a.order.length) (anchor : Option NodeId) (ns : List Node) :
    a.Matches (a.Repeats ns) (fun ids a' => Records used a a' p anchor [] ns ids)
      (splice p anchor ns [] a) (a.body.splice p 0 anchor ns) := by
  obtain ⟨hlength, hsplit⟩ := h.split_between hp
  have hdone := h.spliced hused hsplit anchor ns
  rwa [hlength] at hdone

theorem Sound.split_around (h : a.Sound) (hp : a.order[p]? = some id) :
    ∃ old, a.node? id = some old ∧ (a.pairs.take p).length = p ∧
      a.pairs = a.pairs.take p ++ ([(id, old)] ++ a.pairs.drop (p + 1)) := by
  rw [← h.ids, List.getElem?_map] at hp
  obtain ⟨⟨j, old⟩, he, hid : j = id⟩ := Option.map_eq_some_iff.mp hp
  subst j
  obtain ⟨hlt, hget⟩ := List.getElem?_eq_some_iff.mp he
  refine ⟨old, h.mem_pairs.mp (List.mem_of_getElem? he), ?_, ?_⟩
  · rw [List.length_take, Nat.min_eq_left (Nat.le_of_lt hlt)]
  · rw [← hget, List.singleton_append, List.cons_getElem_drop_succ, List.take_append_drop]

theorem Sound.replaced (h : a.Sound) (hused : ∀ id, used id → id.index < a.slots.size)
    (hp : a.order[p]? = some id) (ns : List Node) :
    ∃ old, a.node? id = some old ∧
      a.Matches (a.Repeats ns) (fun ids a' => Records used a a' p (some id) [(id, old)] ns ids)
        (splice p (some id) ns [id] a) (a.body.splice p 1 (some id) ns) := by
  obtain ⟨old, hold, hlength, hsplit⟩ := h.split_around hp
  have hdone := h.spliced hused hsplit (some id) ns
  rw [hlength] at hdone
  exact ⟨old, hold, hdone⟩

theorem Sound.unrecorded (h : a.Sound) (hused : ∀ id, used id → id.index < a.slots.size)
    (hp : p ≤ a.order.length) (n : Node) :
    a.Matches (a.Repeats [n]) (fun id a' => Exchanges used a a' p [] [n] [id] ∧ a'.edits = a.edits)
      (insertUnrecorded p n a) (a.body.insertUnrecorded p n) := by
  obtain ⟨hlength, hsplit⟩ := h.split_between hp
  have hrun := run_insertUnrecorded (h.order_of_pairs hsplit) n
  have hbody := h.exchanged_body hsplit [n]
  have hdone := h.exchanges hused hsplit [n]
  rw [List.length_map, hlength] at hrun
  rw [hlength] at hbody hdone
  unfold Body.insertUnrecorded Body.checkFresh
  rw [hrun, h.body_clash?]
  cases hclash : clash? [] a [n] with
  | some l => exact .fails (h.repeats_of_clash? hclash)
  | none =>
    dsimp only [bind, Except.bind, pure, Except.pure]
    rw [← show _ = a.body.place p 0 [n] from hbody]
    exact .does (h.exchanged hsplit hclash) ((exchanged_size ..).symm ▸ Nat.le_add_right _ _)
      ⟨hdone, rfl⟩

/-- A node that is pushed comes behind all others. -/
theorem body_push (b : Body) (n : Node) : b.push n = b.insertUnrecorded b.size n := by
  have hentries : b.entries.push (⟨b.nextId⟩, n) = b.entries.extract 0 b.size ++
      (Body.number b.nextId [n]).toArray ++ b.entries.extract b.size b.entries.size := by
    rw [Body.size, Array.extract_size, Array.extract_empty_of_start_eq_stop]
    rfl
  unfold Body.push Body.insertUnrecorded Body.place
  rw [hentries]
  rfl

end Steps

end Arena

end ClassGraft
