import ClassGraft.Proofs.NodeInsertion
import ClassGraft.Proofs.TypeOrigins

namespace ClassGraft

/-- A change of a body that removes no node. -/
inductive BodyEdit where
  | newLabel
  | before (anchor : NodeId) (ns : List Node)
  | after (anchor : NodeId) (ns : List Node)
  | atStart (ns : List Node)
  | operand (id : NodeId) (o : Operand)

namespace Body

def edit (b : Body) : BodyEdit → Except ClassError Body
  | .newLabel => .ok b.newLabel.2
  | .before anchor ns => (b.insertBefore anchor ns).map Prod.snd
  | .after anchor ns => (b.insertAfter anchor ns).map Prod.snd
  | .atStart ns => (b.insertAtStart ns).map Prod.snd
  | .operand id o => b.replaceOperand id o

def editAll (b : Body) (es : List BodyEdit) : Except ClassError Body := es.foldlM edit b

/-- Where an edit inserts, and what. -/
def insertion? (b : Body) : BodyEdit → Option (Nat × List Node)
  | .before anchor ns => (b.position? anchor).map fun p => (p, ns)
  | .after anchor ns => (b.position? anchor).map fun p => (p + 1, ns)
  | .atStart ns => some (0, ns)
  | _ => none

/-- Does the label of a site designate a `new` of its class? -/
def Ties (b : Body) (u : NewSite) : Prop :=
  ∃ p, b.labelTarget u.label = .ok (some p) ∧ b.get? p = some (.insn (.new u.type))

/-- Does a frame of the body refer to a site? -/
def Uses (b : Body) (u : NewSite) : Prop :=
  ∃ f, Node.frame f ∈ b.nodes ∧ SlotType.uninitialized u ∈ f.locals ++ f.stack

/-- All frames are tied to the `new` instructions that they refer to. -/
def Tied (b : Body) : Prop := ∀ u, b.Uses u → b.Ties u

/-- Frames use no labels but those that the body has made. -/
def Owned (b : Body) : Prop := ∀ u, b.Uses u → u.label.index < b.nextLabel

/-- No label is placed twice. -/
def LabelsOnce (b : Body) : Prop := b.placedLabels.Nodup

/-- The edit puts another instruction between the label of a site and its `new`, or gives the `new`
another class. -/
inductive Parts (b : Body) (u : NewSite) : BodyEdit → Prop
  | between {e : BodyEdit} {p q r : Nat} {ns : List Node} {n : Node} :
      b.insertion? e = some (p, ns) → b.labelPosition? u.label = some q →
      b.labelTarget u.label = .ok (some r) → q < p → p ≤ r →
      ns.find? (fun n => !n.isPseudo) = some n → n ≠ .insn (.new u.type) → Parts b u e
  | retyped {id : NodeId} {r : Nat} {c : BinaryName} :
      b.labelTarget u.label = .ok (some r) → b.position? id = some r → c ≠ u.type →
      Parts b u (.operand id (.type (.object c)))

/-- In turn, no edit parts a site that frames use from its `new`, and no frame comes in that uses a
site which is not tied. -/
def Spares : Body → List BodyEdit → Prop
  | _, [] => True
  | b, e :: es => (∀ u, b.Uses u → ¬ b.Parts u e) ∧
      ∀ b', b.edit e = .ok b' → (∀ u, b'.Uses u → b.Uses u ∨ b'.Ties u) ∧ b'.Spares es

variable {b b' : Body} {p q r : Nat} {ns : List Node} {n old : Node} {l : Label} {u : NewSite}
  {e : BodyEdit} {id : NodeId}

instance (b : Body) : DecidablePred b.Ties := fun u =>
  decidable_of_iff ((b.labelTarget u.label).toOption.join.bind b.get? = some (.insn (.new u.type))) <| by
    unfold Ties
    cases b.labelTarget u.label with
    | error e => simp [Except.toOption]
    | ok r => cases r <;> simp [Except.toOption]

theorem tied_iff : b.Tied ↔ ∀ f, Node.frame f ∈ b.nodes → f.Sited b.Ties := by
  constructor
  · exact fun h f hf => Frame.sited_iff.mpr fun u hu => h u ⟨f, hf, hu⟩
  · rintro h u ⟨f, hf, hu⟩
    exact Frame.sited_iff.mp (h f hf) u hu

instance (b : Body) : Decidable b.Tied :=
  decidable_of_iff (∀ f ∈ b.nodes.filterMap Node.frame?, f.Sited b.Ties) <| by
    rw [tied_iff]
    refine forall_congr' fun f => ?_
    rw [List.mem_filterMap]
    constructor
    · exact fun h hf => h ⟨_, hf, rfl⟩
    · rintro h ⟨n, hn, hf⟩
      cases n with
      | frame g => cases hf; exact h hn
      | _ => cases hf

/-- Nodes have been inserted at a position. -/
structure Inserts (b b' : Body) (p : Nat) (ns : List Node) : Prop where
  le : p ≤ b.nodes.length
  nodes : b'.nodes = b.nodes.take p ++ ns ++ b.nodes.drop p
  fresh : ∀ n ∈ ns, ∀ l, n.label? = some l → b.isPlaced l = false
  distinct : (ns.filterMap Node.label?).Nodup
  nextLabel : b'.nextLabel = b.nextLabel

/-- An instruction has been put in the place of another one. -/
structure Swaps (b b' : Body) (p : Nat) (old new : Node) : Prop where
  here : b.get? p = some old
  reals : old.isPseudo = false ∧ new.isPseudo = false
  nodes : b'.nodes = b.nodes.set p new
  nextLabel : b'.nextLabel = b.nextLabel

theorem clash?_none {placed : List Label} (h : clash? placed b ns = none) :
    (∀ n ∈ ns, ∀ l, n.label? = some l → l ∉ placed ∧ b.isPlaced l = false) ∧
      (ns.filterMap Node.label?).Nodup := by
  induction ns generalizing placed with
  | nil => exact ⟨fun n hn => absurd hn List.not_mem_nil, .nil⟩
  | cons n ns ih =>
    unfold clash? at h
    cases hl : n.label? with
    | none =>
      rw [hl] at h
      obtain ⟨hall, hnodup⟩ := ih h
      refine ⟨List.forall_mem_cons.mpr ⟨fun l hnl => ?_, hall⟩, ?_⟩
      · rw [hl] at hnl
        cases hnl
      · rwa [List.filterMap_cons_none hl]
    | some l =>
      simp only [hl] at h
      split at h
      next => cases h
      next hfree =>
        obtain ⟨hall, hnodup⟩ := ih h
        simp only [Bool.or_eq_true, decide_eq_true_eq, not_or, Bool.not_eq_true] at hfree
        refine ⟨List.forall_mem_cons.mpr ⟨fun m hm => ?_, fun m hm k hk => ?_⟩, ?_⟩
        · cases Option.some.inj (hl.symm.trans hm)
          exact hfree
        · obtain ⟨hnot, hplaced⟩ := hall m hm k hk
          exact ⟨fun hin => hnot (List.mem_cons_of_mem _ hin), hplaced⟩
        · rw [List.filterMap_cons_some hl, List.nodup_cons]
          refine ⟨fun hin => ?_, hnodup⟩
          obtain ⟨m, hm, hml⟩ := List.mem_filterMap.mp hin
          exact (hall m hm l hml).1 List.mem_cons_self

theorem nodes_length (b : Body) : b.nodes.length = b.size := by
  simp [nodes, size]

theorem place_nodes (b : Body) (p : Nat) (ns : List Node) :
    (b.place p 0 ns).nodes = b.nodes.take p ++ ns ++ b.nodes.drop p := by
  rw [nodes, place_entries, List.map_append, List.map_append, number_nodes, List.map_take,
    List.map_drop]
  rfl

theorem splice_inserts {anchor : Option NodeId} {ids : List NodeId} (hp : p ≤ b.size)
    (h : b.splice p 0 anchor ns = .ok (ids, b')) : b.Inserts b' p ns := by
  obtain ⟨_, hc, h⟩ := except_bind_ok.mp h
  cases h
  unfold checkFresh at hc
  split at hc
  next hnone =>
    obtain ⟨hfresh, hdistinct⟩ := clash?_none hnone
    exact ⟨by rwa [nodes_length], place_nodes b p ns, fun n hn l hl => (hfresh n hn l hl).2,
      hdistinct, rfl⟩
  next => cases hc

theorem label?_real (h : n.isPseudo = false) : n.label? = none := by
  cases n with
  | label l => cases h
  | _ => rfl

theorem withOperand?_real {new : Node} {o : Operand} (h : old.withOperand? o = some new) :
    old.isPseudo = false ∧ new.isPseudo = false := by
  unfold Node.withOperand? at h
  split at h
  · split at h
    · cases h
      exact ⟨rfl, rfl⟩
    · cases h
  · obtain ⟨i, -, rfl⟩ := Option.map_eq_some_iff.mp h
    exact ⟨rfl, rfl⟩
  · cases h

theorem node_ok (h : b.node id = .ok n) (hp : b.position? id = some p) : b.get? p = some n := by
  unfold node at h
  split at h
  next e he =>
    cases h
    unfold position? at hp
    rw [← Array.find?_toList, List.find?_eq_bind_findIdx?_getElem?, ← List.findIdx?_toArray,
      Array.toArray_toList, hp, Option.bind_some, Array.getElem?_toList] at he
    rw [get?, he]
    rfl
  next => cases h

theorem replaceOperand_ok {o : Operand} (h : b.replaceOperand id o = .ok b') :
    ∃ p old new, b.position? id = some p ∧ old.withOperand? o = some new ∧
      b.Swaps b' p old new := by
  obtain ⟨p, hp, h⟩ := except_bind_ok.mp h
  obtain ⟨old, hold, h⟩ := except_bind_ok.mp h
  have hp := position_ok.mp hp
  split at h
  next => cases h
  next new hnew =>
    cases h
    refine ⟨p, old, new, hp, hnew, node_ok hold hp, withOperand?_real hnew, ?_, rfl⟩
    simp [nodes, List.map_set]

/-- Every edit inserts, changes one operand, or makes a label. -/
theorem edit_cases (h : b.edit e = .ok b') :
    (∃ p ns, b.insertion? e = some (p, ns) ∧ b.Inserts b' p ns) ∨
      (∃ id o p old new, e = .operand id o ∧ b.position? id = some p ∧
        old.withOperand? o = some new ∧ b.Swaps b' p old new) ∨
      e = .newLabel ∧ b' = b.newLabel.2 := by
  cases e with
  | newLabel => cases h; exact .inr (.inr ⟨rfl, rfl⟩)
  | before anchor ns =>
    obtain ⟨⟨ids, _⟩, hi, rfl⟩ := except_map_ok h
    obtain ⟨p, hp, hi⟩ := except_bind_ok.mp hi
    have hp' := position_ok.mp hp
    refine .inl ⟨p, ns, by rw [insertion?, hp']; rfl, splice_inserts ?_ hi⟩
    exact Nat.le_of_lt (position_lt hp')
  | after anchor ns =>
    obtain ⟨⟨ids, _⟩, hi, rfl⟩ := except_map_ok h
    obtain ⟨p, hp, hi⟩ := except_bind_ok.mp hi
    have hp' := position_ok.mp hp
    exact .inl ⟨p + 1, ns, by rw [insertion?, hp']; rfl, splice_inserts (position_lt hp') hi⟩
  | atStart ns =>
    obtain ⟨⟨ids, _⟩, hi, rfl⟩ := except_map_ok h
    exact .inl ⟨0, ns, rfl, splice_inserts (Nat.zero_le _) hi⟩
  | operand id o =>
    obtain ⟨p, old, new, hp, hnew, hswap⟩ := replaceOperand_ok h
    exact .inr (.inl ⟨id, o, p, old, new, rfl, hp, hnew, hswap⟩)

theorem isPlaced_mem : b.isPlaced l = true ↔ l ∈ b.placedLabels := by
  rw [isPlaced_iff, placedLabels, List.mem_filterMap]
  constructor
  · rintro ⟨p, n, hn, hl⟩
    exact ⟨n, List.mem_of_getElem? ((nodes_get? b p).trans hn), hl⟩
  · rintro ⟨n, hn, hl⟩
    obtain ⟨p, hp⟩ := List.mem_iff_getElem?.mp hn
    exact ⟨p, n, (nodes_get? b p).symm.trans hp, hl⟩

/-- The site is tied just where its label leads to a `new` of the class. -/
theorem ties_at (hq : b.labelPosition? u.label = some q) (hr : b.instructionFrom? q = some r)
    (hn : b.get? r = some n) : b.Ties u ↔ n = .insn (.new u.type) := by
  constructor
  · rintro ⟨t, ht, hget⟩
    obtain ⟨q', hq', ht⟩ := labelTarget_ok.mp ht
    cases Option.some.inj (hq.symm.trans hq')
    cases Option.some.inj (hr.symm.trans ht)
    exact Option.some.inj (hn.symm.trans hget)
  · rintro rfl
    exact ⟨r, labelTarget_ok.mpr ⟨q, hq, hr⟩, hn⟩

end Body

end ClassGraft
