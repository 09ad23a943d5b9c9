import ClassGraft.Proofs.ArenaSteps

namespace ClassGraft

namespace Arena

variable {a a' : Arena} {p : Nat} {id : NodeId} {n : Node} {ns : List Node} {l : Label}
variable {es₁ es₂ : List Entry} {anchor : Option NodeId}
variable {α : Type} {Fails : ClassError → Prop} {Does : α → Arena → Prop} {x : Except ClassError α × Arena}
  {y : Except ClassError (α × Body)}

section Steps

variable {used : NodeId → Prop}

theorem withOperand?_plain {old new : Node} {o : Operand} (h : old.withOperand? o = some new) :
    old.label? = none ∧ new.label? = none :=
  ⟨Body.label?_real (Body.withOperand?_real h).1, Body.label?_real (Body.withOperand?_real h).2⟩

/-- The arena with another node under an id. -/
def updated (a : Arena) (id : NodeId) (old new : Node) : Arena :=
  { a with
    slots := a.slots.setIfInBounds id.index (some new)
    version := a.version + 1
    edits := a.edits.push ⟨some id, [id], [], new.effect, old.effect⟩ }

theorem node?_updated {old new : Node} (hold : a.node? id = some old) (j : NodeId) :
    (a.updated id old new).node? j = if j = id then some new else a.node? j := by
  unfold node? updated
  by_cases h : j = id
  · have hlt : id.index < a.slots.size := node?_lt (by rw [hold]; rfl)
    rw [if_pos h, h, Array.getElem?_setIfInBounds_self_of_lt hlt]
    rfl
  · rw [if_neg h, Array.getElem?_setIfInBounds_ne fun he => h (congrArg NodeId.mk he.symm)]

theorem Sound.updated {old new : Node} (h : a.Sound) (hold : a.node? id = some old)
    (hplain : old.label? = none ∧ new.label? = none) : (a.updated id old new).Sound where
  nodup := h.nodup
  placed := h.placed
  live j := by
    rw [node?_updated hold]
    refine Eq.trans ?_ (h.live j)
    split
    next he => rw [he, hold]; rfl
    next => rfl
  labels l j := by
    rw [node?_updated hold]
    refine (h.labels l j).trans ?_
    split
    next he =>
      rw [he, hold]
      constructor
      · intro hl
        rw [Option.some.inj hl] at hplain
        cases hplain.1
      · intro hl
        rw [Option.some.inj hl] at hplain
        cases hplain.2
    next => exact Iff.rfl
  sizes := h.sizes.trans (Array.size_setIfInBounds ..).symm

theorem Sound.updated_pairs {old new : Node} (h : a.Sound) (hp : a.pairs = es₁ ++ (id, old) :: es₂) :
    (a.updated id old new).pairs = es₁ ++ (id, new) :: es₂ := by
  have hnode : ∀ e ∈ a.pairs, a.node? e.1 = some e.2 := fun e he => h.mem_pairs.mp he
  have hnodup := h.nodup
  rw [← h.ids, hp, List.map_append, List.map_cons, List.nodup_middle, List.nodup_cons,
    ← List.map_append] at hnodup
  rw [hp] at hnode
  have hold := hnode (id, old) (List.mem_append_right _ List.mem_cons_self)
  refine pairs_of ?_ fun e he => ?_
  · refine h.ids.symm.trans ?_
    rw [hp, List.map_append, List.map_append]
    rfl
  · rw [node?_updated hold]
    rcases mem_middle.mp he with rfl | hkept
    · exact if_pos rfl
    · have hne : e.1 ≠ id := by
        rintro rfl
        exact hnodup.1 (List.mem_map.mpr ⟨e, hkept, rfl⟩)
      rw [if_neg hne]
      exact hnode e (mem_middle.mpr (.inr hkept))

theorem run_replaceOperand {old : Node} (hold : a.node? id = some old) (o : Operand) :
    replaceOperand id o a =
      match old.withOperand? o with
      | some new => (.ok (), a.updated id old new)
      | none => (.error (.operandMismatch id), a) := by
  unfold replaceOperand
  rw [run_bind, run_node, hold]
  dsimp only
  cases hnew : old.withOperand? o with
  | none => rfl
  | some new =>
    have hclash : clash? [] a [new] = none := by
      unfold clash?
      rw [(withOperand?_plain hnew).2]
      rfl
    dsimp only
    rw [run_bind, run_checkLabels, hclash]
    rfl

theorem Sound.updated_body {old new : Node} (h : a.Sound)
    (hp : a.pairs = es₁ ++ (id, old) :: es₂) :
    (a.updated id old new).body =
      { a.body with
        entries := a.body.entries.setIfInBounds es₁.length (id, new)
        version := a.version + 1
        edits := a.edits.push ⟨some id, [id], [], new.effect, old.effect⟩ } := by
  have hentries : a.body.entries.setIfInBounds es₁.length (id, new) =
      (es₁ ++ (id, new) :: es₂).toArray := by
    unfold body
    rw [hp, List.setIfInBounds_toArray, List.set_append_right _ _ (Nat.le_refl _), Nat.sub_self,
      List.set_cons_zero]
  have hsize : (a.updated id old new).slots.size = a.slots.size := Array.size_setIfInBounds
  rw [hentries, body, h.updated_pairs hp, hsize]
  rfl

theorem Sound.changed_operand (h : a.Sound) (id : NodeId) (o : Operand) :
    a.Matches (a.Refused (.replaceOperand id o))
      (fun r a' => Carried used a a' (.replaceOperand id o) r)
      (Arena.change (.replaceOperand id o) a) (a.body.change (.replaceOperand id o)) := by
  change a.Matches _ _ ((replaceOperand id o >>= fun _ => pure ChangeResult.done) a)
    ((a.body.replaceOperand id o).map fun b => (ChangeResult.done, b))
  unfold Body.replaceOperand
  rw [run_bind, h.body_position, h.body_node]
  cases hp : a.position? id with
  | none =>
    have hnone : a.node? id = none :=
      Option.not_isSome_iff_eq_none.mp (by rw [h.live, hp]; exact Bool.false_ne_true)
    have hrun : replaceOperand id o a = (.error (.missingNode id), a) := by
      unfold replaceOperand
      rw [run_bind, run_node, hnone]
    rw [hrun]
    exact .fails (.missing rfl (h.missing hp))
  | some p =>
    obtain ⟨old, hold, hlength, hsplit⟩ := h.split_around ((h.placed id p).mp hp)
    rw [run_replaceOperand hold, hold]
    dsimp only [bind, Except.bind]
    cases hnew : old.withOperand? o with
    | none => exact .fails (.mismatch (h.mem_pairs.mpr hold) hnew)
    | some new =>
      have hsound := h.updated hold (withOperand?_plain hnew)
      have hsize : (a.updated id old new).slots.size = a.slots.size := Array.size_setIfInBounds
      have hupdates : Updates a (a.updated id old new) id old new :=
        ⟨⟨_, _, hsplit, h.updated_pairs hsplit⟩, rfl, rfl, rfl, rfl, rfl⟩
      have hdone : a.Matches (a.Refused (.replaceOperand id o))
          (fun r a' => Carried used a a' (.replaceOperand id o) r)
          (.ok .done, a.updated id old new) (.ok (.done, (a.updated id old new).body)) :=
        .does hsound (Nat.le_of_eq hsize.symm) (.replaceOperand hnew hupdates)
      rw [h.updated_body hsplit, hlength] at hdone
      exact hdone

/-- Every change takes one list of nodes to another one and keeps the tables in agreement. -/
theorem Sound.change (h : a.Sound) (hused : ∀ id, used id → id.index < a.slots.size)
    {c : BodyChange} (hc : a.Admits c) : a.Matches (a.Refused c) (fun r a' => Carried used a a' c r)
      (Arena.change c a) (a.body.change c) := by
  have hlt {id : NodeId} {p : Nat} (hp : a.order[p]? = some id) : p < a.order.length :=
    (List.getElem?_eq_some_iff.mp hp).1
  cases c with
  | push n =>
    have hdone := h.unrecorded hused (Nat.le_refl _) n
    rw [← h.body_size, ← body_push, h.body_size, ← run_push] at hdone
    exact (hdone.imp (fun _ => .repeated rfl) fun _ _ hdone => hdone).map fun _ _ hdone =>
      .push hdone.1 hdone.2
  | newLabel =>
    exact .does ⟨h.nodup, h.placed, h.live, h.labels, h.sizes⟩ (Nat.le_refl _) (.newLabel rfl)
  | insertBefore anchor ns =>
    refine Matches.map (h.at_position (.missing rfl) fun p hp => ?_) fun _ _ hdone => hdone
    exact (h.inserted hused (Nat.le_of_lt (hlt hp)) _ ns).imp (fun _ => .repeated rfl) fun _ _ =>
      .insertBefore hp
  | insertAfter anchor ns =>
    refine Matches.map (h.at_position (.missing rfl) fun p hp => ?_) fun _ _ hdone => hdone
    exact (h.inserted hused (hlt hp) _ ns).imp (fun _ => .repeated rfl) fun _ _ => .insertAfter hp
  | insertAtStart ns =>
    exact ((h.inserted hused (Nat.zero_le _) none ns).imp (fun _ => .repeated rfl) fun _ _ hdone =>
      hdone).map fun _ _ => .insertAtStart
  | replace id ns =>
    refine Matches.map (h.at_position (.missing rfl) fun p hp => ?_) fun _ _ hdone => hdone
    obtain ⟨old, -, hdone⟩ := h.replaced hused hp ns
    exact hdone.imp (fun _ => .repeated rfl) fun _ _ => .replace
  | remove id =>
    refine Matches.map (h.at_node (.missing rfl) fun n hn => ?_) fun _ _ hdone => hdone
    -- The node is looked up once more to be taken out, which cannot fail now.
    have hdone : a.Matches (a.Refused (.remove id))
        (fun m a' => Carried used a a' (.remove id) (.node m))
        ((replace id [] >>= fun _ => pure n) a) ((a.body.replace id []).map fun r => (n, r.2)) := by
      refine Matches.map (h.at_position (.missing rfl) fun p hp => ?_) fun _ _ hdone => hdone
      obtain ⟨old, hold, hdone⟩ := h.replaced hused hp []
      cases Option.some.inj (hn.symm.trans hold)
      refine hdone.imp (fun _ => .repeated rfl) fun ids a' hdone => ?_
      cases List.eq_nil_of_length_eq_zero hdone.count
      exact .remove hdone
    revert hdone
    cases a.body.replace id [] <;> exact fun hdone => hdone
  | replaceOperand id o => exact h.changed_operand id o
  | insertUnrecorded p n =>
    exact ((h.unrecorded hused hc n).imp (fun _ => .repeated rfl) fun _ _ hdone => hdone).map
      fun _ _ hdone => .insertUnrecorded hdone.1 hdone.2

end Steps

/-- The arenas that changes lead to, be they successful or not. -/
inductive Leads (a : Arena) : Arena → Prop
  | refl : Leads a a
  | step {b : Arena} {c : BodyChange} : Leads a b → b.Admits c → Leads a (Arena.change c b).2

def Reached (a : Arena) : Prop := empty.Leads a

/-- The id has been in an arena on the way to this one. -/
def Used (a : Arena) (id : NodeId) : Prop := ∃ b : Arena, b.Reached ∧ b.Leads a ∧ id ∈ b.order

theorem Matches.after {x : Except ClassError α × Arena} (h : a.Matches Fails Does x y)
    (ha : a.Sound) : x.2.Sound ∧ a.slots.size ≤ x.2.slots.size := by
  cases h with
  | fails hfails => exact ⟨ha, Nat.le_refl _⟩
  | does hsound hsize hdoes => exact ⟨hsound, hsize⟩

/-- The tables stay in agreement, and no id is given back. -/
theorem Sound.leads (h : a.Sound) (hl : a.Leads a') : a'.Sound ∧ a.slots.size ≤ a'.slots.size := by
  induction hl with
  | refl => exact ⟨h, Nat.le_refl _⟩
  | step _ hc ih =>
    -- No id has to be kept from being used again for this.
    have hstep := ih.1.change (fun _ => False.elim) hc
    obtain ⟨hsound, hsize⟩ := hstep.after ih.1
    exact ⟨hsound, Nat.le_trans ih.2 hsize⟩

theorem Used.lt_size (h : a.Used id) : id.index < a.slots.size := by
  obtain ⟨b, hb, hl, hid⟩ := h
  obtain ⟨hsound, -⟩ := empty_sound.leads hb
  have hlt := (hsound.loose 0).lt_size hid
  exact Nat.lt_of_lt_of_le hlt (hsound.leads hl).2

/-- On every run the tables agree, and the next change does to the list of nodes what it should. -/
theorem reached_changes (h : a.Reached) : a.Sound ∧ ∀ c, a.Admits c →
    a.Matches (a.Refused c) (fun r a' => Carried a.Used a a' c r) (Arena.change c a)
      (a.body.change c) := by
  obtain ⟨hsound, -⟩ := empty_sound.leads h
  exact ⟨hsound, fun c hc => hsound.change (fun _ hused => hused.lt_size) hc⟩

/-- An arena after changes, the last of which has failed. -/
def regrown : Arena :=
  let pushed := (Arena.change (.push (.insn .nop)) empty).2
  let replaced := (Arena.change (.replace ⟨0⟩ [.insn .nop, .insn (.stack .pop)]) pushed).2
  (Arena.change (.remove ⟨0⟩) replaced).2

def twiceLabelled : BodyChange := .insertAfter ⟨1⟩ [.label ⟨0⟩, .label ⟨0⟩]

theorem regrown_changes : regrown.Reached ∧
    regrown.pairs = [(⟨1⟩, .insn .nop), (⟨2⟩, .insn (.stack .pop))] ∧ regrown.Sound ∧
    regrown.Matches (regrown.Refused twiceLabelled)
      (fun r a' => Carried regrown.Used regrown a' twiceLabelled r)
      (Arena.change twiceLabelled regrown) (.error (.duplicateLabel ⟨0⟩)) := by
  have hreached : regrown.Reached := .step (.step (.step .refl trivial) trivial) trivial
  have hbody : regrown.body.change twiceLabelled = .error (.duplicateLabel ⟨0⟩) := by cbv
  obtain ⟨hsound, hchange⟩ := reached_changes hreached
  exact ⟨hreached, rfl, hsound, hbody ▸ hchange twiceLabelled trivial⟩

end Arena

end ClassGraft
