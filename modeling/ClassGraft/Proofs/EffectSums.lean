import ClassGraft.Flow.Depth
import ClassGraft.Proofs.ArenaChanges

namespace ClassGraft

namespace Node

theorem totalEffect_append (ns ms : List Node) :
    totalEffect (ns ++ ms) = totalEffect ns + totalEffect ms := by
  induction ns with
  | nil => exact (Int.zero_add _).symm
  | cons n ns ih =>
    rw [List.cons_append, totalEffect, totalEffect, ih]
    omega

theorem effect_pseudo {n : Node} (h : n.isPseudo = true) : n.effect = 0 := by
  cases n with
  | insn i => cases h
  | branch b => cases h
  | _ => rfl

end Node

/-- What an edit has done to the stack effect by its record. -/
def Edit.balance (e : Edit) : Int := e.insertedEffect - e.removedEffect

theorem Edit.balance_neutral {e : Edit} (h : e.isNeutral = true) : e.balance = 0 := by
  unfold balance
  rw [of_decide_eq_true h, Int.sub_self]

/-- The net change of the stack depth by all nodes of a body. -/
def Body.effect (b : Body) : Int := Node.totalEffect b.nodes

theorem Body.checkNeutral_ok {b : Body} :
    b.checkNeutral = .ok () ↔ ∀ e ∈ b.edits, e.isNeutral = true := by
  unfold checkNeutral
  split
  next e he =>
    refine ⟨fun h => (nomatch h), fun h => ?_⟩
    have hout := Array.find?_some he
    rw [h e (Array.mem_of_find?_eq_some he)] at hout
    cases hout
  next hnone =>
    refine ⟨fun _ e he => ?_, fun _ => rfl⟩
    simpa using Array.find?_eq_none.mp hnone e he

/-- The changes by which bodies are patched: nothing is pushed, and what comes in without a record is a
pseudo node. -/
def BodyChange.Patches : BodyChange → Prop
  | .push _ => False
  | .insertUnrecorded _ n => n.isPseudo = true
  | _ => True

namespace Arena

variable {a a' : Arena} {p : Nat} {id : NodeId} {c : BodyChange} {ns : List Node} {es fs : List Edit}

/-- The edits that have been added account for the effect of the body. -/
structure Accounts (a a' : Arena) (es : List Edit) : Prop where
  edits : a'.edits.toList = a.edits.toList ++ es
  effect : a'.body.effect = a.body.effect + (es.map Edit.balance).sum

namespace Accounts

theorem same (hedits : a'.edits = a.edits) (heffect : a'.body.effect = a.body.effect) :
    a.Accounts a' [] :=
  ⟨by rw [hedits, List.append_nil], heffect.trans (Int.add_zero _).symm⟩

theorem single {e : Edit} (hedits : a'.edits = a.edits.push e)
    (heffect : a'.body.effect = a.body.effect + e.balance) : a.Accounts a' [e] :=
  ⟨by rw [hedits, Array.toList_push], by rw [heffect, List.map_singleton, List.sum_singleton]⟩

theorem trans {b : Arena} (h : a.Accounts b es) (h' : b.Accounts a' fs) : a.Accounts a' (es ++ fs) :=
  ⟨by rw [h'.edits, h.edits, List.append_assoc], by
    rw [h'.effect, h.effect, List.map_append, List.sum_append, Int.add_assoc]⟩

end Accounts

theorem body_effect (a : Arena) : a.body.effect = Node.totalEffect (a.pairs.map Prod.snd) := rfl

theorem Exchanges.effect {used : NodeId → Prop} {removed : List Entry} {ids : List NodeId}
    (h : Exchanges used a a' p removed ns ids) : a'.body.effect =
      a.body.effect + (Node.totalEffect ns - Node.totalEffect (removed.map Prod.snd)) := by
  obtain ⟨before, after, -, hpairs, hpairs'⟩ := h.pairs
  rw [body_effect, body_effect, hpairs, hpairs']
  simp only [List.map_append, Node.totalEffect_append, List.map_snd_zip (Nat.le_of_eq h.count.symm)]
  omega

theorem Records.accounts {used : NodeId → Prop} {anchor : Option NodeId} {removed : List Entry}
    {ids : List NodeId} (h : Records used a a' p anchor removed ns ids) : ∃ es, a.Accounts a' es :=
  ⟨_, .single h.edits h.effect⟩

theorem Updates.effect {old new : Node} (h : Updates a a' id old new) :
    a'.body.effect = a.body.effect + (new.effect - old.effect) := by
  obtain ⟨before, after, hpairs, hpairs'⟩ := h.pairs
  rw [body_effect, body_effect, hpairs, hpairs']
  simp only [List.map_append, List.map_cons, Node.totalEffect_append, Node.totalEffect]
  omega

/-- A change adds a record of what it does to the effect, and one that fails does nothing. -/
theorem Sound.change_accounts (h : a.Sound) (hc : a.Admits c) (hp : c.Patches) :
    ∃ es, a.Accounts (Arena.change c a).2 es := by
  have hstep := h.change (fun _ => False.elim) hc
  generalize Arena.change c a = x, a.body.change c = y at hstep
  cases hstep with
  | fails => exact ⟨[], .same rfl rfl⟩
  | does _ _ hdone =>
    cases hdone with
    | push => exact hp.elim
    | newLabel ha => subst ha; exact ⟨[], .same rfl rfl⟩
    | insertBefore _ hrecords => exact hrecords.accounts
    | insertAfter _ hrecords => exact hrecords.accounts
    | insertAtStart hrecords => exact hrecords.accounts
    | replace hrecords => exact hrecords.accounts
    | remove hrecords => exact hrecords.accounts
    | replaceOperand _ hupdates => exact ⟨_, .single hupdates.edits hupdates.effect⟩
    | insertUnrecorded hexchanges hedits =>
      refine ⟨[], .same hedits (hexchanges.effect.trans ?_)⟩
      rw [Node.totalEffect, Node.effect_pseudo hp]
      exact Int.add_zero _

/-- Patching: one change after another, be they successful or not. -/
inductive Patched (a : Arena) : Arena → Prop
  | refl : Patched a a
  | step {b : Arena} {c : BodyChange} : Patched a b → b.Admits c → c.Patches →
      Patched a (Arena.change c b).2

theorem Patched.leads (h : a.Patched a') : a.Leads a' := by
  induction h with
  | refl => exact .refl
  | step _ hc _ ih => exact .step ih hc

theorem Patched.accounts (h : a.Patched a') (ha : a.Sound) : ∃ es, a.Accounts a' es := by
  induction h with
  | refl => exact ⟨[], .same rfl rfl⟩
  | step hb hc hp ih =>
    obtain ⟨es, hes⟩ := ih
    obtain ⟨fs, hfs⟩ := (ha.leads hb.leads).1.change_accounts hc hp
    exact ⟨es ++ fs, hes.trans hfs⟩

/-- However a body is patched, its effect has changed by the balances of the edits that were recorded.
If all of those are neutral, it has not changed. -/
theorem patched_effect (ha : a.Sound) (h : a.Patched a') :
    ∃ es, a'.edits.toList = a.edits.toList ++ es ∧
      a'.body.effect = a.body.effect + (es.map Edit.balance).sum ∧
      (Body.checkNeutral { a'.body with edits := es.toArray } = .ok () →
        a'.body.effect = a.body.effect) ∧
      (a'.body.checkNeutral = .ok () → a'.body.effect = a.body.effect) := by
  obtain ⟨es, hedits, heffect⟩ := h.accounts ha
  have hneutral (hes : ∀ e ∈ es, e.isNeutral = true) : a'.body.effect = a.body.effect := by
    have hzero : (es.map Edit.balance).sum = 0 :=
      List.sum_eq_zero fun n hn => by
        obtain ⟨e, he, rfl⟩ := List.mem_map.mp hn
        exact Edit.balance_neutral (hes e he)
    rw [heffect, hzero, Int.add_zero]
  refine ⟨es, hedits, heffect, fun hok => hneutral fun e he => ?_, fun hok => hneutral fun e he => ?_⟩
  · exact Body.checkNeutral_ok.mp hok e (List.mem_toArray.mpr he)
  · refine Body.checkNeutral_ok.mp hok e (Array.mem_toList_iff.mp ?_)
    exact hedits ▸ List.mem_append_right _ he

/-- An arena that is patched further: a constant comes in, a change of its operand is refused, and a
label comes in without a record. -/
def refilled : Arena :=
  let filled := (Arena.change (.insertBefore ⟨2⟩ [.insn (.push (.int 3))]) regrown).2
  let refused := (Arena.change (.replaceOperand ⟨3⟩ (.literal (.long 5))) filled).2
  (Arena.change (.insertUnrecorded 0 (.label ⟨0⟩)) refused).2

theorem refilled_effect : regrown.Sound ∧ regrown.Patched refilled ∧
    regrown.body.effect = -1 ∧ refilled.body.effect = 0 ∧
    ∃ es, refilled.edits.toList = regrown.edits.toList ++ es ∧
      refilled.body.effect = regrown.body.effect + (es.map Edit.balance).sum ∧
      (Body.checkNeutral { refilled.body with edits := es.toArray } = .ok () →
        refilled.body.effect = regrown.body.effect) ∧
      (refilled.body.checkNeutral = .ok () → refilled.body.effect = regrown.body.effect) := by
  have hreached : regrown.Reached := .step (.step (.step .refl trivial) trivial) trivial
  have hsound : regrown.Sound := (empty_sound.leads hreached).1
  have hpatched : regrown.Patched refilled :=
    .step (.step (.step .refl trivial trivial) trivial trivial) (Nat.zero_le _) rfl
  have heffect : refilled.body.effect = 0 := by cbv
  exact ⟨hsound, hpatched, rfl, heffect, patched_effect hsound hpatched⟩

end Arena

end ClassGraft
