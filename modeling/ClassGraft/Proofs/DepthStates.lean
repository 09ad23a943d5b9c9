import ClassGraft.Flow.Depth
import ClassGraft.Proofs.NodeLookup
import ClassGraft.Proofs.Outcomes
import Mathlib

namespace ClassGraft

/-- The depth behind a node. -/
def Node.depthAfter (n : Node) (depth : Nat) : Nat := depth - n.slots.popped + n.slots.pushed

namespace Body

/-- One step of flow to a position and a depth. Behind a subroutine call the depth is that from before
the call. -/
inductive Flow (b : Body) (p d : Nat) : Nat → Nat → Prop
  | next {n : Node} : b.get? p = some n → n.branch? = none → Flow b p d (p + 1) (n.depthAfter d)
  | jump {br : Branch Label} {l : Label} {q : Nat} : b.get? p = some (.branch br) →
      l ∈ br.targets → b.labelPosition? l = some q →
      Flow b p d q ((Node.branch br).depthAfter d)
  | through {br : Branch Label} : b.get? p = some (.branch br) → br.fallsThrough = true →
      br.isCall = false → Flow b p d (p + 1) ((Node.branch br).depthAfter d)
  | resume {br : Branch Label} : b.get? p = some (.branch br) → br.isCall = true →
      Flow b p d (p + 1) d

/-- Is there an instruction at a position in the range of a block? -/
def Protects (b : Body) (t : TryBlock) (p : Nat) : Prop :=
  ∃ start stop n, b.labelPosition? t.start = some start ∧ b.labelPosition? t.stop = some stop ∧
    start ≤ p ∧ p < stop ∧ b.get? p = some n ∧ n.isPseudo = false

/-- The positions that paths from the start reach, with the depths that they bring. -/
inductive Reaches (b : Body) : Nat → Nat → Prop
  | start : Reaches b 0 0
  | flow {p d q e : Nat} : Reaches b p d → b.Flow p d q e → Reaches b q e
  | handle {p d h : Nat} {t : TryBlock} : Reaches b p d → t ∈ b.tryBlocks → b.Protects t p →
      b.labelPosition? t.handler = some h → Reaches b h 1

/-- All paths stay in the body, agree on the depth at each position and find what they pop. -/
def Balanced (b : Body) : Prop :=
  ∀ p d, b.Reaches p d → p < b.size ∧ (∀ e, b.Reaches p e → e = d) ∧
    ∀ n, b.get? p = some n → n.slots.popped ≤ d

end Body

/-- The positions of labels, if none is missing. -/
theorem Body.mapM_labelPosition {b : Body} {ls : List Label} {qs : List Nat}
    (h : ls.mapM b.labelPosition = .ok qs) (q : Nat) :
    q ∈ qs ↔ ∃ l ∈ ls, b.labelPosition? l = some q := by
  simp only [mem_mapM_ok h, Body.labelPosition_ok]

namespace DepthState

variable {b : Body} {s : DepthState} {parameters : Nat}

/-- The position is known with the depth, or will be entered with it. -/
def Covers (s : DepthState) (q d : Nat) : Prop :=
  s.depths[q]? = some (some d) ∨ (q, d) ∈ s.work

/-- What holds while depths are computed: all that is known or left to do is reached, and all that can
follow what is known is known or left to do. -/
structure Invariant (b : Body) (parameters : Nat) (s : DepthState) : Prop where
  size : s.depths.size = b.size
  reached : ∀ q d, s.Covers q d → b.Reaches q d
  fits : ∀ q d n, s.depths[q]? = some (some d) → b.get? q = some n → n.slots.popped ≤ d
  flows : ∀ q d q' d', s.depths[q]? = some (some d) → b.Flow q d q' d' → s.Covers q' d'
  placed : ∀ q d br, s.depths[q]? = some (some d) → b.get? q = some (.branch br) →
    ∀ l ∈ br.targets, ∃ r, b.labelPosition? l = some r
  stackBound : ∀ q d n, s.depths[q]? = some (some d) → b.get? q = some n →
    n.depthAfter d ≤ s.maxStack
  stackMet : s.maxStack = 0 ∨
    ∃ q d n, s.depths[q]? = some (some d) ∧ b.get? q = some n ∧ n.depthAfter d = s.maxStack
  localsBound : parameters ≤ s.maxLocals ∧
    ∀ q d n, s.depths[q]? = some (some d) → b.get? q = some n → n.localExtent ≤ s.maxLocals
  localsMet : s.maxLocals = parameters ∨
    ∃ q d n, s.depths[q]? = some (some d) ∧ b.get? q = some n ∧ n.localExtent = s.maxLocals

/-- The state with one more position to enter. -/
def enter (s : DepthState) (q d : Nat) : DepthState := { s with work := (q, d) :: s.work }

/-- The state in which a node has become known, with what follows it left to do. -/
def visit (s : DepthState) (q d : Nat) (n : Node) (out : List (Nat × Nat)) : DepthState :=
  { depths := s.depths.setIfInBounds q (some d)
    maxStack := max s.maxStack (n.depthAfter d)
    maxLocals := max s.maxLocals n.localExtent
    work := out ++ s.work }

theorem visit_known {q d q' d' : Nat} {n : Node} {out : List (Nat × Nat)}
    (hq : s.depths[q]? = some none) :
    (s.visit q d n out).depths[q']? = some (some d') ↔
      q' = q ∧ d' = d ∨ s.depths[q']? = some (some d') := by
  have hlt : q < s.depths.size := (Array.getElem?_eq_some_iff.mp hq).1
  simp only [visit, Array.getElem?_setIfInBounds]
  by_cases h : q = q'
  · subst h
    have hnone : s.depths[q] = none := (Array.getElem?_eq_some_iff.mp hq).2
    simp [hlt, hnone, eq_comm]
  · simp [h, Ne.symm h]

theorem covers_visit {q d q' d' : Nat} (n : Node) (out : List (Nat × Nat))
    (hq : s.depths[q]? = some none) (h : (s.enter q d).Covers q' d') :
    (s.visit q d n out).Covers q' d' := by
  rcases h with h | h
  · exact .inl ((visit_known hq).mpr (.inr h))
  · rcases List.mem_cons.mp h with h | h
    · obtain ⟨rfl, rfl⟩ := Prod.mk.inj h
      exact .inl ((visit_known hq).mpr (.inl ⟨rfl, rfl⟩))
    · exact .inr (List.mem_append_right _ h)

section Visit

variable {q d : Nat} {n : Node} {out : List (Nat × Nat)}

/-- What holds of the new node and of those that were known holds of all that are known then. -/
theorem visit_forall {P : Nat → Nat → Node → Prop} (hq : s.depths[q]? = some none)
    (hn : b.get? q = some n) (hnew : P q d n)
    (hold : ∀ q' d' m, s.depths[q']? = some (some d') → b.get? q' = some m → P q' d' m) :
    ∀ q' d' m, (s.visit q d n out).depths[q']? = some (some d') → b.get? q' = some m → P q' d' m := by
  intro q' d' m hk hm
  rcases (visit_known hq).mp hk with ⟨rfl, rfl⟩ | hk
  · cases Option.some.inj (hn.symm.trans hm)
    exact hnew
  · exact hold q' d' m hk hm

/-- The greatest value is still one that a known node has, or the one from the start. -/
theorem visit_met {g : Node → Nat → Nat} {k start : Nat} (hq : s.depths[q]? = some none)
    (hn : b.get? q = some n) (hmet : k = start ∨
      ∃ q' d' m, s.depths[q']? = some (some d') ∧ b.get? q' = some m ∧ g m d' = k) :
    max k (g n d) = start ∨ ∃ q' d' m, (s.visit q d n out).depths[q']? = some (some d') ∧
      b.get? q' = some m ∧ g m d' = max k (g n d) := by
  rcases Nat.le_total (g n d) k with hle | hle
  · rw [Nat.max_eq_left hle]
    refine hmet.imp_right ?_
    rintro ⟨q', d', m, hk, hm, he⟩
    exact ⟨q', d', m, (visit_known hq).mpr (.inr hk), hm, he⟩
  · exact .inr ⟨q, d, n, (visit_known hq).mpr (.inl ⟨rfl, rfl⟩), hn, (Nat.max_eq_right hle).symm⟩

/-- A node becomes known: what follows it has to be all that is added to the work. -/
theorem Invariant.visit (out : List (Nat × Nat))
    (h : Invariant b parameters (s.enter q d)) (hq : s.depths[q]? = some none)
    (hn : b.get? q = some n) (hfit : n.slots.popped ≤ d)
    (htargets : ∀ br, n = .branch br → ∀ l ∈ br.targets, ∃ r, b.labelPosition? l = some r)
    (hout : ∀ q' d', (q', d') ∈ out ↔ b.Flow q d q' d') :
    Invariant b parameters (s.visit q d n out) where
  size := (Array.size_setIfInBounds ..).trans h.size
  reached := by
    have hr : b.Reaches q d := h.reached q d (.inr (List.mem_cons_self ..))
    rintro q' d' (hk | hw)
    · rcases (visit_known hq).mp hk with ⟨rfl, rfl⟩ | hk
      · exact hr
      · exact h.reached q' d' (.inl hk)
    · rcases List.mem_append.mp hw with hw | hw
      · exact hr.flow ((hout q' d').mp hw)
      · exact h.reached q' d' (.inr (List.mem_cons_of_mem _ hw))
  fits := visit_forall hq hn hfit h.fits
  flows := by
    intro q' d' p e hk hf
    rcases (visit_known hq).mp hk with ⟨rfl, rfl⟩ | hk
    · exact .inr (List.mem_append_left _ ((hout p e).mpr hf))
    · exact covers_visit n out hq (h.flows q' d' p e hk hf)
  placed := by
    intro q' d' br hk hm
    rcases (visit_known hq).mp hk with ⟨rfl, rfl⟩ | hk
    · exact htargets br (Option.some.inj (hn.symm.trans hm))
    · exact h.placed q' d' br hk hm
  stackBound := visit_forall hq hn (Nat.le_max_right ..) fun q' d' m hk hm =>
    Nat.le_trans (h.stackBound q' d' m hk hm) (Nat.le_max_left ..)
  stackMet := visit_met (g := Node.depthAfter) hq hn h.stackMet
  localsBound := ⟨Nat.le_trans h.localsBound.1 (Nat.le_max_left ..),
    visit_forall hq hn (Nat.le_max_right ..) fun q' d' m hk hm =>
      Nat.le_trans (h.localsBound.2 q' d' m hk hm) (Nat.le_max_left ..)⟩
  localsMet := visit_met (g := fun m _ => m.localExtent) hq hn h.localsMet

end Visit

/-- What is known or left to do stays so. -/
def Grows (s s' : DepthState) : Prop := ∀ q d, s.Covers q d → s'.Covers q d

/-- A position that is known with its depth need not be entered again. -/
theorem Invariant.leave {position depth : Nat} {s : DepthState}
    (hi : Invariant b parameters (s.enter position depth))
    (hk : s.depths[position]? = some (some depth)) :
    Invariant b parameters s ∧ (s.enter position depth).Grows s := by
  have hg : (s.enter position depth).Grows s := by
    rintro q d (hq | hq)
    · exact .inl hq
    · rcases List.mem_cons.mp hq with hq | hq
      · obtain ⟨rfl, rfl⟩ := Prod.mk.inj hq
        exact .inl hk
      · exact .inr hq
  have hr : ∀ q d, s.Covers q d → b.Reaches q d := fun q d hq =>
    hi.reached q d (hq.imp_right (List.mem_cons_of_mem _))
  exact ⟨⟨hi.size, hr, hi.fits, fun q d q' d' hq hf => hg q' d' (hi.flows q d q' d' hq hf),
    hi.placed, hi.stackBound, hi.stackMet, hi.localsBound, hi.localsMet⟩, hg⟩

end DepthState

namespace Body

open DepthState

variable {b : Body}

/-- What follows a branch. -/
theorem flow_branch {p d q e : Nat} {br : Branch Label} (h : b.get? p = some (.branch br)) :
    b.Flow p d q e ↔
      (e = (Node.branch br).depthAfter d ∧ ∃ l ∈ br.targets, b.labelPosition? l = some q) ∨
      (q = p + 1 ∧ (br.isCall = true ∧ e = d ∨
        br.isCall = false ∧ br.fallsThrough = true ∧ e = (Node.branch br).depthAfter d)) := by
  constructor
  · intro hf
    cases hf with
    | next hn hb => cases Option.some.inj (h.symm.trans hn); cases hb
    | jump hn hl hq =>
      cases Option.some.inj (h.symm.trans hn)
      exact .inl ⟨rfl, _, hl, hq⟩
    | through hn hf hc =>
      cases Option.some.inj (h.symm.trans hn)
      exact .inr ⟨rfl, .inr ⟨hc, hf, rfl⟩⟩
    | resume hn hc =>
      cases Option.some.inj (h.symm.trans hn)
      exact .inr ⟨rfl, .inl ⟨hc, rfl⟩⟩
  · rintro (⟨rfl, l, hl, hq⟩ | ⟨rfl, ⟨hc, rfl⟩ | ⟨hc, hf, rfl⟩⟩)
    · exact .jump h hl hq
    · exact .resume h hc
    · exact .through h hf hc

theorem flow_plain {p d q e : Nat} {n : Node} (h : b.get? p = some n) (hb : n.branch? = none) :
    b.Flow p d q e ↔ q = p + 1 ∧ e = n.depthAfter d := by
  constructor
  · intro hf
    cases hf with
    | next hn _ => cases Option.some.inj (h.symm.trans hn); exact ⟨rfl, rfl⟩
    | jump hn | through hn | resume hn => cases Option.some.inj (h.symm.trans hn); cases hb
  · rintro ⟨rfl, rfl⟩
    exact .next h hb

theorem mem_jumps {targets : List Nat} {after q e : Nat} :
    (q, e) ∈ (targets.map fun t => (t, after)).reverse ↔ e = after ∧ q ∈ targets := by
  simp only [List.mem_reverse, List.mem_map, Prod.mk.injEq]
  constructor
  · rintro ⟨t, ht, rfl, rfl⟩
    exact ⟨rfl, ht⟩
  · rintro ⟨rfl, hq⟩
    exact ⟨q, hq, rfl, rfl⟩

/-- All labels that something refers to are placed. -/
def Complete (b : Body) : Prop := ∀ l ∈ b.mentionedLabels, ∃ p, b.labelPosition? l = some p

/-- The bounds of a block are placed. -/
def Bounded (b : Body) (t : TryBlock) : Prop :=
  ∃ start stop, b.labelPosition? t.start = some start ∧ b.labelPosition? t.stop = some stop

/-- The labels that matter to the paths of a body are placed. -/
structure Closed (b : Body) : Prop where
  targets : ∀ p d br, b.Reaches p d → b.get? p = some (.branch br) →
    ∀ l ∈ br.targets, ∃ q, b.labelPosition? l = some q
  bounds : ∀ t ∈ b.tryBlocks, b.Bounded t
  handlers : ∀ t ∈ b.tryBlocks, ∀ p d, b.Reaches p d → b.Protects t p →
    ∃ q, b.labelPosition? t.handler = some q

/-- A computation of depths either has a result with a property, or it fails because a label that
matters is not placed or because the paths of the body do not agree. -/
def Decides {α : Type} (b : Body) (Q : α → Prop) : Except ClassError α → Prop
  | .ok a => Q a
  | .error _ => b.Closed → ¬b.Balanced

theorem Decides.bind {α β : Type} {Q : α → Prop} {R : β → Prop} {x : Except ClassError α}
    {f : α → Except ClassError β} (hx : Decides b Q x) (hf : ∀ a, Q a → Decides b R (f a)) :
    Decides b R (x >>= f) := by
  cases x with
  | error e => exact hx
  | ok a => exact hf a hx

theorem Decides.imp {α : Type} {Q R : α → Prop} {x : Except ClassError α} (hx : Decides b Q x)
    (h : ∀ a, Q a → R a) : Decides b R x := by
  cases x with
  | error e => exact hx
  | ok a => exact h a hx

theorem complete_iff : b.checkLabels = .ok () ↔ b.Complete := by
  unfold checkLabels Complete
  split
  next l hl =>
    have hm := List.mem_of_find?_eq_some hl
    have hp := List.find?_some hl
    simp only [reduceCtorEq, false_iff]
    intro h
    obtain ⟨p, hp'⟩ := h l hm
    simp [isPlaced, hp'] at hp
  next hn =>
    simp only [true_iff]
    intro l hl
    have := List.find?_eq_none.mp hn l hl
    exact Option.ne_none_iff_exists'.mp (by simpa [isPlaced] using this)

theorem Complete.target (hc : b.Complete) {p : Nat} {br : Branch Label}
    (hn : b.get? p = some (.branch br)) {l : Label} (hl : l ∈ br.targets) :
    ∃ q, b.labelPosition? l = some q := by
  obtain ⟨e, he, hs⟩ := Option.map_eq_some_iff.mp hn
  have hm : Node.branch br ∈ b.nodes :=
    List.mem_map.mpr ⟨e, Array.mem_toList_iff.mpr (Array.mem_of_getElem? he), hs⟩
  have ht : l ∈ ((Node.branch br).branch?.map Branch.targets).getD [] := hl
  exact hc l (List.mem_append_left _ (List.mem_append_left _ (List.mem_flatMap.mpr ⟨_, hm, ht⟩)))

theorem Complete.block (hc : b.Complete) {t : TryBlock} (ht : t ∈ b.tryBlocks) {l : Label}
    (hl : l ∈ [t.start, t.stop, t.handler]) : ∃ q, b.labelPosition? l = some q :=
  hc l (List.mem_append_left _ (List.mem_append_right _ (List.mem_flatMap.mpr ⟨t, ht, hl⟩)))

theorem Complete.closed (hc : b.Complete) : b.Closed where
  targets _ _ _ _ hn _ hl := hc.target hn hl
  bounds t ht := by
    obtain ⟨start, hs⟩ := hc.block ht (l := t.start) (by simp)
    obtain ⟨stop, he⟩ := hc.block ht (l := t.stop) (by simp)
    exact ⟨start, stop, hs, he⟩
  handlers t ht _ _ _ _ := hc.block ht (by simp)

end Body

end ClassGraft
