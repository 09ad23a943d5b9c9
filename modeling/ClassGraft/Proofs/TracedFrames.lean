import ClassGraft.Proofs.DepthPaths
import ClassGraft.Proofs.FrameInference
import ClassGraft.Proofs.StackWidths

namespace ClassGraft

namespace Node

theorem depthAfter_pseudo {n : Node} (h : n.isPseudo = true) (d : Nat) : n.depthAfter d = d := by
  cases n with
  | insn i => cases h
  | branch br => cases h
  | label l | line m | frame f => rfl

theorem branch?_pseudo {n : Node} (h : n.isPseudo = true) : n.branch? = none := by
  cases n with
  | branch br => cases h
  | insn i | label l | line m | frame f => rfl

/-- Where the width of the types is known to exceed the depth, it does so behind a node as before. -/
theorem width_depthAfter {n : Node} {w w' d k : Nat} (hw : w = d + k) (hfits : n.slots.popped ≤ d)
    (h : (w' : Int) = w + n.effect) : w' = n.depthAfter d + k := by
  unfold effect at h
  unfold depthAfter
  omega

end Node

namespace Branch

variable {L : Type} {br : Branch L}

theorem slots_call (h : br.isCall = true) : br.slots = ⟨0, 1⟩ := by
  cases br <;> first | rfl | cases h

theorem fallsThrough_call (h : br.isCall = true) : br.fallsThrough = true := by
  cases br <;> first | rfl | cases h

theorem ne_athrow_of_falls (h : br.fallsThrough = true) : br ≠ .athrow := by
  rintro rfl
  cases h

theorem ne_athrow_of_target {l : L} (h : l ∈ br.targets) : br ≠ .athrow := by
  rintro rfl
  cases h

end Branch

namespace Body

/-- The positions that paths reach, with the depth that they bring and the number of subroutine calls
that they have stepped over since the start or since the last exception. -/
inductive Travels (b : Body) : Nat → Nat → Nat → Prop
  | start : Travels b 0 0 0
  | next {p d k : Nat} {n : Node} : Travels b p d k → b.get? p = some n → n.branch? = none →
      Travels b (p + 1) (n.depthAfter d) k
  | jump {p d k q : Nat} {br : Branch Label} {l : Label} : Travels b p d k →
      b.get? p = some (.branch br) → l ∈ br.targets → b.labelPosition? l = some q →
      Travels b q ((Node.branch br).depthAfter d) k
  | through {p d k : Nat} {br : Branch Label} : Travels b p d k → b.get? p = some (.branch br) →
      br.fallsThrough = true → br.isCall = false →
      Travels b (p + 1) ((Node.branch br).depthAfter d) k
  | resume {p d k : Nat} {br : Branch Label} : Travels b p d k → b.get? p = some (.branch br) →
      br.isCall = true → Travels b (p + 1) d (k + 1)
  | handle {p d k h : Nat} {t : TryBlock} : Travels b p d k → t ∈ b.tryBlocks → b.Protects t p →
      b.labelPosition? t.handler = some h → Travels b h 1 0

variable {b b' : Body} {p q d k : Nat} {place : Nat → Nat}

theorem Travels.reaches (h : b.Travels p d k) : b.Reaches p d := by
  induction h with
  | start => exact .start
  | next _ hn hb ih => exact ih.flow (.next hn hb)
  | jump _ hn hl hq ih => exact ih.flow (.jump hn hl hq)
  | through _ hn hf hc ih => exact ih.flow (.through hn hf hc)
  | resume _ hn hc ih => exact ih.flow (.resume hn hc)
  | handle _ ht hp hh ih => exact ih.handle ht hp hh

/-- Without calls there are none to step over. -/
theorem Travels.no_calls (h : b.Travels p d k)
    (hb : ∀ br, Node.branch br ∈ b.nodes → br.isCall = false) : k = 0 := by
  induction h with
  | start => rfl
  | next _ _ _ ih => exact ih
  | jump _ _ _ _ ih => exact ih
  | through _ _ _ _ ih => exact ih
  | resume _ hn hc _ =>
    rw [hb _ (List.mem_of_getElem? ((nodes_get? b _).trans hn))] at hc
    cases hc
  | handle _ _ _ _ _ => rfl

theorem Travels.near (h : b.Travels p d k) (hq : b.Nears p q) : b.Travels q d k := by
  obtain ⟨hle, hpseudo⟩ := hq
  induction hle with
  | refl => exact h
  | @step q hle ih =>
    obtain ⟨n, hn, hp⟩ := hpseudo q hle (Nat.lt_succ_self q)
    have hstep := (ih fun r hr hlt => hpseudo r hr (Nat.lt_succ_of_lt hlt)).next hn
      (Node.branch?_pseudo hp)
    rwa [Node.depthAfter_pseudo hp] at hstep

section Embedded

variable (h : b.Embeds (fun n => n.isPseudo = true) b' place)
include h

theorem Protects.placed {t : TryBlock} (hp : b.Protects t p) : b'.Protects t (place p) := by
  obtain ⟨start, stop, n, hs, he, hlo, hhi, hn, hr⟩ := hp
  exact ⟨place start, place stop, n, h.labelPosition?_place hs, h.labelPosition?_place he,
    h.le_iff.mpr hlo, h.lt_iff.mpr hhi, (h.get?_place p).trans hn, hr⟩

theorem Protects.back {t : TryBlock} (hb : b.Bounded t) (hp : b'.Protects t (place p)) :
    b.Protects t p := by
  obtain ⟨start', stop', n, hs', he', hlo, hhi, hn, hr⟩ := hp
  obtain ⟨start, stop, hs, he⟩ := hb
  cases Option.some.inj (hs'.symm.trans (h.labelPosition?_place hs))
  cases Option.some.inj (he'.symm.trans (h.labelPosition?_place he))
  exact ⟨start, stop, n, hs, he, h.le_iff.mp hlo, h.lt_iff.mp hhi, (h.get?_place p).symm.trans hn, hr⟩

theorem Travels.placed (ht : b.Travels p d k) : b'.Travels (place p) d k := by
  have hnode {p : Nat} {n : Node} (hn : b.get? p = some n) : b'.get? (place p) = some n :=
    (h.get?_place p).trans hn
  induction ht with
  | start => exact Travels.start.near (.first h)
  | next _ hn hb ih => exact (ih.next (hnode hn) hb).near (.next h _)
  | jump _ hn hl hq ih => exact ih.jump (hnode hn) hl (h.labelPosition?_place hq)
  | through _ hn hf hc ih => exact (ih.through (hnode hn) hf hc).near (.next h _)
  | resume _ hn hc ih => exact (ih.resume (hnode hn) hc).near (.next h _)
  | handle _ ht hp hh ih =>
    exact ih.handle (h.tryBlocks.symm ▸ ht) (hp.placed h) (h.labelPosition?_place hh)

/-- A path in the larger body is one in the smaller body, if the labels on it were placed there. -/
theorem Travels.back (hc : b.Closed) (ht : b'.Travels q d k) :
    ∃ p, b.Travels p d k ∧ b'.Nears q (place p) := by
  have real {q p : Nat} {n : Node} (hnear : b'.Nears q (place p)) (hn : b'.get? q = some n)
      (hr : n.isPseudo = false) : q = place p ∧ b.get? p = some n := by
    have he := hnear.real hn hr
    exact ⟨he, by rw [← h.get?_place, ← he, hn]⟩
  induction ht with
  | start => exact ⟨0, .start, .first h⟩
  | @next q d k n _ hn hb ih =>
    obtain ⟨p, hp, hnear⟩ := ih
    rcases Nat.lt_or_eq_of_le hnear.1 with hlt | rfl
    · obtain ⟨m, hm, hpseudo⟩ := hnear.2 q (Nat.le_refl q) hlt
      cases Option.some.inj (hn.symm.trans hm)
      rw [Node.depthAfter_pseudo hpseudo]
      exact ⟨p, hp, hnear.step hlt⟩
    · rw [h.get?_place] at hn
      exact ⟨p + 1, hp.next hn hb, .next h p⟩
  | jump _ hn hl hq ih =>
    obtain ⟨p, hp, hnear⟩ := ih
    obtain ⟨rfl, hold⟩ := real hnear hn rfl
    obtain ⟨r, hr⟩ := hc.targets p _ _ hp.reaches hold _ hl
    cases Option.some.inj (hq.symm.trans (h.labelPosition?_place hr))
    exact ⟨r, hp.jump hold hl hr, .refl b' _⟩
  | through _ hn hf hcall ih =>
    obtain ⟨p, hp, hnear⟩ := ih
    obtain ⟨rfl, hold⟩ := real hnear hn rfl
    exact ⟨p + 1, hp.through hold hf hcall, .next h p⟩
  | resume _ hn hcall ih =>
    obtain ⟨p, hp, hnear⟩ := ih
    obtain ⟨rfl, hold⟩ := real hnear hn rfl
    exact ⟨p + 1, hp.resume hold hcall, .next h p⟩
  | handle _ ht hp hh ih =>
    obtain ⟨p, hr, hnear⟩ := ih
    obtain ⟨-, -, n, -, -, -, -, hn, hreal⟩ := id hp
    obtain ⟨rfl, -⟩ := real hnear hn hreal
    rw [h.tryBlocks] at ht
    have hp := hp.back h (hc.bounds _ ht)
    obtain ⟨r, hr'⟩ := hc.handlers _ ht p _ hr.reaches hp
    cases Option.some.inj (hh.symm.trans (h.labelPosition?_place hr'))
    exact ⟨r, hr.handle ht hp hr', .refl b' _⟩

end Embedded

/-- Wherever a path leads, there are as many slots as are popped. -/
def Affords (b : Body) : Prop :=
  ∀ p d k n, b.Travels p d k → b.get? p = some n → n.slots.popped ≤ d

theorem Affords.placed (h : b.Embeds (fun n => n.isPseudo = true) b' place) (hc : b.Closed)
    (hb : b.Balanced) : b'.Affords := by
  intro q d k n ht hn
  cases hr : n.isPseudo with
  | true =>
    cases n with
    | insn i => cases hr
    | branch br => cases hr
    | label l | line m | frame f => exact Nat.zero_le d
  | false =>
    obtain ⟨p, hp, hnear⟩ := ht.back h hc
    cases hnear.real hn hr
    rw [h.get?_place] at hn
    exact (hb p d hp.reaches).2.2 n hn

/-- Some path leads to the position with a stack as wide as that of the frame. -/
def Traced (b : Body) (p : Nat) (f : Frame) : Prop := ∃ d k, b.Travels p d k ∧ f.width = d + k

variable {c : BinaryName} {isHead : Nat → Prop} {head : Nat} {start f : Frame}

/-- Flow goes forward, so that it does not come by its head again. -/
theorem Passes.at_head (h : b.Passes c isHead head start p f) (hp : p = head) : f = start := by
  cases h with
  | start => rfl
  | pseudo h | insn h | branch h =>
    have := h.le
    omega

theorem Passes.traced (haff : b.Affords) (h : b.Passes c isHead head start p f)
    (hs : b.Traced head start) : b.Traced p f := by
  induction h with
  | start => exact hs
  | pseudo _ hn hp ih =>
    obtain ⟨d, k, ht, hw⟩ := ih
    have hnext := ht.next hn (Node.branch?_pseudo hp)
    rw [Node.depthAfter_pseudo hp] at hnext
    exact ⟨d, k, hnext, hw⟩
  | insn _ hrun hstep ih =>
    obtain ⟨d, k, ht, hw⟩ := ih
    exact ⟨_, k, ht.next hrun.node rfl,
      Node.width_depthAfter hw (haff _ _ _ _ ht hrun.node) (Frame.width_step hstep)⟩
  | @branch p f f' br _ hrun hbr hf ih =>
    obtain ⟨d, k, ht, hw⟩ := ih
    have hwidth := Frame.width_branch (Branch.ne_athrow_of_falls hf) hbr
    cases hc : br.isCall with
    | true =>
      refine ⟨d, k + 1, ht.resume hrun.node hc, ?_⟩
      rw [Branch.slots_call hc] at hwidth
      dsimp only at hwidth
      omega
    | false =>
      exact ⟨_, k, ht.through hrun.node hf hc,
        Node.width_depthAfter hw (haff _ _ _ _ ht hrun.node) hwidth⟩

theorem Sends.traced (haff : b.Affords) (h : b.Sends c isHead head start q f)
    (hs : b.Traced head start) : b.Traced q f := by
  cases h with
  | falls hp => exact hp.traced haff hs
  | @jumps p q f₀ f br l hp hrun hbr hl hq =>
    obtain ⟨d, k, ht, hw⟩ := hp.traced haff hs
    obtain ⟨r, hr, hi⟩ := targetPosition_ok.mp hq
    have hwidth := Frame.width_branch (Branch.ne_athrow_of_target hl) hbr
    exact ⟨_, k, (ht.jump hrun.node hl hr).near (.instruction hi),
      Node.width_depthAfter hw (haff _ _ _ _ ht hrun.node) hwidth⟩
  | @throws p f n t x hp hrun ht hx hlo hhi =>
    obtain ⟨d, k, htravels, -⟩ := hp.traced haff hs
    obtain ⟨hhead, hstart, hstop, hcaught⟩ := handler_ok.mp hx
    obtain ⟨r, hr, hi⟩ := targetPosition_ok.mp hhead
    have hprotects : b.Protects t p := ⟨_, _, n, hstart, hstop, hlo, hhi, hrun.node, hrun.real⟩
    refine ⟨1, 0, (htravels.handle ht hprotects hr).near (.instruction hi), ?_⟩
    rw [Frame.width, hcaught]
    rfl

end Body

end ClassGraft
