import ClassGraft.Proofs.NodeInsertion
import ClassGraft.Proofs.TypeFlow

namespace ClassGraft

namespace Body

/-- One body embeds another one with the same heads and the same labels of `new`. -/
structure Carries (b b' : Body) (isHead isHead' : Nat → Prop) (place : Nat → Nat) : Prop where
  embeds : b.Embeds (fun n => n.isPseudo = true) b' place
  heads : ∀ p n, b.get? p = some n → n.isPseudo = false → (isHead' (place p) ↔ isHead p)
  sites : ∀ p, b'.site? (place p) = b.site? p
  targets : ∀ p br l, b.get? p = some (.branch br) → l ∈ br.targets → ∃ q, b.targetPosition l = .ok q
  handlers : ∀ t ∈ b.tryBlocks, ∃ h, b.handler t = .ok h

variable {b b' : Body} {c : BinaryName} {isHead isHead' : Nat → Prop} {place : Nat → Nat}
  {head p q : Nat} {n : Node} {start f : Frame}

/-- A position from which only pseudo nodes lead up to another one. -/
def Nears (b : Body) (q r : Nat) : Prop :=
  q ≤ r ∧ ∀ k, q ≤ k → k < r → ∃ n, b.get? k = some n ∧ n.isPseudo = true

theorem Nears.refl (b : Body) (p : Nat) : b.Nears p p :=
  ⟨Nat.le_refl p, fun _ hk hlt => absurd hlt (Nat.not_lt.mpr hk)⟩

/-- Only new nodes come before the first old one. -/
theorem Nears.first (h : b.Embeds (fun n => n.isPseudo = true) b' place) :
    b'.Nears 0 (place 0) :=
  ⟨Nat.zero_le _, fun _ _ hlt => h.before hlt⟩

theorem Nears.next (h : b.Embeds (fun n => n.isPseudo = true) b' place) (p : Nat) :
    b'.Nears (place p + 1) (place (p + 1)) :=
  ⟨h.mono (Nat.lt_succ_self p), fun _ hk hlt => h.between hk hlt⟩

/-- On the way there each pseudo node brings one nearer. -/
theorem Nears.step (h : b.Nears q p) (hlt : q < p) : b.Nears (q + 1) p :=
  ⟨hlt, fun k hk => h.2 k (Nat.le_of_succ_le hk)⟩

theorem Nears.instruction (h : b.instructionFrom? p = some q) : b.Nears p q :=
  have h := instructionFrom?_eq_some.mp h
  ⟨h.1, h.2.2⟩

theorem Nears.real (h : b'.Nears q p) (hn : b'.get? q = some n) (hr : n.isPseudo = false) :
    q = p := by
  rcases Nat.lt_or_eq_of_le h.1 with hlt | he
  · obtain ⟨m, hm, hp⟩ := h.2 q (Nat.le_refl q) hlt
    cases Option.some.inj (hn.symm.trans hm)
    rw [hr] at hp
    cases hp
  · exact he

namespace Carries

theorem runs_back (h : b.Carries b' isHead isHead' place)
    (hrun : b'.Runs isHead' (place head) (place p) n) : b.Runs isHead head p n := by
  have hn : b.get? p = some n := by rw [← h.embeds.get?_place, hrun.node]
  refine ⟨hn, hrun.real, ?_⟩
  rcases hrun.within with he | hh
  · exact .inl (h.embeds.inj he)
  · exact .inr fun hp => hh ((h.heads p n hn hrun.real).mpr hp)

/-- Whatever is passed in the larger body is passed in the smaller one, but for new nodes. -/
theorem passes_back (h : b.Carries b' isHead isHead' place)
    (hp : b'.Passes c isHead' (place head) start q f) :
    ∃ p, b.Passes c isHead head start p f ∧ b'.Nears q (place p) := by
  induction hp with
  | start => exact ⟨head, .start, .refl b' _⟩
  | @pseudo q f n _ hn hr ih =>
    obtain ⟨p, hp, hnear⟩ := ih
    rcases Nat.lt_or_eq_of_le hnear.1 with hlt | rfl
    · exact ⟨p, hp, hnear.step hlt⟩
    · rw [h.embeds.get?_place] at hn
      exact ⟨p + 1, hp.pseudo hn hr, .next h.embeds p⟩
  | insn _ hrun hstep ih =>
    obtain ⟨p, hp, hnear⟩ := ih
    cases hnear.real hrun.node hrun.real
    rw [h.sites] at hstep
    exact ⟨p + 1, hp.insn (h.runs_back hrun) hstep, .next h.embeds p⟩
  | branch _ hrun hbr ht ih =>
    obtain ⟨p, hp, hnear⟩ := ih
    cases hnear.real hrun.node hrun.real
    exact ⟨p + 1, hp.branch (h.runs_back hrun) hbr ht, .next h.embeds p⟩

theorem passes_back_real (h : b.Carries b' isHead isHead' place)
    (hp : b'.Passes c isHead' (place head) start q f) (hn : b'.get? q = some n)
    (hr : n.isPseudo = false) : ∃ p, q = place p ∧ b.Passes c isHead head start p f := by
  obtain ⟨p, hp, hnear⟩ := h.passes_back hp
  exact ⟨p, hnear.real hn hr, hp⟩

theorem target_back (h : b.Carries b' isHead isHead' place) {br : Branch Label} {l : Label}
    (hn : b.get? p = some (.branch br)) (hl : l ∈ br.targets) (hq : b'.targetPosition l = .ok q) :
    ∃ r, q = place r ∧ b.targetPosition l = .ok r := by
  obtain ⟨r, hr⟩ := h.targets p br l hn hl
  exact ⟨r, Except.ok.inj (hq.symm.trans (h.embeds.targetPosition_place (fun _ hn => hn) hr)), hr⟩

theorem sends_back (h : b.Carries b' isHead isHead' place)
    (hs : b'.Sends c isHead' (place head) start q f) :
    ∃ p, q = place p ∧ b.Sends c isHead head start p f := by
  cases hs with
  | falls hp hn hr hne hh =>
    obtain ⟨p, rfl, hback⟩ := h.passes_back_real hp hn hr
    rw [h.embeds.get?_place] at hn
    exact ⟨p, rfl, .falls hback hn hr (fun he => hne (he ▸ rfl)) ((h.heads p _ hn hr).mp hh)⟩
  | jumps hp hrun hbr hl hq =>
    obtain ⟨p, rfl, hback⟩ := h.passes_back_real hp hrun.node hrun.real
    have hrun := h.runs_back hrun
    obtain ⟨r, rfl, hr⟩ := h.target_back hrun.node hl hq
    exact ⟨r, rfl, .jumps hback hrun hbr hl hr⟩
  | throws hp hrun ht hh hlo hhi =>
    obtain ⟨p, rfl, hback⟩ := h.passes_back_real hp hrun.node hrun.real
    rw [h.embeds.tryBlocks] at ht
    obtain ⟨x, hx⟩ := h.handlers _ ht
    cases Except.ok.inj (hh.symm.trans (h.embeds.handler_place (fun _ hn => hn) hx))
    exact ⟨x.head, rfl, .throws hback (h.runs_back hrun) ht hx (h.embeds.le_iff.mp hlo)
      (h.embeds.lt_iff.mp hhi)⟩

theorem checks (h : b.Carries b' isHead isHead' place) (hc : b.Checks c isHead head start) :
    b'.Checks c isHead' (place head) start where
  inside q f hq := by
    obtain ⟨p, hp, hle, hnew⟩ := h.passes_back hq
    rcases Nat.lt_or_eq_of_le hle with hlt | rfl
    · obtain ⟨n, hn, -⟩ := hnew q (Nat.le_refl q) hlt
      exact lt_size_of_get? hn
    · exact h.embeds.place_lt_size (hc.inside p f hp)
  steps q f i hq hrun := by
    obtain ⟨p, rfl, hp⟩ := h.passes_back_real hq hrun.node hrun.real
    rw [h.sites]
    exact hc.steps p f i hp (h.runs_back hrun)
  branches q f br hq hrun := by
    obtain ⟨p, rfl, hp⟩ := h.passes_back_real hq hrun.node hrun.real
    obtain ⟨hbr, ht⟩ := hc.branches p f br hp (h.runs_back hrun)
    refine ⟨hbr, fun l hl => ?_⟩
    obtain ⟨r, hr⟩ := ht l hl
    exact ⟨place r, h.embeds.targetPosition_place (fun _ hn => hn) hr⟩

end Carries

end Body

end ClassGraft
