import ClassGraft.Proofs.InferredBodies

namespace ClassGraft

namespace Body

variable {b b' : Body} {entry : Frame} {c : BinaryName} {p q : Nat} {place : Nat → Nat}

/-- An instruction that had a frame before others were inserted. -/
def Given (b : Body) (place : Nat → Nat) (q : Nat) : Prop :=
  ∃ p n, place p = q ∧ b.get? p = some n ∧ n.isPseudo = false ∧ (b.declared? p).isSome = true

namespace Inferred

variable {n first : Nat} {isPoint : Nat → Bool} {g : FlowGraph} {s : FlowState}
  {missing : List Arrival}

/-- What was taken in at an instruction is absorbed by the frame there, if that was not given. -/
theorem absorbed (h : b.Inferred b' entry n first isPoint g s missing)
    (hf : b.FramesInserted b' missing place) (hs : Settled .absorption b entry first g s) {f : Frame} {i : Node}
    (hi : b.get? p = some i) (hr : i.isPseudo = false) (hp : g.Head p) (hhold : s.Holds .absorption b (p, f))
    (hg : ¬ b.Given place (place p)) : (b'.headFrame entry (place p)).Absorbs f := by
  have hd : b.declared? p = none := by
    cases hd : b.declared? p with
    | none => rfl
    | some k => exact absurd ⟨p, i, rfl, hi, hr, by rw [hd]; rfl⟩ hg
  obtain ⟨known, hk, habs⟩ := hhold
  have hframe := h.headFrame_place hf hs hp
  rw [hd, Option.none_or, hk] at hframe
  exact Option.some.inj hframe ▸ habs hd

theorem consistent (h : b.Inferred b' entry n first isPoint g s missing)
    (hf : b.FramesInserted b' missing place) (hpad : ∀ p f, b.declared? p = some f → f.Padded)
    (hentry : entry.Padded) : b'.Consistent entry g.thisClass (b.Given place) := by
  have hs := h.settled (h.proper (I := .absorption) hpad g.preserves_padded) hentry
  refine ⟨fun q hq hg => ?_, fun q hq => ?_, fun q r f hq hsend hg => ?_⟩
  · rw [hf.embeds.instructionFrom?_zero fun _ hn => hn.pseudo, h.entered] at hq
    cases Option.some.inj hq
    obtain ⟨-, i, hi, hr⟩ := instructionFrom?_spec h.entered
    exact h.absorbed hf hs hi hr (h.head_iff.mpr (.inl rfl)) hs.entered hg
  · obtain ⟨p, k, rfl, hp, hk⟩ := h.reached_back hf hs hq
    exact (h.carries hf).checks (h.followed hf hs hp hk).1
  · obtain ⟨p, k, rfl, hp, hk⟩ := h.reached_back hf hs hq
    obtain ⟨r, rfl, hback⟩ := (h.carries hf).sends_back hsend
    obtain ⟨hhead, hhold⟩ := (h.followed hf hs hp hk).2 r f hback
    obtain ⟨i, hi, hr⟩ := hback.instruction
    exact h.absorbed hf hs hi hr hhead hhold hg

/-- Every instruction that needs a frame has one in the end. -/
theorem framed (h : b.Inferred b' entry n first isPoint g s missing)
    (hf : b.FramesInserted b' missing place) (hq : b'.NeedsFrame q) :
    (b'.declared? q).isSome = true := by
  have hmark : ∀ n, IsMark n → n.isPseudo = true := fun _ hn => hn.pseudo
  suffices ∃ p, q = place p ∧ b.NeedsFrame p by
    obtain ⟨p, rfl, hp⟩ := this
    exact (h.framed_iff hf).mpr (.inl hp)
  cases hq with
  | target hn hl hq =>
    obtain ⟨p, rfl, hold⟩ := hf.embeds.real hmark hn rfl
    obtain ⟨r, rfl, hr⟩ := (h.carries hf).target_back hold hl hq
    exact ⟨r, rfl, .target hold hl hr⟩
  | behind hn hfalls hi =>
    obtain ⟨p, rfl, hold⟩ := hf.embeds.real hmark hn rfl
    rw [hf.embeds.instructionFrom?_next hmark, hf.embeds.instructionFrom?_place hmark] at hi
    obtain ⟨r, hr, rfl⟩ := Option.map_eq_some_iff.mp hi
    exact ⟨r, rfl, .behind hold hfalls hr⟩
  | handler ht hq =>
    rw [hf.embeds.tryBlocks] at ht
    obtain ⟨x, hx⟩ := mapM_ok_each h.handlers _ ht
    have hx := (handler_ok.mp hx).1
    exact ⟨x.head, Except.ok.inj (hq.symm.trans (hf.embeds.targetPosition_place hmark hx)),
      .handler ht hx⟩

end Inferred

theorem Consistent.imp {given given' : Nat → Prop} (h : b.Consistent entry c given)
    (hi : ∀ q n, b.get? q = some n → n.isPseudo = false → given q → given' q) :
    b.Consistent entry c given' := by
  refine ⟨fun p hp hg => h.enters p hp fun hq => hg ?_, h.checks,
    fun p q f hp hs hg => h.absorbs p q f hp hs fun hq => hg ?_⟩
  · obtain ⟨-, n, hn, hr⟩ := instructionFrom?_spec hp
    exact hi p n hn hr hq
  · obtain ⟨n, hn, hr⟩ := hs.instruction
    exact hi q n hn hr hq

theorem consistent_of_empty (h : b.instructionFrom? 0 = none) (given : Nat → Prop) :
    b.Consistent entry c given := by
  have hreached {p : Nat} (hp : b.Reached entry c p) : False := by
    induction hp with
    | first hp => rw [h] at hp; cases hp
    | sent _ _ ih => exact ih
  exact ⟨fun p hp => (hreached (.first hp)).elim, fun p hp => (hreached hp).elim,
    fun p q f hp => (hreached hp).elim⟩

theorem Embeds.labelTargetId {added : Node → Prop} (h : b.Embeds added b' place)
    (hadded : ∀ n, added n → n.isPseudo = true) {l : Label} (hl : b.isPlaced l = true) :
    b'.labelTargetId l = b.labelTargetId l := by
  unfold Body.labelTargetId
  rw [h.labelTarget_place hadded hl]
  cases b.labelTarget l with
  | error e => rfl
  | ok p =>
    cases p with
    | none => rfl
    | some p => exact congrArg Except.ok (by simp [idAt?, h.kept])

theorem labelled_frames {least : Nat} (h : b.Embeds (IsNewLabel least) b' place) {f : Frame}
    (hf : Node.frame f ∈ b'.nodes) : Node.frame f ∈ b.nodes := by
  obtain ⟨q, hq⟩ := List.mem_iff_getElem?.mp hf
  rw [nodes_get?] at hq
  rcases h.fresh q with ⟨p, rfl⟩ | ⟨id, n, hn, hl, -⟩
  · rw [h.get?_place] at hq
    exact List.mem_of_getElem? ((nodes_get? b p).trans hq)
  · cases Option.some.inj (hq.symm.trans (get?_of_entry hn))
    obtain ⟨l, hl, -⟩ := hl
    cases hl

/-- Inferred frames are sound: with the labels of `new` and `n` frames the body is otherwise the same,
every point that needs a frame has one, and the types that flow agree with all frames that have been
added. -/
theorem inferFrames_consistent {n : Nat} (hentry : entry.Padded)
    (hpad : ∀ f, Node.frame f ∈ b.nodes → f.Padded) (h : b.inferFrames entry c = .ok (n, b')) :
    ∃ place, b.Annotates b' n place ∧ (∀ q, b'.NeedsFrame q → (b'.declared? q).isSome = true) ∧
      b'.Consistent entry c (b.Given place) := by
  have hmark : ∀ n, IsMark n → n.isPseudo = true := fun _ hn => hn.pseudo
  obtain ⟨b₁, hlabels, hparts⟩ := inferFrames_ok h
  obtain ⟨place₁, he, hcount, hdeclared⟩ := labelSites_embeds hlabels
  have he₁ : b.Embeds IsMark b₁ place₁ := he.imp fun _ hn => hn.mark
  rcases hparts with ⟨hnone, rfl, rfl⟩ | ⟨first, isPoint, g, s, missing, rfl, hparts⟩
  · refine ⟨place₁, ⟨he₁, hcount, fun l hl => he₁.labelTargetId hmark hl, fun p i f _ _ hd => ?_⟩,
      fun q hq => ?_, consistent_of_empty hnone _⟩
    · rw [hdeclared, hd]
    · obtain ⟨i, hi, hr⟩ := hq.instruction
      obtain ⟨r, hr, -⟩ := instructionFrom?_least (Nat.zero_le q) hi hr
      rw [hnone] at hr
      cases hr
  · obtain ⟨place₂, hf⟩ := hparts.inserted
    have hpad₁ (p : Nat) (f : Frame) (hd : b₁.declared? p = some f) : f.Padded := by
      obtain ⟨q, m, -, hm, hmf, -⟩ := lastBefore?_mem hd
      refine hpad f (labelled_frames he ?_)
      cases m with
      | frame k => cases hmf; exact List.mem_of_getElem? ((nodes_get? _ q).trans hm)
      | _ => cases hmf
    have hall := he₁.trans hf.embeds
    refine ⟨fun p => place₂ (place₁ p), ⟨hall, ?_, fun l hl => hall.labelTargetId hmark hl,
      fun p i f hi hr hd => ?_⟩, fun q hq => hparts.framed hf hq,
      (hparts.consistent hf hpad₁ hentry).imp fun q i hi hr hg => ?_⟩
    · rw [hf.frameCount, hcount, hparts.count]
    · rw [hf.others _ fun hm => ?_, hdeclared, hd]
      have := (hparts.mem_missing.mp hm).2
      rw [hdeclared, hd] at this
      cases this
    · obtain ⟨r, j, rfl, hj, hrj, hd⟩ := hg
      obtain ⟨p, rfl, hp⟩ := he₁.real hmark hj hrj
      exact ⟨p, j, rfl, hp, hrj, by rwa [hdeclared] at hd⟩

/-- A way around an allocation, in a method that takes an `int` and a `long`. -/
def detour : Body := {
  Body.empty with
  entries := #[(⟨0⟩, .insn (.load .int 0)), (⟨1⟩, .branch (.ifZero .eq ⟨0⟩)),
    (⟨2⟩, .insn (.new BinaryName.object)), (⟨3⟩, .insn (.store .ref 0)), (⟨4⟩, .label ⟨0⟩),
    (⟨5⟩, .branch (.leave none))]
  nextId := 6
  nextLabel := 1 }

def framedDetour : Body := {
  detour with
  entries := #[(⟨0⟩, .insn (.load .int 0)), (⟨1⟩, .branch (.ifZero .eq ⟨0⟩)), (⟨6⟩, .label ⟨1⟩),
    (⟨2⟩, .insn (.new BinaryName.object)), (⟨3⟩, .insn (.store .ref 0)), (⟨4⟩, .label ⟨0⟩),
    (⟨7⟩, .frame ⟨[.top, .long, .top], []⟩), (⟨5⟩, .branch (.leave none))]
  nextId := 8
  nextLabel := 2
  version := 2 }

theorem detour_consistent :
    Frame.Padded ⟨[.integer, .long, .top], []⟩ ∧ (∀ f, Node.frame f ∈ detour.nodes → f.Padded) ∧
      detour.inferFrames ⟨[.integer, .long, .top], []⟩ BinaryName.object = .ok (1, framedDetour) ∧
      ∃ place, detour.Annotates framedDetour 1 place ∧
        (∀ q, framedDetour.NeedsFrame q → (framedDetour.declared? q).isSome = true) ∧
        framedDetour.Consistent ⟨[.integer, .long, .top], []⟩ BinaryName.object
          (detour.Given place) := by
  have hentry : Frame.Padded ⟨[.integer, .long, .top], []⟩ := by
    intro i t hi hw
    match i with
    | 0 => cases hi; cases hw
    | 1 => rfl
    | 2 => cases hi; cases hw
    | i + 3 => cases hi
  have hpad : ∀ f, Node.frame f ∈ detour.nodes → f.Padded := by
    intro f hf
    simp [detour, nodes] at hf
  have h : detour.inferFrames ⟨[.integer, .long, .top], []⟩ BinaryName.object =
      .ok (1, framedDetour) := by cbv
  exact ⟨hentry, hpad, h, inferFrames_consistent hentry hpad h⟩

end Body

end ClassGraft
