import ClassGraft.Proofs.FlowEmbedding
import ClassGraft.Proofs.FlowFixpoint
import ClassGraft.Proofs.LabelPlans
import Mathlib

namespace ClassGraft

namespace Body

/-- What inference adds. -/
def IsMark (n : Node) : Prop := n.label?.isSome = true ∨ n.isFrame = true

theorem IsMark.pseudo {n : Node} (h : IsMark n) : n.isPseudo = true := by
  cases n with
  | label l => rfl
  | line n => rfl
  | frame f => rfl
  | insn i => rcases h with h | h <;> cases h
  | branch br => rcases h with h | h <;> cases h

/-- The id of the instruction that a label designates. -/
def labelTargetId (b : Body) (l : Label) : Except ClassError (Option NodeId) :=
  (b.labelTarget l).map fun p => p.bind b.idAt?

/-- A body with more labels and with `count` more frames, which is otherwise the same. -/
structure Annotates (b b' : Body) (count : Nat) (place : Nat → Nat) : Prop where
  embeds : b.Embeds IsMark b' place
  frameCount : b'.frameCount = b.frameCount + count
  targets : ∀ l, b.isPlaced l = true → b'.labelTargetId l = b.labelTargetId l
  given : ∀ p n f, b.get? p = some n → n.isPseudo = false → b.declared? p = some f →
    b'.declared? (place p) = some f

/-- Jump targets, handlers and everything behind a branch that does not fall through need a frame. -/
inductive NeedsFrame (b : Body) (q : Nat) : Prop
  | target {p : Nat} {br : Branch Label} {l : Label} : b.get? p = some (.branch br) →
      l ∈ br.targets → b.targetPosition l = .ok q → NeedsFrame b q
  | behind {p : Nat} {br : Branch Label} : b.get? p = some (.branch br) →
      br.fallsThrough = false → b.instructionFrom? (p + 1) = some q → NeedsFrame b q
  | handler {t : TryBlock} : t ∈ b.tryBlocks → b.targetPosition t.handler = .ok q → NeedsFrame b q

/-- Heads are the first instruction and those with frames. -/
def IsHead (b : Body) (p : Nat) : Prop :=
  b.instructionFrom? 0 = some p ∨ (b.declared? p).isSome = true

/-- The frame at a head. Where the first instruction has none, nothing comes to it but the entry. -/
def headFrame (b : Body) (entry : Frame) (p : Nat) : Frame := (b.declared? p).getD entry.trim

/-- The heads that flow reaches. -/
inductive Reached (b : Body) (entry : Frame) (c : BinaryName) : Nat → Prop
  | first {p : Nat} : b.instructionFrom? 0 = some p → Reached b entry c p
  | sent {p q : Nat} {f : Frame} : Reached b entry c p →
      b.Sends c b.IsHead p (b.headFrame entry p) q f → Reached b entry c q

/-- The frames of a body agree with the flow of types, but for the frames that were given. -/
structure Consistent (b : Body) (entry : Frame) (c : BinaryName) (given : Nat → Prop) : Prop where
  enters : ∀ p, b.instructionFrom? 0 = some p → ¬ given p → (b.headFrame entry p).Absorbs entry
  checks : ∀ p, b.Reached entry c p → b.Checks c b.IsHead p (b.headFrame entry p)
  absorbs : ∀ p q f, b.Reached entry c p → b.Sends c b.IsHead p (b.headFrame entry p) q f →
    ¬ given q → (b.headFrame entry q).Absorbs f

variable {b b' : Body} {p q : Nat} {place : Nat → Nat}

/-- A label that was not made before. -/
def IsNewLabel (least : Nat) (n : Node) : Prop := ∃ l, n = .label l ∧ least ≤ l.index

theorem IsNewLabel.mark {least : Nat} {n : Node} (h : IsNewLabel least n) : IsMark n := by
  obtain ⟨l, rfl, -⟩ := h
  exact .inl rfl

theorem labelSite_embeds {id : NodeId} {least : Nat} (hleast : least ≤ b.nextLabel)
    (h : b.labelSite id = .ok b') :
    ∃ place, b.Embeds (IsNewLabel least) b' place ∧ least ≤ b'.nextLabel ∧
      b'.frameCount = b.frameCount ∧ ∀ p, b'.declared? (place p) = b.declared? p := by
  obtain ⟨p, hp, h⟩ := except_bind_ok.mp h
  split at h
  next =>
    cases h
    exact ⟨fun p => p, .refl _ b, hleast, rfl, fun _ => rfl⟩
  next =>
    obtain ⟨⟨_, b₁⟩, hi, h⟩ := except_bind_ok.mp h
    cases h
    have hle : p ≤ b.size := Nat.le_of_lt (position_lt (position_ok.mp hp))
    refine ⟨shift p, ?_, ?_, ?_, fun q =>
      (lastBefore?_shift (b := b.newLabel.2) (f := Node.frame?) hle rfl rfl hi q).trans
        (lastBefore?_congr fun _ _ => rfl)⟩
    · have he : Embeds (IsNewLabel least) b.newLabel.2 b₁ (shift p) :=
        insertUnrecorded_embeds hle ⟨_, rfl, hleast⟩ rfl hi
      exact ⟨he.mono, he.kept, he.fresh, he.instructions, he.nextId, he.edits, he.tryBlocks,
        he.locals⟩
    · obtain ⟨rfl, -⟩ := insertUnrecorded_ok hi
      exact Nat.le_succ_of_le hleast
    · exact insertUnrecorded_frameCount hi

theorem labelSites_embeds (h : b.labelSites = .ok b') :
    ∃ place, b.Embeds (IsNewLabel b.nextLabel) b' place ∧ b'.frameCount = b.frameCount ∧
      ∀ p, b'.declared? (place p) = b.declared? p := by
  unfold labelSites at h
  generalize (b.entries.toList.filter fun e => e.2.isNew).map Prod.fst = ids at h
  obtain ⟨least, hleast, he⟩ : ∃ least, least ≤ b.nextLabel ∧ least = b.nextLabel :=
    ⟨_, Nat.le_refl _, rfl⟩
  rw [← he]
  clear he
  induction ids generalizing b with
  | nil =>
    cases h
    exact ⟨fun p => p, .refl _ _, rfl, fun _ => rfl⟩
  | cons id ids ih =>
    rw [List.foldlM_cons] at h
    obtain ⟨b₁, h₁, h⟩ := except_bind_ok.mp h
    obtain ⟨place₁, he₁, hl₁, hc₁, hd₁⟩ := labelSite_embeds hleast h₁
    obtain ⟨place₂, he₂, hc₂, hd₂⟩ := ih h hl₁
    exact ⟨fun p => place₂ (place₁ p), he₁.trans he₂, hc₂.trans hc₁,
      fun p => (hd₂ _).trans (hd₁ p)⟩

/-- The body with frames inserted, from the last one to the first. -/
def insertFrames (b : Body) (missing : List Arrival) : Except ClassError Body :=
  missing.reverse.foldlM (fun b m => return (← b.insertUnrecorded m.1 (.frame m.2)).2) b

/-- The frame of the first instruction comes last, into the body that has the others. -/
theorem insertFrames_cons {m : Arrival} {ms : List Arrival}
    (h : b.insertFrames (m :: ms) = .ok b') : ∃ b₁ id, b.insertFrames ms = .ok b₁ ∧
      b₁.insertUnrecorded m.1 (.frame m.2) = .ok (id, b') := by
  rw [insertFrames, List.reverse_cons, List.foldlM_append] at h
  obtain ⟨b₁, h₁, h⟩ := except_bind_ok.mp h
  obtain ⟨b₂, h, he⟩ := except_bind_ok.mp h
  cases he
  obtain ⟨⟨id, _⟩, hi, he⟩ := except_bind_ok.mp h
  cases he
  exact ⟨b₁, id, h₁, hi⟩

/-- What becomes of a body when frames are inserted right before instructions. -/
structure FramesInserted (b b' : Body) (missing : List Arrival) (place : Nat → Nat) : Prop where
  embeds : b.Embeds IsMark b' place
  frameCount : b'.frameCount = b.frameCount + missing.length
  low : ∀ q, (∀ m ∈ missing, q < m.1) → place q = q
  sites : ∀ q, b'.site? (place q) = b.site? q
  inserted : ∀ m ∈ missing, b'.declared? (place m.1) = some m.2
  others : ∀ q, q ∉ missing.map Prod.fst → b'.declared? (place q) = b.declared? q

theorem insertFrames_inserts {missing : List Arrival}
    (hsorted : (missing.map Prod.fst).Pairwise (· < ·))
    (hreal : ∀ m ∈ missing, ∃ n, b.get? m.1 = some n ∧ n.isPseudo = false)
    (h : b.insertFrames missing = .ok b') : ∃ place, b.FramesInserted b' missing place := by
  induction missing generalizing b' with
  | nil =>
    cases h
    exact ⟨fun p => p, .refl IsMark _, rfl, fun _ _ => rfl, fun _ => rfl,
      fun m hm => absurd hm List.not_mem_nil, fun _ _ => rfl⟩
  | cons m ms ih =>
    obtain ⟨p, f⟩ := m
    obtain ⟨b₁, id, h₁, hi⟩ := insertFrames_cons h
    rw [List.map_cons, List.pairwise_cons] at hsorted
    obtain ⟨place, hp⟩ := ih hsorted.2 (fun m hm => hreal m (List.mem_cons_of_mem _ hm)) h₁
    have hlow : place p = p := hp.low p fun m hm => hsorted.1 m.1 (List.mem_map_of_mem hm)
    obtain ⟨n, hn, hr⟩ := hreal (p, f) List.mem_cons_self
    have hn' : b₁.get? p = some n := by
      have := hp.embeds.get?_place p
      rwa [hlow, hn] at this
    have hle : p ≤ b₁.size := Nat.le_of_lt (lt_size_of_get? hn')
    have hdeclared (q : Nat) := lastBefore?_shift_value (f := Node.frame?) hn' hr rfl rfl hi q
    refine ⟨fun q => shift p (place q),
      hp.embeds.trans (insertUnrecorded_embeds hle (.inr rfl) rfl hi), ?_, fun q hq => ?_,
      fun q => ?_, fun m hm => ?_, fun q hq => ?_⟩
    · rw [insertUnrecorded_frameCount hi, hp.frameCount, Nat.add_assoc]
      rfl
    · rw [hp.low q fun m hm => hq m (List.mem_cons_of_mem _ hm)]
      exact if_pos (hq (p, f) List.mem_cons_self)
    · exact (lastBefore?_shift (f := Node.label?) hle rfl rfl hi _).trans (hp.sites q)
    · rcases List.mem_cons.mp hm with rfl | hm
      · exact (hdeclared _).trans (if_pos hlow)
      · have hlt : p < m.1 := hsorted.1 m.1 (List.mem_map_of_mem hm)
        have hne : place m.1 ≠ p := fun he => by
          have := hp.embeds.inj (he.trans hlow.symm)
          omega
        exact ((hdeclared _).trans (if_neg hne)).trans (hp.inserted m hm)
    · rw [List.map_cons, List.mem_cons, not_or] at hq
      have hne : place q ≠ p := fun he => hq.1 (hp.embeds.inj (he.trans hlow.symm))
      exact ((hdeclared _).trans (if_neg hne)).trans (hp.others q hq.2)

theorem pointsOf_ok {qs : List Nat} (h : b.pointsOf p = .ok qs) (q : Nat) :
    q ∈ qs ↔ ∃ br, b.get? p = some (.branch br) ∧
      ((∃ l ∈ br.targets, b.targetPosition l = .ok q) ∨
        br.fallsThrough = false ∧ b.instructionFrom? (p + 1) = some q) := by
  unfold pointsOf at h
  split at h
  next br hn =>
    obtain ⟨ts, hts, h⟩ := except_bind_ok.mp h
    simp only [hn, Option.some.injEq, Node.branch.injEq]
    split at h
    next hf =>
      cases h
      simp [mem_mapM_ok hts, hf]
    next hf =>
      cases h
      simp [mem_mapM_ok hts, hf, Option.mem_toList]
  next hn =>
    cases h
    constructor
    · exact fun hq => absurd hq List.not_mem_nil
    · rintro ⟨br, hbr, -⟩
      exact absurd hbr (hn br)

theorem pointsOf_targets {qs : List Nat} {br : Branch Label} {l : Label}
    (h : b.pointsOf p = .ok qs) (hn : b.get? p = some (.branch br)) (hl : l ∈ br.targets) :
    ∃ q, b.targetPosition l = .ok q := by
  unfold pointsOf at h
  rw [hn] at h
  obtain ⟨ts, hts, -⟩ := except_bind_ok.mp h
  exact mapM_ok_each hts l hl

theorem NeedsFrame.instruction (h : b.NeedsFrame q) :
    ∃ n, b.get? q = some n ∧ n.isPseudo = false := by
  cases h with
  | target _ _ ht => exact targetPosition_instruction ht
  | behind _ _ hi => exact (instructionFrom?_spec hi).2
  | handler _ ht => exact targetPosition_instruction ht

theorem marks_points {points : List (List Nat)} {handlers : List Handler}
    (hpoints : (List.range b.size).mapM b.pointsOf = .ok points)
    (hhandlers : b.tryBlocks.mapM b.handler = .ok handlers) (q : Nat) :
    (marks b.size (points.flatten ++ handlers.map Handler.head))[q]?.getD false = true ↔
      b.NeedsFrame q := by
  rw [marks_get, List.mem_append, List.mem_flatten, List.mem_map]
  constructor
  · rintro ⟨⟨qs, hqs, hq⟩ | ⟨x, hx, rfl⟩, -⟩
    · obtain ⟨p, -, hp⟩ := (mem_mapM_ok hpoints qs).mp hqs
      obtain ⟨br, hn, ⟨l, hl, ht⟩ | ⟨hf, hi⟩⟩ := (pointsOf_ok hp q).mp hq
      · exact .target hn hl ht
      · exact .behind hn hf hi
    · obtain ⟨t, ht, hx⟩ := (mem_mapM_ok hhandlers x).mp hx
      exact .handler ht (handler_ok.mp hx).1
  · intro h
    obtain ⟨i, hi, -⟩ := h.instruction
    refine ⟨?_, lt_size_of_get? hi⟩
    have point {p : Nat} {br : Branch Label} (hn : b.get? p = some (.branch br))
        (hq : (∃ l ∈ br.targets, b.targetPosition l = .ok q) ∨
          br.fallsThrough = false ∧ b.instructionFrom? (p + 1) = some q) :
        ∃ qs ∈ points, q ∈ qs := by
      have hp : p ∈ List.range b.size := List.mem_range.mpr (lt_size_of_get? hn)
      obtain ⟨qs, hqs⟩ := mapM_ok_each hpoints p hp
      exact ⟨qs, (mem_mapM_ok hpoints qs).mpr ⟨p, hp, hqs⟩, (pointsOf_ok hqs q).mpr ⟨br, hn, hq⟩⟩
    cases h with
    | target hn hl ht => exact .inl (point hn (.inl ⟨_, hl, ht⟩))
    | behind hn hf hi => exact .inl (point hn (.inr ⟨hf, hi⟩))
    | handler ht hq =>
      obtain ⟨x, hx⟩ := mapM_ok_each hhandlers _ ht
      exact .inr ⟨x, (mem_mapM_ok hhandlers x).mpr ⟨_, ht, hx⟩,
        Except.ok.inj ((handler_ok.mp hx).1.symm.trans hq)⟩

end Body

end ClassGraft
