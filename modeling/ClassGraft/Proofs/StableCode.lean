import ClassGraft.Proofs.ConstantLoads
import ClassGraft.Proofs.DecodedBodies

namespace ClassGraft

open Pool

section Elements

variable {α β : Type} {x : α → PoolM β} {p q r : Pool} {xs : List α} {ys : List β}

theorem settled_of_mapM (hx : ∀ a, Interns (x a)) (h : xs.mapM x p = (.ok ys, r)) (hl : r.Leads q) :
    List.Forall₂ (fun a b => x a q = (.ok b, q)) xs ys :=
  (Interns.mapM_runs hx h).imp fun a _ ⟨_, _, hrun, _, hl'⟩ => (hx a).again hrun (hl'.trans hl)

theorem mapM_of_settled (h : List.Forall₂ (fun a b => x a q = (.ok b, q)) xs ys) :
    xs.mapM x q = (.ok ys, q) := by
  induction h with
  | nil => rfl
  | cons hb _ ih =>
    rw [List.mapM_cons]
    exact run_bind_ok.mpr ⟨_, q, hb, run_bind_ok.mpr ⟨_, q, ih, rfl⟩⟩

end Elements

/-- Picking elements picks what is written for them. -/
theorem forall₂_filter_some {α β : Type} {R : α → Option β → Prop} (keep : α → Bool) (keep' : β → Bool)
    {xs : List α} {ys : List (Option β)} (h : List.Forall₂ R xs ys)
    (hk : ∀ x z, R x (some z) → keep' z = keep x) : ∃ us, List.Forall₂ R (xs.filter keep) us ∧
      us.filterMap id = (ys.filterMap id).filter keep' := by
  induction h with
  | nil => exact ⟨[], .nil, rfl⟩
  | @cons x y xs ys hxy _ ih =>
    obtain ⟨us, hus, he⟩ := ih
    rw [List.filter_cons]
    split
    next hkeep =>
      refine ⟨y :: us, .cons hxy hus, ?_⟩
      cases y with
      | none => exact he
      | some z =>
        have hz : keep' z = true := (hk x z hxy).trans hkeep
        have hcons (zs : List (Option β)) : (some z :: zs).filterMap id = z :: zs.filterMap id := rfl
        rw [hcons, hcons, List.filter_cons_of_pos hz, he]
    next hdrop =>
      refine ⟨us, hus, he.trans ?_⟩
      cases y with
      | none => rfl
      | some z => simp [hk x z hxy, hdrop]

theorem LocalRange.encode_signature {place : Label → Except ClassError Nat} {v : LocalRange} {p q : Pool}
    {e : LocalEntry × Bool} (h : v.encode place p = (.ok (some e), q)) : e.2 = v.isSignature := by
  obtain ⟨start, _, -, h⟩ := run_bind_ok.mp h
  obtain ⟨stop, _, -, h⟩ := run_bind_ok.mp h
  split at h
  next => cases h
  next =>
    obtain ⟨_, _, -, h⟩ := run_bind_ok.mp h
    obtain ⟨_, _, -, h⟩ := run_bind_ok.mp h
    cases h
    rfl

namespace Body

variable {b : Body} {p q r : Pool} {maxStack maxLocals : UInt16} {entry : Option Frame}
  {c : CodeAttribute} {place : Label → Except ClassError Nat}

/-- The local variables without a signature, and behind them those with one. -/
def sortedLocals (b : Body) : List LocalRange :=
  (b.locals.filter fun v => !v.isSignature) ++ b.locals.filter fun v => v.isSignature

/-- Sorting the local variables keeps the order in which they are written. -/
theorem sortedLocals_encode {vs : List (Option (LocalEntry × Bool))}
    (h : b.locals.mapM (LocalRange.encode place) p = (.ok vs, r)) (hl : r.Leads q) :
    ∃ us, b.sortedLocals.mapM (LocalRange.encode place) q = (.ok us, q) ∧
      ((us.filterMap id).filter fun v => !v.2) = ((vs.filterMap id).filter fun v => !v.2) ∧
      ((us.filterMap id).filter fun v => v.2) = (vs.filterMap id).filter fun v => v.2 := by
  have hsettled := settled_of_mapM (fun v => v.encode_interns) h hl
  obtain ⟨plain, hplain, hp⟩ := forall₂_filter_some (fun v => !v.isSignature) (fun e => !e.2) hsettled
    fun v e he => congrArg Bool.not (LocalRange.encode_signature he)
  obtain ⟨signed, hsigned, hs⟩ := forall₂_filter_some (fun v => v.isSignature) (fun e => e.2) hsettled
    fun v e he => LocalRange.encode_signature he
  refine ⟨plain ++ signed, mapM_of_settled (List.rel_append hplain hsigned), ?_, ?_⟩ <;>
    rw [List.filterMap_append, hp, hs, List.filter_append, List.filter_filter, List.filter_filter] <;>
    simp

/-- Where all its constants are, a body is encoded to the same again, whether or not its local variables
are sorted. -/
theorem encode_sortedLocals (h : b.encode maxStack maxLocals entry p = (.ok c, q)) :
    ({ b with locals := b.sortedLocals } : Body).encode maxStack maxLocals entry q = (.ok c, q) := by
  unfold encode at h ⊢
  obtain ⟨pieces, p₁, h₁, h⟩ := run_bind_ok.mp h
  dsimp only at h
  split at h
  next =>
    obtain ⟨_, _, hthrow, -⟩ := run_bind_ok.mp h
    cases hthrow
  next hfits =>
    obtain ⟨parts, p₂, h₂, h⟩ := run_bind_ok.mp h
    obtain ⟨rs, p₃, h₃, h⟩ := run_bind_ok.mp h
    obtain ⟨as, p₄, h₄, h⟩ := run_bind_ok.mp h
    obtain ⟨vs, p₅, h₅, h⟩ := run_bind_ok.mp h
    obtain ⟨bs, p₆, h₆, h⟩ := run_bind_ok.mp h
    obtain ⟨cs, p₇, h₇, h⟩ := run_bind_ok.mp h
    have l₇ : p₇.Leads q := (frames_interns entry _ _).run h
    have l₆ := ((tableAttribute_interns _ _ _).run h₇).trans l₇
    have l₅ := ((tableAttribute_interns _ _ _).run h₆).trans l₆
    have l₄ := ((Interns.mapM fun v => v.encode_interns).run h₅).trans l₅
    have l₃ := ((tableAttribute_interns _ _ _).run h₄).trans l₄
    have l₂ := ((Interns.mapM fun t => t.encode_interns).run h₃).trans l₃
    have l₁ := ((Interns.mapM fun _ => .lift _).run h₂).trans l₂
    obtain ⟨us, hus, hplain, hsigned⟩ := sortedLocals_encode h₅ l₅
    refine run_bind_ok.mpr ⟨pieces, q, (Interns.mapM Piece.ofNode_interns).again h₁ l₁, ?_⟩
    dsimp only
    rw [if_neg hfits]
    refine run_bind_ok.mpr ⟨parts, q, (Interns.mapM fun _ => .lift _).again h₂ l₂, ?_⟩
    refine run_bind_ok.mpr ⟨rs, q, (Interns.mapM fun t => t.encode_interns).again h₃ l₃, ?_⟩
    refine run_bind_ok.mpr ⟨as, q, (tableAttribute_interns _ _ _).again h₄ l₄, ?_⟩
    refine run_bind_ok.mpr ⟨us, q, hus, ?_⟩
    rw [hplain, hsigned]
    refine run_bind_ok.mpr ⟨bs, q, (tableAttribute_interns _ _ _).again h₆ l₆, ?_⟩
    refine run_bind_ok.mpr ⟨cs, q, (tableAttribute_interns _ _ _).again h₇ l₇, ?_⟩
    exact (frames_interns entry _ _).again h .refl

variable {l : Listing} {d : DebugTables} {fs : List (Nat × Frame)}

namespace ReadFrom

/-- All blocks of a body that is read guard instructions. -/
theorem used (h : b.ReadFrom p entry c l d fs) : ∀ t ∈ b.tryBlocks, t.isUsed b.ordinal? = true := by
  intro t ht
  obtain ⟨e, he, ht⟩ := (mem_mapM_ok h.blocks t).mp ht
  obtain ⟨hstart, hstop, -⟩ := LabelPlan.wanted_handler l d he
  have hview := h.block_view he ht
  have hsound : l.isSound e = true := Listing.checkHandlers_sound h.handlers e he
  simp only [Listing.isSound, Bool.and_eq_true, decide_eq_true_eq] at hsound
  have hlt := (h.ordinal_lt_iff (h.planned_place (h.checked.planned hstart))
    (h.planned_place (h.checked.planned hstop))).mpr hsound.1.1.1
  have hfirst : b.ordinal? t.start = some _ := congrArg BlockView.start hview
  have hlast : b.ordinal? t.stop = some _ := congrArg BlockView.stop hview
  rw [TryBlock.isUsed, hfirst, hlast]
  exact decide_eq_true hlt

/-- No range of a body that is read ends before it starts. -/
theorem forward (h : b.ReadFrom p entry c l d fs) : ∀ v ∈ b.locals, v.isForward b.ordinal? = true := by
  intro v hv
  obtain ⟨e, he, hv⟩ := (mem_mapM_ok h.ranges v).mp hv
  obtain ⟨hstart, hstop⟩ := h.range_view he hv
  have hfirst : b.ordinal? v.start = some _ := hstart
  have hlast : b.ordinal? v.stop = some _ := hstop
  rw [LocalRange.isForward, hfirst, hlast]
  exact decide_eq_true (rank_le (Nat.le_add_right _ _))

theorem names (h : b.ReadFrom p entry c l d fs) {lit : Literal} (hlit : Node.insn (.ldc lit) ∈ b.nodes) :
    p.Names lit := by
  have hmem : lit ∈ b.literals := List.mem_filterMap.mpr ⟨_, hlit, rfl⟩
  obtain ⟨i, -, hi⟩ := forall₂_right h.loads lit hmem
  exact Pool.literal_names hi

/-- Handlers begin with instructions. -/
theorem handler_target (h : b.ReadFrom p entry c l d fs) :
    ∀ t ∈ b.tryBlocks, ∃ r, b.labelTarget t.handler = .ok (some r) := by
  intro t ht
  obtain ⟨e, he, ht⟩ := (mem_mapM_ok h.blocks t).mp ht
  obtain ⟨-, -, hwanted⟩ := LabelPlan.wanted_handler l d he
  have hsound : l.isSound e = true := Listing.checkHandlers_sound h.handlers e he
  simp only [Listing.isSound, Bool.and_eq_true] at hsound
  obtain ⟨⟨o, i⟩, hi, ho⟩ := List.mem_map.mp ((Listing.isStart_iff h.listed.found _).mp hsound.2)
  dsimp only at ho
  subst ho
  obtain ⟨r, hr, -⟩ := h.target hi hwanted
  rw [(tryBlock_ok ht).2.2]
  exact ⟨r, hr⟩

theorem padded (h : b.ReadFrom p entry c l d fs) (hentry : ∀ f, entry = some f → f.Padded) :
    ∀ f, Node.frame f ∈ b.nodes → f.Padded := by
  intro f hf
  obtain ⟨o, ho⟩ := h.frame_mem hf
  exact h.frames_keep hentry (fun _ _ _ hx hnext => hx.next hnext) _ ho

end ReadFrom

/-- What is written of a body is short enough to be counted in two bytes. -/
structure Counted (b : Body) : Prop where
  lines : b.lineNumbers.length ≤ 65535
  plain : (b.locals.filter fun v => !v.isSignature).length ≤ 65535
  signed : (b.locals.filter fun v => v.isSignature).length ≤ 65535
  frames : ∀ e ∈ b.carriedFrames, e.2.packed.length ≤ 65535 ∧ e.2.stack.length ≤ 65535

namespace ReadFrom

theorem filter_forward (h : b.ReadFrom p entry c l d fs) (keep : LocalRange → Bool) :
    (b.locals.filter fun v => v.isForward b.ordinal? && keep v) = b.locals.filter keep :=
  List.filter_congr fun v hv => by rw [h.forward v hv, Bool.true_and]

theorem retained (h : b.ReadFrom p entry c l d fs) (hentry : ∀ f, entry = some f → f.Sited fun _ => False)
    (hb : b.Counted) : b.Retained p where
  storable := {
    switches := fun br hbr => (h.jumps br hbr).1
    literals := fun _ => h.names
    frames := hb.frames
    lines := hb.lines
    plain := h.filter_forward (fun v => !v.isSignature) ▸ hb.plain
    signed := h.filter_forward (fun v => v.isSignature) ▸ hb.signed }
  resolved := ⟨fun br hbr => (h.jumps br hbr).2, fun t ht _ => h.handler_target t ht⟩
  tied := h.tied hentry

end ReadFrom

theorem sortedLocals_perm (b : Body) : b.sortedLocals.Perm b.locals := by
  simpa [sortedLocals] using List.filter_append_perm (fun v : LocalRange => !v.isSignature) b.locals

theorem Restores.echoes {b' : Body} (h : b.ReadFrom p entry c l d fs) (hr : b'.Restores b)
    (hf : b'.carriedFrames = b.carriedFrames) : b'.Echoes b ∧
      b'.locals.map (LocalRange.view b'.ordinal?) = b.sortedLocals.map (LocalRange.view b.ordinal?) := by
  have hlocals : b'.locals.map (LocalRange.view b'.ordinal?) =
      b.sortedLocals.map (LocalRange.view b.ordinal?) := by
    rw [hr.locals, h.filter_forward, h.filter_forward]
    rfl
  have hblocks := hr.tryBlocks
  rw [List.filter_eq_self.mpr h.used] at hblocks
  exact ⟨⟨hr.program, hblocks, hlocals ▸ b.sortedLocals_perm.map _, hr.lines, hf⟩, hlocals⟩

/-- A body without an entry frame is read without frames. -/
theorem ReadFrom.carriedFrames_nil (h : b.ReadFrom p none c l d fs) : b.carriedFrames = [] := by
  rcases h.frames with ⟨-, rfl⟩ | ⟨_, _, -, hnone, -⟩
  · rw [h.carriedFrames_eq]
    rfl
  · cases hnone

theorem frames_once {xs ys : List (Nat × FrameView)} (hx : (xs.map Prod.fst).Pairwise (· < ·))
    (hy : (ys.map Prod.fst).Pairwise (· < ·)) (h : ∀ e, e ∈ xs ↔ e ∈ ys) : xs = ys := by
  have : Std.Irrefl fun a b : Nat × FrameView => a.1 < b.1 := ⟨fun a => Nat.lt_irrefl a.1⟩
  have : Std.Antisymm fun a b : Nat × FrameView => a.1 < b.1 :=
    ⟨fun a b hab hba => absurd hba (Nat.lt_asymm hab)⟩
  exact (List.pairwise_map.mp hx).eq_of_mem_iff (List.pairwise_map.mp hy) h

/-- Encoding a body that is read gives a normal form. Reading it gives the body again, with its local
variables sorted, and encoding that gives the same code attribute without another constant. -/
theorem encode_stable {b : Body} {p q : Pool} {entry : Option Frame} {maxStack maxLocals : UInt16}
    {c₀ c : CodeAttribute} (hp : p.Reached)
    (hentry : ∀ f, entry = some f → ∃ owner isStatic isConstructor type,
      f = .entry owner isStatic isConstructor type)
    (hb : ofCode p entry c₀ = .ok b) (hcount : b.Counted)
    (h : b.encode maxStack maxLocals entry p = (.ok c, q)) :
    ofCode q entry c = .ok { b with locals := b.sortedLocals } ∧
      ({ b with locals := b.sortedLocals } : Body).encode maxStack maxLocals entry q = (.ok c, q) := by
  obtain ⟨l, d, fs, hfrom⟩ := ofCode_readFrom hb
  have hsited : ∀ f, entry = some f → f.Sited fun _ => False := by
    intro f hf
    obtain ⟨owner, isStatic, isConstructor, type, rfl⟩ := hentry f hf
    exact .entry ..
  have hpadded : ∀ f, entry = some f → f.Padded := by
    intro f hf
    obtain ⟨owner, isStatic, isConstructor, type, rfl⟩ := hentry f hf
    exact Frame.entry_padded owner isStatic isConstructor type
  have hkept := hfrom.retained hsited hcount
  obtain ⟨pieces, place, henc, hh⟩ := encode_ok hkept.storable hp h
  obtain ⟨b', hb', hrestores⟩ := henc.read hh hkept
  obtain ⟨l', d', fs', hfrom'⟩ := ofCode_readFrom hb'
  have hframes : b'.carriedFrames = b.carriedFrames := by
    cases entry with
    | none => rw [hfrom.carriedFrames_nil, hfrom'.carriedFrames_nil]
    | some before =>
      exact frames_once hfrom'.carriedFrames_ascend hfrom.carriedFrames_ascend
        (henc.carriedFrames_iff hh hkept (hfrom.padded hpadded) (hsited before rfl) (hpadded before rfl)
          hfrom')
  obtain ⟨hecho, hlocals⟩ := hrestores.echoes hfrom hframes
  have heq := hfrom.echo_eq hfrom' hsited hsited hecho
    (fun v hv => b.sortedLocals_perm.mem_iff.mp hv) hlocals
  exact ⟨heq ▸ hb', encode_sortedLocals h⟩

end Body

namespace WideLoad

def code : CodeAttribute := ⟨1, 1, [0xC4, 0x15, 0, 0, 0x57, 0xB1], [], []⟩

def body : Body where
  entries := #[(⟨0⟩, .insn (.load .int 0)), (⟨1⟩, .insn (.stack .pop)), (⟨2⟩, .branch (.leave none))]
  nextId := 3
  nextLabel := 0
  version := 3
  edits := #[]
  tryBlocks := []
  locals := []

def recoded : CodeAttribute := ⟨1, 1, [0x1A, 0x57, 0xB1], [], []⟩

theorem body_read : Body.ofCode Pool.empty none code = .ok body := by cbv

theorem body_counted : body.Counted where
  lines := by decide
  plain := by decide
  signed := by decide
  frames := by decide

end WideLoad

theorem WideLoad.recoded_once : Pool.empty.Reached ∧ WideLoad.body.Counted ∧
    Body.ofCode Pool.empty none WideLoad.code = .ok WideLoad.body ∧
    WideLoad.body.encode 1 1 none Pool.empty = (.ok WideLoad.recoded, Pool.empty) ∧
    Body.ofCode Pool.empty none WideLoad.recoded = .ok WideLoad.body ∧
    WideLoad.body.encode 1 1 none Pool.empty = (.ok WideLoad.recoded, Pool.empty) := by
  have hencode : WideLoad.body.encode 1 1 none Pool.empty = (.ok WideLoad.recoded, Pool.empty) := rfl
  exact ⟨.empty, WideLoad.body_counted, WideLoad.body_read, hencode,
    Body.encode_stable .empty (by simp) WideLoad.body_read WideLoad.body_counted hencode⟩

end ClassGraft
