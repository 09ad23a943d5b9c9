import ClassGraft.Proofs.FrameExpansion
import ClassGraft.Proofs.SiteInference
import ClassGraft.Proofs.StableCode

namespace ClassGraft

/-- The locals that can be told from their values are those whose wide values have their second halves. -/
theorem spreadLocals_packLocals_iff {C U : Type} {ts : List (SlotType C U)} :
    spreadLocals (packLocals ts) = ts ↔
      ∀ i t, ts[i]? = some t → t.isWide = true → ts[i + 1]? = some .top := by
  constructor
  · intro h
    rw [← h]
    exact spreadLocals_top _
  · exact spreadLocals_packLocals

theorem FrameOf.ofPacked_packed_iff {C U : Type} {f : FrameOf C U} :
    ofPacked f.packed f.stack = f ↔ spreadLocals (packLocals f.locals) = f.locals := by
  constructor
  · exact fun h => congrArg FrameOf.locals h
  · intro h
    rw [ofPacked, packed, h]

theorem Frame.padded_iff {f : Frame} : f.Padded ↔ FrameOf.ofPacked f.packed f.stack = f :=
  (FrameOf.ofPacked_packed_iff.trans spreadLocals_packLocals_iff).symm

theorem RawFrame.padded_iff {f : RawFrame} : f.Padded ↔ FrameOf.ofPacked f.packed f.stack = f :=
  (FrameOf.ofPacked_packed_iff.trans spreadLocals_packLocals_iff).symm

namespace Frame

/-- What holds of all frames that are made, and is kept by all that is done to them. -/
structure Kept (P : Frame → Prop) : Prop where
  entry : ∀ owner isStatic isConstructor type, P (.entry owner isStatic isConstructor type)
  ofPacked : ∀ locals stack, P (.ofPacked locals stack)
  step : ∀ (f f' : Frame) c site i, f.step c site i = .ok f' → P f → P f'
  branch : ∀ (f f' : Frame) (br : Branch Label), f.branch br = .ok f' → P f → P f'
  thrown : ∀ (f : Frame) t, P f → P ⟨f.locals, [t]⟩
  next : ∀ (f f' : Frame) e resolve, f.next e resolve = .ok f' → P f → P f'
  merge : ∀ f g m : Frame, f.merge g = .ok m → P f → P g → P m
  trim : ∀ f : Frame, P f → P f.trim

theorem padded_kept : Kept Frame.Padded where
  entry := entry_padded
  ofPacked locals _ := padded_spreadLocals locals
  step _ _ _ _ _ hs hf := hf.step hs
  branch _ _ _ hb hf := hf.of_locals (branch_locals hb)
  thrown _ _ hf := hf
  next _ _ _ _ hn hf := hf.next hn
  merge _ _ _ hm hf hg := hf.merge hg hm
  trim _ hf := hf.trim

namespace Kept

variable {P : Frame → Prop} {b b' : Body} {pool : Pool} {c : CodeAttribute} {g : FlowGraph}

theorem preserves (hP : Kept P) (g : FlowGraph) : g.Preserves P where
  insn _ _ f f' _ hs hf := hP.step f f' _ _ _ hs hf
  branch br f f' hb hf := hP.branch f f' br hb hf
  thrown h _ f hf := hP.thrown f h.caught hf

/-- It holds of all frames of a body that is read. -/
theorem read {entry : Option Frame} (hP : Kept P) (hentry : ∀ f, entry = some f → P f)
    (h : Body.ofCode pool entry c = .ok b) : ∀ f, Node.frame f ∈ b.nodes → P f := by
  obtain ⟨l, d, fs, hfrom⟩ := Body.ofCode_readFrom h
  intro f hf
  obtain ⟨o, ho⟩ := hfrom.frame_mem hf
  exact hfrom.frames_keep hentry (fun f e f' hx hn => hP.next f f' e _ hn hx) _ ho

/-- It holds of all frames of a body after inference, if it holds of those that were given. -/
theorem inferred {entry : Frame} {owner : BinaryName} {n : Nat} (hP : Kept P) (hentry : P entry)
    (hb : ∀ f, Node.frame f ∈ b.nodes → P f) (h : b.inferFrames entry owner = .ok (n, b')) :
    ∀ f, Node.frame f ∈ b'.nodes → P f := by
  obtain ⟨b₁, hlabels, hparts⟩ := Body.inferFrames_ok h
  obtain ⟨place, he, -, -⟩ := Body.labelSites_embeds hlabels
  have hb₁ : ∀ f, Node.frame f ∈ b₁.nodes → P f := fun f hf => hb f (Body.labelled_frames he hf)
  rcases hparts with ⟨-, -, rfl⟩ | ⟨first, isPoint, g, s, missing, -, hparts⟩
  · exact hb₁
  · refine hparts.frames_keep (FlowState.keeps_of_preserves (hP.preserves g) hP.trim hP.merge
      fun p f hd => ?_) hentry hb₁
    rw [hparts.body] at hd
    exact hb₁ f (Body.declared?_mem hd)

end Kept

end Frame

section Written

variable {place : Label → Except ClassError Nat} {sites : UInt16 → Except ClassError NewSite} {p q : Pool}

/-- The offset at which the label of a site was placed stands for that site. -/
def Located (place : Label → Except ClassError Nat) (sites : UInt16 → Except ClassError NewSite)
    (u : NewSite) : Prop := ∃ o, place u.label = .ok o ∧ sites o.toUInt16 = .ok u

namespace TypeWritten

theorem resolve_located {t : VerifyType} {r : RawType} (h : TypeWritten place q t r)
    (ht : Sited (Located place sites) t) : r.resolve q.classType sites = .ok t := by
  cases h with
  | object hc => rw [RawType.resolve, SlotType.mapM, hc]; rfl
  | @uninitialized u o ho =>
    obtain ⟨o', ho', hu⟩ := ht
    cases Except.ok.inj (ho.symm.trans ho')
    rw [RawType.resolve, SlotType.mapM, hu]
    rfl
  | _ => rfl

theorem resolve_located_all {ts : List VerifyType} {rs : List RawType}
    (h : List.Forall₂ (TypeWritten place q) ts rs) (ht : ∀ t ∈ ts, Sited (Located place sites) t) :
    rs.mapM (RawType.resolve q.classType sites) = .ok ts := by
  have heach : List.Forall₂ (fun t r => Sited (Located place sites) t →
      RawType.resolve q.classType sites r = .ok t) ts rs := h.imp fun _ _ hw ht => hw.resolve_located ht
  exact mapM_ok_iff.mpr (forall₂_mem heach ht).flip

end TypeWritten

namespace Frame.Written

variable {f : Frame} {r : RawFrame}

theorem padded (h : f.Written place q r) (hf : f.Padded) : r.Padded := by
  intro i t ht hw
  obtain ⟨v, hv, hwritten⟩ := forall₂_get? h.locals.flip ht
  obtain ⟨u, hu, htop⟩ := forall₂_get? h.locals (hf i v hv (hwritten.isWide.symm.trans hw))
  cases htop
  exact hu

/-- What is written for a frame stands for it. -/
theorem resolved (h : f.Written place q r) (hf : f.Sited (Located place sites)) :
    r.resolve (RawType.resolve q.classType sites) = .ok f := by
  rw [RawFrame.resolve, TypeWritten.resolve_located_all h.locals hf.locals,
    TypeWritten.resolve_located_all h.stack hf.stack]
  rfl

end Frame.Written

/-- A frame that is written behind another one is told from its values, and is read behind it. -/
theorem Frame.written_read {f₀ f : Frame} {r₀ r : RawFrame} {p₀ : Pool} (hp : p.Reached)
    (hf₀ : f₀.Padded) (hf : f.Padded) (hraw₀ : f₀.toRaw place p = (.ok r₀, p₀))
    (hraw : f.toRaw place p₀ = (.ok r, q)) (hsited₀ : f₀.Sited (Located place sites))
    (hsited : f.Sited (Located place sites)) : FrameOf.ofPacked r.packed r.stack = r ∧
      ∀ d, f₀.next (r.entry d r₀) (RawType.resolve q.classType sites) = .ok f := by
  obtain ⟨hp₀, -, hwritten₀⟩ := f₀.toRaw_yields p r₀ p₀ hp.sound hraw₀
  obtain ⟨hq, hext, hwritten⟩ := f.toRaw_yields p₀ r q hp₀ hraw
  -- what was written for the frame before is still there
  have hw₀ := hwritten₀ q hq hext
  have hw := hwritten q hq (.refl q)
  have hpad := hw.padded hf
  exact ⟨RawFrame.padded_iff.mp hpad, fun d =>
    RawFrame.next_resolved (hw₀.padded hf₀) hpad d (hw₀.resolved hsited₀) (hw.resolved hsited)⟩

end Written

/-- Wide locals stay paired. Each frame that a method begins with, or that is made of values, has an
unusable slot behind every wide local, and no instruction, branch, handler, stack map entry, merging or
trimming changes that. So all frames that are read or inferred can be told from their values, and nothing
is lost when the values are written. -/
theorem Frame.locals_paired : Kept Frame.Padded ∧
    (∀ locals stack, RawFrame.Padded (.ofPacked locals stack)) ∧
    (∀ f : Frame, f.Padded ↔ FrameOf.ofPacked f.packed f.stack = f) ∧
    (∀ pool entry c b, Body.ofCode pool entry c = .ok b → (∀ f, entry = some f → f.Padded) →
      ∀ f, Node.frame f ∈ b.nodes → FrameOf.ofPacked f.packed f.stack = f) ∧
    (∀ b entry owner n b', Body.inferFrames b entry owner = .ok (n, b') → entry.Padded →
      (∀ f, Node.frame f ∈ b.nodes → f.Padded) →
      ∀ f, Node.frame f ∈ b'.nodes → FrameOf.ofPacked f.packed f.stack = f) ∧
    ∀ place sites (p p₀ q : Pool) (f₀ f : Frame) (r₀ r : RawFrame), p.Reached → f₀.Padded → f.Padded →
      f₀.toRaw place p = (.ok r₀, p₀) → f.toRaw place p₀ = (.ok r, q) →
      f₀.Sited (Located place sites) → f.Sited (Located place sites) →
      FrameOf.ofPacked r.packed r.stack = r ∧
        ∀ d, f₀.next (r.entry d r₀) (RawType.resolve q.classType sites) = .ok f := by
  refine ⟨padded_kept, fun locals _ => spreadLocals_top locals, fun f => padded_iff, ?read, ?inferred,
    fun place sites p p₀ q f₀ f r₀ r => written_read⟩
  case read =>
    intro pool entry c b h hentry f hf
    exact padded_iff.mp (padded_kept.read hentry h f hf)
  case inferred =>
    intro b entry owner n b' h hentry hb f hf
    exact padded_iff.mp (padded_kept.inferred hentry hb h f hf)

namespace Overlapped

def entry : Frame := .entry BinaryName.object true false ⟨[.base .long, .base .double], none⟩

def body : Body := {
  Body.empty with
  entries := #[(⟨0⟩, .insn (.load .long 0)), (⟨1⟩, .insn (.store .long 1)), (⟨2⟩, .branch (.goto ⟨0⟩)),
    (⟨3⟩, .label ⟨0⟩), (⟨4⟩, .branch (.leave none))]
  nextId := 5
  nextLabel := 1 }

def behind : Frame := ⟨[.top, .long, .top], []⟩

def framed : Body := {
  body with
  entries := #[(⟨0⟩, .insn (.load .long 0)), (⟨1⟩, .insn (.store .long 1)), (⟨2⟩, .branch (.goto ⟨0⟩)),
    (⟨3⟩, .label ⟨0⟩), (⟨5⟩, .frame behind), (⟨4⟩, .branch (.leave none))]
  nextId := 6
  version := 1 }

def place (_ : Label) : Except ClassError Nat := .ok 0

def siteOf (o : UInt16) : Except ClassError NewSite := .error (.invalidIndex o)

def rawEntry : RawFrame := ⟨[.long, .top, .double, .top], []⟩

def rawBehind : RawFrame := ⟨[.top, .long, .top], []⟩

theorem body_inferred : body.inferFrames entry BinaryName.object = .ok (1, framed) := by cbv

end Overlapped

theorem Overlapped.repacked : entry = ⟨[.long, .top, .double, .top], []⟩ ∧
    body.inferFrames entry BinaryName.object = .ok (1, framed) ∧ Node.frame behind ∈ framed.nodes ∧
    behind.packed = [.top, .long] ∧ FrameOf.ofPacked behind.packed behind.stack = behind ∧
    rawBehind.entry 6 rawEntry = .full 6 [.top, .long] [] ∧
    entry.next (.full 6 [.top, .long] []) (RawType.resolve Pool.empty.classType siteOf) = .ok behind := by
  obtain ⟨hkept, -, -, -, hinferred, hwritten⟩ := Frame.locals_paired
  have hentry : entry.Padded := hkept.entry _ _ _ _
  have hbehind : behind.Padded := hkept.ofPacked [.top, .long] []
  have hplain : ∀ f, Node.frame f ∈ body.nodes → f.Padded := by
    intro f hf
    simp [body, Body.nodes] at hf
  have hmem : Node.frame behind ∈ framed.nodes := by simp [framed, Body.nodes]
  have hsited₀ : entry.Sited fun _ => False := by decide
  have hsited : behind.Sited fun _ => False := by decide
  obtain ⟨-, hread⟩ := hwritten place siteOf Pool.empty Pool.empty Pool.empty entry behind rawEntry
    rawBehind .empty hentry hbehind rfl rfl (hsited₀.mono fun _ hu => hu.elim)
    (hsited.mono fun _ hu => hu.elim)
  exact ⟨rfl, body_inferred, hmem, rfl, hinferred _ _ _ _ _ body_inferred hentry hplain behind hmem, rfl,
    hread 6⟩

end ClassGraft
