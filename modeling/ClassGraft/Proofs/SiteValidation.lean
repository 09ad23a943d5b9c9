import ClassGraft.Proofs.ClassWriting
import ClassGraft.Proofs.CodeRoundTrip
import ClassGraft.Proofs.DepthPaths
import ClassGraft.Proofs.SiteDecoding
import ClassGraft.Proofs.SiteInference
import Mathlib

namespace ClassGraft

namespace Body

variable {b b' : Body} {entry : Frame} {owner : BinaryName} {count : Nat}

theorem labelTarget_of_targetPosition {l : Label} {q : Nat} (h : b.targetPosition l = .ok q) :
    b.labelTarget l = .ok (some q) := by
  obtain ⟨p, hp, hi⟩ := targetPosition_ok.mp h
  exact labelTarget_ok.mpr ⟨p, hp, hi⟩

theorem numbered_pseudo {ns : List Node} (h : ∀ n ∈ ns, n.isPseudo = true) (k : Nat) :
    ∀ e ∈ numbered k ns, e.1 = k := by
  induction ns generalizing k with
  | nil => exact fun e he => absurd he List.not_mem_nil
  | cons n ns ih =>
    obtain ⟨hn, hns⟩ := List.forall_mem_cons.mp h
    rw [numbered, if_pos hn]
    exact List.forall_mem_cons.mpr ⟨rfl, ih hns k⟩

/-- A body without instructions has no jumps, and no block of it is used. -/
theorem resolved_of_empty (h : b.instructionFrom? 0 = none) : b.Resolved := by
  have hpseudo : ∀ n ∈ b.nodes, n.isPseudo = true := by
    intro n hn
    obtain ⟨p, hp⟩ := List.mem_iff_getElem?.mp hn
    rw [nodes_get?] at hp
    cases hreal : n.isPseudo with
    | true => rfl
    | false =>
      obtain ⟨r, hr, -⟩ := instructionFrom?_least (Nat.zero_le p) hp hreal
      rw [h] at hr
      cases hr
  constructor
  · intro br hbr
    cases hpseudo _ hbr
  · intro t _ hused
    have hzero (l : Label) (k : Nat) (hk : b.ordinal? l = some k) : k = 0 := by
      obtain ⟨e, he, rfl⟩ := Option.map_eq_some_iff.mp hk
      exact numbered_pseudo hpseudo 0 e (List.mem_of_find?_eq_some he)
    unfold TryBlock.isUsed at hused
    split at hused
    next start stop hstart hstop =>
      rw [hzero _ _ hstart, hzero _ _ hstop] at hused
      simp at hused
    next => cases hused

/-- Inference fails where a jump or a handler leads nowhere. -/
theorem inferFrames_resolved (h : b.inferFrames entry owner = .ok (count, b')) : b'.Resolved := by
  obtain ⟨b₁, -, hparts⟩ := inferFrames_ok h
  rcases hparts with ⟨hnone, -, rfl⟩ | ⟨first, isPoint, g, s, missing, -, hparts⟩
  · exact resolved_of_empty hnone
  · obtain ⟨place, hins⟩ := hparts.inserted
    have hmark (n : Node) (hn : IsMark n) : n.isPseudo = true := hn.pseudo
    constructor
    · intro br hbr l hl
      rcases insertFrames_nodes hparts.inserts hbr with hold | ⟨m, -, hm⟩
      · obtain ⟨p, hp⟩ := List.mem_iff_getElem?.mp hold
        obtain ⟨q, hq⟩ := hparts.targets p br l ((nodes_get? b₁ p).symm.trans hp) hl
        exact ⟨_, labelTarget_of_targetPosition (hins.embeds.targetPosition_place hmark hq)⟩
      · cases hm
    · intro t ht _
      rw [hins.embeds.tryBlocks] at ht
      obtain ⟨x, hx⟩ := mapM_ok_each hparts.handlers t ht
      have hhead := (handler_ok.mp hx).1
      exact ⟨_, labelTarget_of_targetPosition (hins.embeds.targetPosition_place hmark hhead)⟩

end Body

namespace Method

variable {m m' : Method} {b b' : Body}

/-- The entry frame of a method has no object that is not constructed by a `new`. -/
theorem read_ok {pool : Pool} {owner : BinaryName} {raw : RawMember} {index : Nat}
    (h : Method.read pool owner true raw index = .ok m) : ∃ entry, m.entry = some entry ∧
      entry.Sited (fun _ => False) ∧
      ∀ b, m.body? = some b → ∃ c, Body.ofCode pool m.entry c = .ok b := by
  obtain ⟨⟨isConstructor, hentry⟩, found, -, hcode⟩ := read_parts h
  refine ⟨_, hentry, .entry .., fun b hb => ?_⟩
  obtain ⟨c, hc, rfl⟩ := Option.map_eq_some_iff.mp hb
  cases found with
  | none =>
    rw [hcode] at hc
    cases hc
  | some a =>
    obtain ⟨code, hread, hsome⟩ := hcode
    cases hsome.symm.trans hc
    exact MethodCode.read_body hread

/-- Validation leaves a body alone or infers its frames. -/
theorem validate_ok {entry : Frame} (he : m.entry = some entry) (hb : m.body? = some b)
    (h : m.validate = .ok m') : m'.entry = m.entry ∧ ∃ b', m'.body? = some b' ∧
      (b.isModified = false ∧ b' = b ∨ ∃ count, b.inferFrames entry m.owner = .ok (count, b')) := by
  obtain ⟨c, hc, rfl⟩ := Option.map_eq_some_iff.mp hb
  rcases validate_iff.mp h with ⟨hplain, rfl⟩ | ⟨_, c', hc', -, hvalid, rfl⟩
  · exact ⟨rfl, c.body, hb, .inl ⟨(isModified_eq hc).symm.trans hplain, rfl⟩⟩
  · cases hc.symm.trans hc'
    obtain ⟨a, body, -, -, -, hframed, rfl⟩ := MethodCode.validate_iff.mp hvalid
    refine ⟨rfl, body, rfl, .inr ?_⟩
    rcases hframed with ⟨hnone, -⟩ | ⟨e, n, hsome, hinfer⟩
    · cases he.symm.trans hnone
    · cases he.symm.trans hsome
      exact ⟨n, hinfer⟩

end Method

/-- A method of a class with frames is edited and validated. Its frames are tied behind every edit just
where the edits spare their sites. Validation ties all frames that it adds where the others are tied,
and mends none that is not. Where all are tied, the offsets that are encoded are those of `new`
instructions, and the body is read again. -/
theorem ClassModel.validated_sites {s : Bytes} {c : ClassModel} {m m₁ m₂ : Method} {b₀ b : Body}
    {es : List BodyEdit} (hc : ClassModel.parse s = .ok c)
    (hf : c.file.version.hasFrames = true) (hm : m ∈ c.methods) (hbegin : m.beginEdit = .ok m₁)
    (hb₀ : m₁.body? = some b₀) (hb : b₀.editAll es = .ok b)
    (hv : (m₁.withBody b).validate = .ok m₂) :
    (b₀.Spares es ↔ ∀ ds b₁, ds <+: es → b₀.editAll ds = .ok b₁ → b₁.Tied) ∧
    ∃ b₂, m₂.body? = some b₂ ∧ (b₀.Spares es → b₂.Tied) ∧ (b.Tied → b₂.Tied) ∧
      (b.Owned → b₂.Tied → b.Tied) ∧
      ∀ p p' code, b₂.Tied → b.isModified = true → p.Reached → b₂.Fits p →
        m₂.encode p = (.ok (some code), p') →
          code.SitesStand p' ∧ ∃ b₃, Body.ofCode p' m₂.entry code = .ok b₃ ∧ b₃.Restores b₂ := by
  obtain ⟨i, hi⟩ := List.mem_iff_getElem?.mp hm
  obtain ⟨raw, -, hread⟩ := ClassModel.parse_method hc hi
  rw [hf] at hread
  obtain ⟨entry, hentry, hsited, hbody⟩ := Method.read_ok hread
  obtain ⟨hentry₁, -, hbody₁⟩ := Method.beginEdit_ok hbegin
  -- the body that was read is tied, and has each label once
  obtain ⟨c₀, hc₀⟩ := hbody b₀ (hbody₁ ▸ hb₀)
  obtain ⟨l, d, fs, hfrom⟩ := Body.ofCode_readFrom hc₀
  have htied₀ : b₀.Tied := hfrom.tied fun f hf => by
    cases Option.some.inj (hentry.symm.trans hf)
    exact hsited
  have honce : b.LabelsOnce := hfrom.labelsOnce.editAll hb
  have hspares := htied₀.spares_iff hb
  -- validation infers frames, unless nothing was edited
  have hwith : (m₁.withBody b).body? = some b := by
    obtain ⟨code, hcode, -⟩ := Option.map_eq_some_iff.mp hb₀
    rw [Method.body?, Method.withBody, hcode]
    rfl
  have hentry' : (m₁.withBody b).entry = some entry := hentry₁.trans hentry
  obtain ⟨hentry₂, b₂, hb₂, hinfer⟩ := Method.validate_ok hentry' hwith hv
  obtain ⟨hkeep, hback⟩ : (b.Tied → b₂.Tied) ∧ (b.Owned → b₂.Tied → b.Tied) := by
    rcases hinfer with ⟨-, rfl⟩ | ⟨count, hinfer⟩
    · exact ⟨id, fun _ h => h⟩
    · exact Body.inferFrames_tied honce hsited hinfer
  refine ⟨hspares, b₂, hb₂, fun hs => hkeep (hspares.mp hs es b List.prefix_rfl hb), hkeep, hback,
    fun p p' code htied hmodified hp hfits hencode => ?_⟩
  have hresolved : b₂.Resolved := by
    rcases hinfer with ⟨hplain, -⟩ | ⟨count, hinfer⟩
    · rw [hplain] at hmodified
      cases hmodified
    · exact Body.inferFrames_resolved hinfer
  obtain ⟨maxStack, maxLocals, hencode⟩ := Method.encode_ok hb₂ hencode
  have hreadable : b₂.Readable p := ⟨hfits, hresolved, htied⟩
  obtain ⟨b₃, hb₃, hrestores⟩ := hreadable.restored hp (Body.encodeChecked_ok hencode)
  refine ⟨?_, b₃, hb₃, hrestores⟩
  rw [hentry₂, hentry'] at hb₃
  obtain ⟨l₃, d₃, fs₃, hfrom₃⟩ := Body.ofCode_readFrom hb₃
  exact hfrom₃.sitesStand

namespace Body

/-- A body without jumps and try blocks is analyzed in one go. -/
theorem analyzeStack_straight {b : Body} {slots : Nat} {s : DepthState}
    (hb : b.entries.isEmpty = false) (ht : b.tryBlocks = [])
    (h : b.flowFrom 0 0 ⟨Array.replicate b.size none, 0, slots, []⟩ = .ok s) (hw : s.work = []) :
    b.analyzeStack slots = .ok ⟨s.depths, s.maxStack, s.maxLocals⟩ :=
  analyzeStack_drained hb ht ((drain_next rfl h).trans (drain_done hw))

end Body

deriving instance DecidableEq for Body, MethodCode, Method

namespace Dropped

def source : Bytes := [0xCA, 0xFE, 0xBA, 0xBE, 0, 0, 0, 52, 0, 9,
  1, 0, 16, 106, 97, 118, 97, 47, 108, 97, 110, 103, 47, 79, 98, 106, 101, 99, 116, 7, 0, 1,
  1, 0, 13, 83, 116, 97, 99, 107, 77, 97, 112, 84, 97, 98, 108, 101, 1, 0, 4, 67, 111, 100, 101,
  1, 0, 1, 109, 1, 0, 3, 40, 41, 86, 1, 0, 3, 97, 47, 66, 7, 0, 7,
  0, 33, 0, 8, 0, 2, 0, 0, 0, 0, 0, 1, 0, 9, 0, 5, 0, 6, 0, 1, 0, 4, 0, 0, 0, 29,
  0, 1, 0, 0, 0, 0, 0, 5, 0xBB, 0, 2, 0x57, 0xB1, 0, 0, 0, 1, 0, 3, 0, 0, 0, 6, 0, 1, 67, 8, 0, 0,
  0, 0]

def body : Body where
  entries := #[(⟨0⟩, .label ⟨0⟩), (⟨1⟩, .insn (.new BinaryName.object)),
    (⟨2⟩, .frame ⟨[], [.uninitialized ⟨BinaryName.object, ⟨0⟩⟩]⟩), (⟨3⟩, .insn (.stack .pop)),
    (⟨4⟩, .branch (.leave none))]
  nextId := 5
  nextLabel := 1
  version := 5
  edits := #[]
  tryBlocks := []
  locals := []

def method : Method where
  index := 0
  flags := 9
  name := ⟨"m", by decide⟩
  canonicalName := none
  type := ⟨[], none⟩
  owner := ⟨"a/B", by decide⟩
  entry := some ⟨[], []⟩
  code := some ⟨body, 1, 0, none⟩

def begun : Method := {
  method with
  code := some ⟨body, 1, 0, some (body.reachable ⟨#[some 0, some 0, some 1, some 1, some 0], 1, 0⟩)⟩ }

def kept : Body := {
  body with
  entries := #[(⟨0⟩, .label ⟨0⟩), (⟨1⟩, .insn (.new BinaryName.object)), (⟨5⟩, .insn .nop),
    (⟨2⟩, .frame ⟨[], [.uninitialized ⟨BinaryName.object, ⟨0⟩⟩]⟩), (⟨3⟩, .insn (.stack .pop)),
    (⟨4⟩, .branch (.leave none))]
  nextId := 6
  version := 6
  edits := #[⟨some ⟨1⟩, [⟨5⟩], [], 0, 0⟩] }

def parted : Body := {
  kept with
  entries := #[(⟨0⟩, .label ⟨0⟩), (⟨5⟩, .insn .nop), (⟨1⟩, .insn (.new BinaryName.object)),
    (⟨2⟩, .frame ⟨[], [.uninitialized ⟨BinaryName.object, ⟨0⟩⟩]⟩), (⟨3⟩, .insn (.stack .pop)),
    (⟨4⟩, .branch (.leave none))] }

/-- Validation gives the `new` another label, and the frame keeps the one it has. -/
def relabelled : Body := {
  parted with
  entries := #[(⟨0⟩, .label ⟨0⟩), (⟨5⟩, .insn .nop), (⟨6⟩, .label ⟨1⟩),
    (⟨1⟩, .insn (.new BinaryName.object)),
    (⟨2⟩, .frame ⟨[], [.uninitialized ⟨BinaryName.object, ⟨0⟩⟩]⟩), (⟨3⟩, .insn (.stack .pop)),
    (⟨4⟩, .branch (.leave none))]
  nextId := 7
  nextLabel := 2
  version := 7 }

theorem parsed : ∃ c, ClassModel.parse source = .ok c ∧ c.file.version.hasFrames = true ∧
    method ∈ c.methods := by
  have h : (ClassModel.parse source).toOption.any (fun c =>
      c.file.version.hasFrames && c.methods.contains method) = true := by decide +kernel
  obtain ⟨c, hc, hseen⟩ := toOption_any.mp h
  obtain ⟨hf, hm⟩ := Bool.and_eq_true_iff.mp hseen
  exact ⟨c, hc, hf, List.contains_iff_mem.mp hm⟩

theorem begun_eq : method.beginEdit = .ok begun := by
  have ha : body.analyzeStack 0 = .ok ⟨#[some 0, some 0, some 1, some 1, some 0], 1, 0⟩ :=
    Body.analyzeStack_straight (s := ⟨#[some 0, some 0, some 1, some 1, some 0], 1, 0, []⟩) rfl rfl
      (by cbv) rfl
  have hs : method.parameterSlots = 0 := by cbv
  exact Method.beginEdit_first rfl (hs ▸ ha)

theorem kept_eq : body.editAll [.after ⟨1⟩ [.insn .nop]] = .ok kept := by cbv

theorem parted_eq : body.editAll [.before ⟨1⟩ [.insn .nop]] = .ok parted := by cbv

theorem kept_validated : (begun.withBody kept).validate = .ok (begun.withBody kept) := by
  have ha : kept.analyzeStack 0 = .ok ⟨#[some 0, some 0, some 1, some 1, some 1, some 0], 1, 0⟩ :=
    Body.analyzeStack_straight (s := ⟨#[some 0, some 0, some 1, some 1, some 1, some 0], 1, 0, []⟩) rfl
      rfl (by cbv) rfl
  have hi : kept.inferFrames ⟨[], []⟩ method.owner = .ok (0, kept) := by cbv
  have hs : (begun.withBody kept).parameterSlots = 0 := by cbv
  exact Method.validate_within rfl rfl rfl (by cbv) (by cbv) (hs ▸ ha) rfl (by cbv) (by decide)
    (by decide) hi

theorem parted_validated : (begun.withBody parted).validate = .ok (begun.withBody relabelled) := by
  have ha : parted.analyzeStack 0 = .ok ⟨#[some 0, some 0, some 0, some 1, some 1, some 0], 1, 0⟩ :=
    Body.analyzeStack_straight (s := ⟨#[some 0, some 0, some 0, some 1, some 1, some 0], 1, 0, []⟩) rfl
      rfl (by cbv) rfl
  have hi : parted.inferFrames ⟨[], []⟩ method.owner = .ok (0, relabelled) := by cbv
  have hs : (begun.withBody parted).parameterSlots = 0 := by cbv
  exact Method.validate_within rfl rfl rfl (by cbv) (by cbv) (hs ▸ ha) rfl (by cbv) (by decide)
    (by decide) hi

theorem kept_fits : kept.Fits Pool.empty where
  switches := by
    intro br hbr
    simp only [kept, Body.nodes, List.map_cons, List.map_nil, List.mem_cons, List.not_mem_nil,
      or_false, reduceCtorEq, false_or, Node.branch.injEq] at hbr
    subst hbr
    trivial
  literals := by simp [kept, Body.nodes]
  frames := by
    intro f hf
    simp only [kept, Body.nodes, List.map_cons, List.map_nil, List.mem_cons, List.not_mem_nil,
      or_false, reduceCtorEq, false_or, Node.frame.injEq] at hf
    subst hf
    decide
  lines := by decide
  plain := by decide
  signed := by decide

open Pool

def pool1 : Pool := Pool.empty.append (.utf8 "java/lang/Object")
def pool2 : Pool := pool1.append (.classRef 1)
def pool3 : Pool := pool2.append (.utf8 "StackMapTable")

def code : CodeAttribute :=
  ⟨1, 0, [0xBB, 0, 2, 0, 0x57, 0xB1], [], [⟨3, [0, 1, 68, 8, 0, 0]⟩]⟩

theorem intern_object : internClass (.object BinaryName.object) Pool.empty = (.ok 2, pool2) := by
  have h1 : internUtf8 "java/lang/Object" Pool.empty = (.ok 1, pool1) :=
    intern_fresh (by simp [empty]) (by decide)
  have h2 : intern (.classRef 1) pool1 = (.ok 2, pool2) :=
    intern_fresh (by simp [pool1, empty, append]) (by decide)
  exact run_bind_ok.mpr ⟨1, pool1, h1, h2⟩

theorem kept_encoded : (begun.withBody kept).encode Pool.empty = (.ok (some code), pool3) := by
  have h3 : internUtf8 "StackMapTable" pool2 = (.ok 3, pool3) :=
    intern_fresh (by simp [pool2, pool1, empty, append]) (by decide)
  have hnew : Piece.ofNode (.insn (.new BinaryName.object)) Pool.empty =
      (.ok (.bytes [0xBB, 0, 2]), pool2) :=
    run_bind_ok.mpr ⟨_, _, run_bind_ok.mpr ⟨2, pool2, intern_object, rfl⟩, rfl⟩
  have hpieces : kept.nodes.mapM Piece.ofNode Pool.empty =
      (.ok [.label ⟨0⟩, .bytes [0xBB, 0, 2], .bytes [0],
        .frame ⟨[], [.uninitialized ⟨BinaryName.object, ⟨0⟩⟩]⟩, .bytes [0x57],
        .branch (.leave none)], pool2) := by
    simp only [kept, Body.nodes, List.map_cons, List.map_nil, List.mapM_cons]
    exact run_bind_ok.mpr ⟨_, Pool.empty, rfl, run_bind_ok.mpr ⟨_, pool2,
      run_bind_ok.mpr ⟨_, pool2, hnew, rfl⟩, rfl⟩⟩
  have hframes : tableAttribute .stackMapTable id [.sameOne 4 (.uninitialized 0)] pool2 =
      (.ok [⟨3, [0, 1, 68, 8, 0, 0]⟩], pool3) :=
    run_bind_ok.mpr ⟨_, _, run_bind_ok.mpr ⟨3, pool3, h3, rfl⟩, rfl⟩
  refine Method.encode_of_ok rfl (by decide) (by simp [kept, Body.nodes, Branch.Overruns]) ?_
  refine run_bind_ok.mpr ⟨_, pool2, hpieces, ?_⟩
  -- the code, the blocks, the line numbers and the local variables need no constants
  refine run_bind_ok.mpr ⟨[[], [0xBB, 0, 2], [0], [], [0x57], [0xB1]], pool2, rfl, ?_⟩
  refine run_bind_ok.mpr ⟨[], pool2, rfl, run_bind_ok.mpr ⟨[], pool2, rfl, ?_⟩⟩
  refine run_bind_ok.mpr ⟨[], pool2, rfl, run_bind_ok.mpr ⟨[], pool2, rfl, ?_⟩⟩
  refine run_bind_ok.mpr ⟨[], pool2, rfl, run_bind_ok.mpr ⟨⟨[], []⟩, pool2, rfl, ?_⟩⟩
  refine run_bind_ok.mpr ⟨[.sameOne 4 (.uninitialized 0)], pool2, rfl, ?_⟩
  exact run_bind_ok.mpr ⟨_, pool3, hframes, rfl⟩

end Dropped

/-- A `nop` behind the `new` leaves the frame tied, and one before it does not. Both pass validation, but
only one of the bodies is read again. -/
theorem Dropped.sites_observed : ∃ c, ClassModel.parse source = .ok c ∧
    c.file.version.hasFrames = true ∧ method ∈ c.methods ∧ method.beginEdit = .ok begun ∧
    begun.body? = some body ∧ body.editAll [.after ⟨1⟩ [.insn .nop]] = .ok kept ∧
    (begun.withBody kept).validate = .ok (begun.withBody kept) ∧ kept.Tied ∧
    (∃ code p b, (begun.withBody kept).encode Pool.empty = (.ok (some code), p) ∧
      code.SitesStand p ∧ Body.ofCode p (some ⟨[], []⟩) code = .ok b ∧ b.Restores kept) ∧
    body.editAll [.before ⟨1⟩ [.insn .nop]] = .ok parted ∧
    (begun.withBody parted).validate = .ok (begun.withBody relabelled) ∧ ¬ relabelled.Tied ∧
    ¬ body.Spares [.before ⟨1⟩ [.insn .nop]] := by
  obtain ⟨c, hc, hf, hm⟩ := parsed
  obtain ⟨-, b₂, hb₂, -, hkeep, -, haccept⟩ :=
    ClassModel.validated_sites hc hf hm begun_eq rfl kept_eq kept_validated
  cases hb₂
  have htied : kept.Tied := hkeep (by decide +kernel)
  obtain ⟨-, b₃, hb₃, hspared, -⟩ :=
    ClassModel.validated_sites hc hf hm begun_eq rfl parted_eq parted_validated
  cases hb₃
  have hloose : ¬ relabelled.Tied := by decide +kernel
  refine ⟨c, hc, hf, hm, begun_eq, rfl, kept_eq, kept_validated, htied, ?_, parted_eq, parted_validated,
    hloose, fun hs => hloose (hspared hs)⟩
  obtain ⟨hstand, b, hb, hrestores⟩ := haccept _ _ code htied rfl .empty kept_fits kept_encoded
  exact ⟨code, pool3, b, kept_encoded, hstand, hb, hrestores⟩

end ClassGraft
