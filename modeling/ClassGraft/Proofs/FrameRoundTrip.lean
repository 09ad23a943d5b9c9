import ClassGraft.Proofs.CodeRoundTrip
import ClassGraft.Proofs.SiteDecoding

namespace ClassGraft

variable {place : Label → Except ClassError Nat} {q : Pool} {l : Listing} {plan : LabelPlan}
  {f g : Label → Option Nat} {resolve : RawType → Except ClassError VerifyType}

/-- The sites of both bodies have the same ordinals: `f` gives those of the labels that were placed, and
`g` those of the labels that are planned. -/
def SitesAgree (place : Label → Except ClassError Nat) (l : Listing) (plan : LabelPlan)
    (f g : Label → Option Nat) : Prop :=
  ∀ m o c, place m = .ok o → l.at? o = some (.inl (.new c)) → g (plan.label o) = f m

namespace TypeWritten

variable {t v : VerifyType} {r : RawType} {ts vs : List VerifyType} {rs : List RawType}

theorem view_eq (h : TypeWritten place q t r) (ht : Sited (Stands place l) t)
    (hv : l.resolve q plan r = .ok v) (hfg : SitesAgree place l plan f g) : v.view g = t.view f := by
  cases h with
  | @object c i hc =>
    rw [Listing.resolve, SlotType.mapM, hc] at hv
    cases hv
    rfl
  | @uninitialized u o ho =>
    obtain ⟨o', ho', hle, hat⟩ := ht
    cases Except.ok.inj (ho.symm.trans ho')
    rw [Listing.resolve, SlotType.mapM, Pool.toNat_toUInt16 hle, hat] at hv
    cases hv
    simp only [VerifyType.view, hfg _ _ _ ho hat]
  | _ => cases hv; rfl

theorem view_each (h : List.Forall₂ (TypeWritten place q) ts rs)
    (hv : List.Forall₂ (fun r v => l.resolve q plan r = .ok v) rs vs)
    (ht : ∀ t ∈ ts, Sited (Stands place l) t) (hfg : SitesAgree place l plan f g) :
    vs.map (VerifyType.view g) = ts.map (VerifyType.view f) := by
  induction h generalizing vs with
  | nil => cases hv; rfl
  | cons h _ ih =>
    cases hv with
    | cons hr hv =>
      obtain ⟨ht, hts⟩ := List.forall_mem_cons.mp ht
      rw [List.map_cons, List.map_cons, h.view_eq ht hr hfg, ih hv hts]

/-- A type without a site is read as it is. -/
theorem resolve_self (h : TypeWritten place q t r) (ht : Sited (fun _ => False) t) :
    l.resolve q plan r = .ok t := by
  cases h with
  | object hc => rw [Listing.resolve, SlotType.mapM, hc]; rfl
  | uninitialized => exact ht.elim
  | _ => rfl

end TypeWritten

namespace Frame

variable {x y : Frame} {r : RawFrame}

/-- Packing loses nothing of a frame whose wide locals have their second halves. -/
theorem Padded.view_locals (h : x.Padded) (f : Label → Option Nat) :
    (x.view f).locals = spreadLocals (x.packed.map (VerifyType.view f)) := by
  rw [spreadLocals_map (VerifyType.view_isWide f) rfl, FrameOf.packed, h.spreadLocals_packLocals]
  rfl

theorem Written.view_eq (h : x.Written place q r) (hx : x.Sited (Stands place l)) (hpad : x.Padded)
    (hy : y.Reads (fun t v => l.resolve q plan t = .ok v) r) (hpad' : y.Padded)
    (hfg : SitesAgree place l plan f g) : y.view g = x.view f := by
  have hpacked : y.packed.map (VerifyType.view g) = x.packed.map (VerifyType.view f) :=
    TypeWritten.view_each (TypeWritten.packed h.locals) hy.packed
      (fun t ht => hx.locals t (mem_packLocals ht)) hfg
  have hstack : y.stack.map (VerifyType.view g) = x.stack.map (VerifyType.view f) :=
    TypeWritten.view_each h.stack hy.stack hx.stack hfg
  have hlocals : (y.view g).locals = (x.view f).locals := by
    rw [hpad'.view_locals, hpad.view_locals, hpacked]
  show (⟨(y.view g).locals, _⟩ : FrameView) = ⟨(x.view f).locals, _⟩
  rw [hlocals, hstack]

theorem entry_padded (owner : BinaryName) (isStatic isConstructor : Bool) (type : MethodType) :
    (Frame.entry owner isStatic isConstructor type).Padded := padded_spreadLocals _

theorem Padded.next {e : StackMapFrame} (hx : x.Padded) (h : x.next e resolve = .ok y) :
    y.Padded := by
  cases e with
  | same d => cases h; exact hx
  | sameOne d item =>
    obtain ⟨t, -, h⟩ := except_bind_ok.mp h
    cases h
    exact hx
  | chop d count =>
    simp only [Frame.next] at h
    split at h
    · cases h
    · cases h
      exact padded_spreadLocals _
  | append d locals =>
    obtain ⟨ls, -, h⟩ := except_bind_ok.mp h
    cases h
    exact padded_spreadLocals _
  | full d locals stack =>
    obtain ⟨ls, -, h⟩ := except_bind_ok.mp h
    obtain ⟨ss, -, h⟩ := except_bind_ok.mp h
    cases h
    exact padded_spreadLocals _

end Frame

/-- The offsets of frames ascend, and an instruction is at each of them. -/
theorem Listing.declaredFrames_offsets {base : Nat} {before : Frame} {es : List StackMapFrame}
    {fs : List (Nat × Frame)} (h : l.declaredFrames resolve base before es = .ok fs) :
    (fs.map Prod.fst).Pairwise (· < ·) ∧ ∀ e ∈ fs, base ≤ e.1 ∧ l.isStart e.1 = true := by
  induction es generalizing base before fs with
  | nil => cases h; exact ⟨.nil, nofun⟩
  | cons e es ih =>
    simp only [Listing.declaredFrames] at h
    split at h
    · cases h
    next hstart =>
      obtain ⟨f, hf, h⟩ := except_bind_ok.mp h
      obtain ⟨gs, hgs, h⟩ := except_bind_ok.mp h
      cases h
      obtain ⟨hascend, hlater⟩ := ih hgs
      refine ⟨.cons (fun o ho => ?_) hascend, List.forall_mem_cons.mpr
        ⟨⟨Nat.le_add_right _ _, by simpa using hstart⟩, fun d hd => ?_⟩⟩
      · obtain ⟨d, hd, rfl⟩ := List.mem_map.mp ho
        exact (hlater d hd).1
      · obtain ⟨hle, hd⟩ := hlater d hd
        exact ⟨by omega, hd⟩

namespace Body

section ReadFrom

variable {b : Body} {pool : Pool} {entry : Option Frame} {c : CodeAttribute} {d : DebugTables}
  {fs : List (Nat × Frame)}

theorem ReadFrom.offsets (h : b.ReadFrom pool entry c l d fs) :
    (fs.map Prod.fst).Pairwise (· < ·) ∧ ∀ e ∈ fs, e.1 ∈ l.items.map Prod.fst := by
  rcases h.frames with ⟨-, rfl⟩ | ⟨table, before, -, -, hfs⟩
  · exact ⟨.nil, nofun⟩
  · obtain ⟨hascend, hstart⟩ := Listing.declaredFrames_offsets hfs
    exact ⟨hascend, fun e he => (h.listed.isStart _).mp (hstart e he).2⟩

/-- The frames of a body that is read are those that its stack map entries describe. -/
theorem ReadFrom.carriedFrames_eq (h : b.ReadFrom pool entry c l d fs) : b.carriedFrames =
    fs.map fun e => (rank (l.items.map Prod.fst) e.1, e.2.view b.ordinal?) := by
  obtain ⟨hascend, hstarts⟩ := h.offsets
  obtain ⟨hitems, -, hlast⟩ := List.pairwise_append.mp h.listed.ascend
  rw [Body.carriedFrames_eq h.spaced h.nodes, starts_readNodes, frameAt?_readNodes hitems
    (fun s hs => hlast s hs _ (List.mem_singleton.mpr rfl)) hascend hstarts]

/-- No instruction of a body that is read has two frames. -/
theorem ReadFrom.carriedFrames_ascend (h : b.ReadFrom pool entry c l d fs) :
    (b.carriedFrames.map Prod.fst).Pairwise (· < ·) := by
  obtain ⟨hascend, hstarts⟩ := h.offsets
  rw [h.carriedFrames_eq, List.map_map, List.pairwise_map]
  exact (List.pairwise_map.mp hascend).imp_of_mem fun he _ hlt => rank_lt (hstarts _ he) hlt

/-- The label of a `new` stands for its ordinal. -/
theorem ReadFrom.ordinal?_new (h : b.ReadFrom pool entry c l d fs) {o : Nat} {n : BinaryName}
    (hat : l.at? o = some (.inl (.new n))) :
    b.ordinal? ((LabelPlan.make l c.exceptions d).label o) = some (rank (l.items.map Prod.fst) o) := by
  have hitem := h.listed.mem_of_at? hat
  exact ordinal?_readNodes h.nodes h.listed.head h.listed.ascend
    (h.item_planned hitem (LabelPlan.wanted_new _ _ hitem)) (.inr (List.mem_map_of_mem hitem))

/-- The frames that are read are the ones behind the entry frame. -/
theorem ReadFrom.declared_eq {before : Frame} {xs : List StackMapFrame} {gs : List (Nat × Frame)}
    (h : b.ReadFrom pool (some before) c l d fs) (hd : d.frames = if xs = [] then none else some xs)
    (hgs : l.declaredFrames (l.resolve pool (LabelPlan.make l c.exceptions d)) 0 before xs = .ok gs) :
    gs = fs := by
  rcases h.frames with ⟨hnone, rfl⟩ | ⟨table, before', htable, hbefore, hfs⟩
  · have hempty : xs = [] := by simpa [hd] using hnone
    subst hempty
    cases hgs
    rfl
  · cases hbefore
    rw [hd] at htable
    split at htable
    · cases htable
    · cases htable
      exact Except.ok.inj (hgs.symm.trans hfs)

end ReadFrom

section Encoded

variable {b b' : Body} {p q : Pool} {before : Frame} {c : CodeAttribute} {pieces : List Piece}
  {place : Label → Except ClassError Nat} {d : DebugTables} {fs : List (Nat × Frame)}

/-- The listing and the frames of the body that is read. -/
theorem Encoded.framesRead (h : b.Encoded (some before) q c pieces place)
    (hh : List.Forall₂ (Holds q) b.nodes pieces) (hb : b.Retained p)
    (hbefore : before.Sited fun _ => False) (hfrom : b'.ReadFrom q (some before) c l d fs) :
    Listed l (starts (stand 0 b.nodes pieces)) (Layout.reach 0 pieces) ∧
      l.items = items (offsetOf (stand 0 b.nodes pieces)) (stand 0 b.nodes pieces) ∧
      FramesRead place q (fun t v => l.resolve q (LabelPlan.make l c.exceptions d) t = .ok v) 0
        ((stand 0 b.nodes pieces).filterMap (frameAt? (Layout.reach 0 pieces))) fs := by
  obtain ⟨l', hl', hi, hl⟩ := h.listing hh hb
  cases Except.ok.inj (hfrom.listing.symm.trans hl')
  obtain ⟨locals, xs, htables, -, hxs⟩ := h.tables hh hb hl hi
  have hd := Except.ok.inj (hfrom.tables.symm.trans htables)
  have hlaid := h.laid hh
  obtain ⟨_, r, hsome, hr, hw⟩ := hxs.resolve_left fun hnone => nomatch hnone.1
  cases hsome
  -- the entry frame has no sites, so that reading gives it back
  have hself : List.Forall₂ (fun t v => l.resolve q (LabelPlan.make l c.exceptions d) t = .ok v)
      r.packed before.packed :=
    (forall₂_mem ((TypeWritten.packed hr.locals).imp fun _ _ ht hs => ht.resolve_self hs)
      fun t ht => hbefore.locals t (Frame.mem_packLocals ht)).flip
  obtain ⟨gs, hgs, hread⟩ := hw.declared (fun _ _ hv => hv) hself hlaid.frames_sorted fun e he => by
    obtain ⟨-, hlt, hstart, hsited⟩ := hlaid.framed hb hl hi e he
    exact ⟨hstart, Nat.le_trans (Nat.le_of_lt hlt) hlaid.fits, hsited⟩
  cases hfrom.declared_eq (by rw [hd]) hgs
  exact ⟨hl, hi, hread⟩

/-- The frames of both bodies are the same by ordinals. -/
theorem Encoded.carriedFrames_iff (h : b.Encoded (some before) q c pieces place)
    (hh : List.Forall₂ (Holds q) b.nodes pieces) (hb : b.Retained p)
    (hpad : ∀ f, Node.frame f ∈ b.nodes → f.Padded) (hbefore : before.Sited fun _ => False)
    (hpad' : before.Padded) (hfrom : b'.ReadFrom q (some before) c l d fs) (e : Nat × FrameView) :
    e ∈ b'.carriedFrames ↔ e ∈ b.carriedFrames := by
  obtain ⟨hl, hi, hread⟩ := h.framesRead hh hb hbefore hfrom
  have hlaid := h.laid hh
  have hagree : SitesAgree place l (LabelPlan.make l c.exceptions d) b.ordinal? b'.ordinal? := by
    intro m o n hm hat
    rw [hfrom.ordinal?_new hat, hl.starts, (hlaid.places m o hm).1]
  have hpadded : ∀ e ∈ fs, e.2.Padded :=
    hfrom.frames_keep (fun f hf => Option.some.inj hf ▸ hpad') fun _ _ _ hx hnext => hx.next hnext
  have hview {o : Nat} {x y : Frame} {r : RawFrame}
      (hx : (o, x) ∈ (stand 0 b.nodes pieces).filterMap (frameAt? (Layout.reach 0 pieces)))
      (hy : (o, y) ∈ fs) (hw : x.Written place q r)
      (hr : y.Reads (fun t v => l.resolve q (LabelPlan.make l c.exceptions d) t = .ok v) r) :
      y.view b'.ordinal? = x.view b.ordinal? := by
    obtain ⟨hmem, -, -, hsited⟩ := hlaid.framed hb hl hi _ hx
    exact hw.view_eq hsited (hpad x hmem) hr (hpadded _ hy) hagree
  rw [hfrom.carriedFrames_eq, Body.carriedFrames_eq hlaid.spaced hlaid.nodes, hl.starts, List.mem_map,
    List.mem_map]
  constructor
  · rintro ⟨⟨o, y⟩, hy, rfl⟩
    obtain ⟨-, x, r, hx, hw, hr⟩ := hread.written _ hy
    exact ⟨(o, x), hx, by rw [hview hx hy hw hr]⟩
  · rintro ⟨⟨o, x⟩, hx, rfl⟩
    obtain ⟨y, r, hy, hw, hr⟩ := hread.read _ hx (Nat.zero_le _)
    exact ⟨(o, y), hy, by rw [hview hx hy hw hr]⟩

end Encoded

/-- Frames survive being written and read. The body that is read carries a frame just before the
instructions that had one, with the same types in the same places. It is the same program, so that the
ordinals of `new` instructions mean the same, and all frames are tied to these. -/
theorem ofCode_frames {b : Body} {p p' : Pool} {maxStack maxLocals : UInt16} {owner : BinaryName}
    {isStatic isConstructor : Bool} {type : MethodType} {code : CodeAttribute} (hp : p.Reached)
    (hb : b.Retained p) (hpad : ∀ f, Node.frame f ∈ b.nodes → f.Padded)
    (h : b.encode maxStack maxLocals (some (.entry owner isStatic isConstructor type)) p =
      (.ok code, p')) :
    ∃ b', Body.ofCode p' (some (.entry owner isStatic isConstructor type)) code = .ok b' ∧
      b'.Restores b ∧ b'.Tied ∧ (b'.carriedFrames.map Prod.fst).Pairwise (· < ·) ∧
      ∀ e, e ∈ b'.carriedFrames ↔ e ∈ b.carriedFrames := by
  obtain ⟨pieces, place, henc, hh⟩ := encode_ok hb.storable hp h
  obtain ⟨b', hb', hrestores⟩ := henc.read hh hb
  obtain ⟨l, d, fs, hfrom⟩ := ofCode_readFrom hb'
  have hsiteless : (Frame.entry owner isStatic isConstructor type).Sited fun _ => False := .entry ..
  exact ⟨b', hb', hrestores, hfrom.tied fun f hf => Option.some.inj hf ▸ hsiteless,
    hfrom.carriedFrames_ascend,
    henc.carriedFrames_iff hh hb hpad hsiteless (Frame.entry_padded _ _ _ _) hfrom⟩

end Body

namespace Discarded

open Pool

def entry : Frame := .entry BinaryName.object true false ⟨[.base .long], none⟩

def made : Frame := ⟨[.long, .top], [.uninitialized ⟨BinaryName.object, ⟨0⟩⟩]⟩

def body : Body where
  entries := #[(⟨0⟩, .label ⟨0⟩), (⟨1⟩, .insn (.new BinaryName.object)), (⟨2⟩, .frame made),
    (⟨3⟩, .frame made), (⟨4⟩, .insn (.stack .pop)), (⟨5⟩, .frame ⟨[], []⟩),
    (⟨6⟩, .branch (.leave none))]
  nextId := 7
  nextLabel := 1
  version := 7
  edits := #[]
  tryBlocks := []
  locals := []

def pool1 : Pool := Pool.empty.append (.utf8 "java/lang/Object")
def pool2 : Pool := pool1.append (.classRef 1)
def pool3 : Pool := pool2.append (.utf8 "StackMapTable")

def code : CodeAttribute :=
  ⟨1, 2, [0xBB, 0, 2, 0x57, 0xB1], [], [⟨3, [0, 2, 67, 8, 0, 0, 250, 0, 0]⟩]⟩

theorem retained : body.Retained Pool.empty where
  storable := {
    switches := by
      intro br hbr
      simp only [body, Body.nodes, List.map_cons, List.map_nil, List.mem_cons, List.not_mem_nil,
        or_false, reduceCtorEq, false_or, Node.branch.injEq] at hbr
      subst hbr
      trivial
    literals := by simp [body, Body.nodes]
    frames := by decide
    lines := by decide
    plain := by decide
    signed := by decide }
  resolved := {
    jumps := by
      intro br hbr
      simp only [body, Body.nodes, List.map_cons, List.map_nil, List.mem_cons, List.not_mem_nil,
        or_false, reduceCtorEq, false_or, Node.branch.injEq] at hbr
      subst hbr
      simp [Branch.targets]
    handlers := by simp [body] }
  tied := by decide +kernel

theorem padded : ∀ f, Node.frame f ∈ body.nodes → f.Padded := by
  have hmade : made.Padded := padded_spreadLocals [.long]
  intro f hf
  simp only [body, Body.nodes, List.map_cons, List.map_nil, List.mem_cons, List.not_mem_nil, or_false,
    reduceCtorEq, false_or, Node.frame.injEq] at hf
  rcases hf with rfl | rfl | rfl
  · exact hmade
  · exact hmade
  · exact padded_spreadLocals []

theorem encode_eq : body.encode 1 2 (some entry) Pool.empty = (.ok code, pool3) := by
  have h1 : internUtf8 "java/lang/Object" Pool.empty = (.ok 1, pool1) :=
    intern_fresh (by simp [empty]) (by decide)
  have h2 : intern (.classRef 1) pool1 = (.ok 2, pool2) :=
    intern_fresh (by simp [pool1, empty, append]) (by decide)
  have h3 : internUtf8 "StackMapTable" pool2 = (.ok 3, pool3) :=
    intern_fresh (by simp [pool2, pool1, empty, append]) (by decide)
  have hclass : internClass (.object BinaryName.object) Pool.empty = (.ok 2, pool2) :=
    run_bind_ok.mpr ⟨1, pool1, h1, h2⟩
  have hnew : Piece.ofNode (.insn (.new BinaryName.object)) Pool.empty =
      (.ok (.bytes [0xBB, 0, 2]), pool2) :=
    run_bind_ok.mpr ⟨_, _, run_bind_ok.mpr ⟨2, pool2, hclass, rfl⟩, rfl⟩
  have hpieces : body.nodes.mapM Piece.ofNode Pool.empty =
      (.ok [.label ⟨0⟩, .bytes [0xBB, 0, 2], .frame made, .frame made, .bytes [0x57],
        .frame ⟨[], []⟩, .branch (.leave none)], pool2) := by
    simp only [body, Body.nodes, List.map_cons, List.map_nil, List.mapM_cons]
    exact run_bind_ok.mpr ⟨_, Pool.empty, rfl, run_bind_ok.mpr ⟨_, pool2,
      run_bind_ok.mpr ⟨_, pool2, hnew, rfl⟩, rfl⟩⟩
  have hframes : tableAttribute .stackMapTable id [.sameOne 3 (.uninitialized 0), .chop 0 1] pool2 =
      (.ok [⟨3, [0, 2, 67, 8, 0, 0, 250, 0, 0]⟩], pool3) :=
    run_bind_ok.mpr ⟨_, _, run_bind_ok.mpr ⟨3, pool3, h3, rfl⟩, rfl⟩
  refine run_bind_ok.mpr ⟨_, pool2, hpieces, ?_⟩
  -- only the stack map table needs another constant
  refine run_bind_ok.mpr ⟨[[], [0xBB, 0, 2], [], [], [0x57], [], [0xB1]], pool2, rfl, ?_⟩
  refine run_bind_ok.mpr ⟨[], pool2, rfl, run_bind_ok.mpr ⟨[], pool2, rfl, ?_⟩⟩
  refine run_bind_ok.mpr ⟨[], pool2, rfl, run_bind_ok.mpr ⟨[], pool2, rfl, ?_⟩⟩
  refine run_bind_ok.mpr ⟨[], pool2, rfl, run_bind_ok.mpr ⟨⟨[.long, .top], []⟩, pool2, rfl, ?_⟩⟩
  refine run_bind_ok.mpr ⟨[.sameOne 3 (.uninitialized 0), .chop 0 1], pool2, rfl, ?_⟩
  exact run_bind_ok.mpr ⟨_, pool3, hframes, rfl⟩

end Discarded

theorem Discarded.frames_survive : Pool.empty.Reached ∧ Discarded.body.Retained Pool.empty ∧
    (∀ f, Node.frame f ∈ Discarded.body.nodes → f.Padded) ∧
    Discarded.body.encode 1 2 (some Discarded.entry) Pool.empty = (.ok Discarded.code, Discarded.pool3) ∧
    Discarded.body.carriedFrames =
      [(1, ⟨[.long, .top], [.uninitialized ⟨BinaryName.object, some 0⟩]⟩),
        (1, ⟨[.long, .top], [.uninitialized ⟨BinaryName.object, some 0⟩]⟩), (2, ⟨[], []⟩)] ∧
    ∃ b', Body.ofCode Discarded.pool3 (some Discarded.entry) Discarded.code = .ok b' ∧
      b'.Restores Discarded.body ∧ b'.Tied ∧ (b'.carriedFrames.map Prod.fst).Pairwise (· < ·) ∧
      ∀ e, e ∈ b'.carriedFrames ↔ e ∈ Discarded.body.carriedFrames :=
  ⟨.empty, Discarded.retained, Discarded.padded, Discarded.encode_eq, by decide +kernel,
    Body.ofCode_frames .empty Discarded.retained Discarded.padded Discarded.encode_eq⟩

end ClassGraft
