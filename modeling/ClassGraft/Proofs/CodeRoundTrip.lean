import ClassGraft.Proofs.LaidBodies

namespace ClassGraft

open Layout

section Read

variable {b : Body} {p q : Pool} {entry : Option Frame} {c : CodeAttribute} {pieces : List Piece}
  {place : Label → Except ClassError Nat} {es : List (Nat × Node)} {stop : Nat} {l : Listing}

/-- The tables that are read. -/
theorem Body.Encoded.tables (h : b.Encoded entry q c pieces place)
    (hh : List.Forall₂ (Holds q) b.nodes pieces) (hb : b.Retained p)
    (hl : Listed l (starts (stand 0 b.nodes pieces)) (reach 0 pieces))
    (hi : l.items = items (offsetOf (stand 0 b.nodes pieces)) (stand 0 b.nodes pieces)) :
    ∃ locals xs, DebugTables.ofAttributes q l c.attributes =
        .ok ⟨(stand 0 b.nodes pieces).filterMap (lineAt? (reach 0 pieces)), locals,
          if xs = [] then none else some xs⟩ ∧
      List.Forall₂ (LocalRange.Kept place q)
        ((b.locals.filter fun v => v.isForward b.ordinal? && !v.isSignature) ++
          b.locals.filter fun v => v.isForward b.ordinal? && v.isSignature) locals ∧
      (entry = none ∧ xs = [] ∨ ∃ before r, entry = some before ∧ before.Written place q r ∧
        FramesWritten place q 0 r ((stand 0 b.nodes pieces).filterMap (frameAt? (reach 0 pieces)))
          xs) := by
  have hlaid := h.laid hh
  have hframed := hlaid.framed hb hl hi
  have hstop := h.fits
  obtain ⟨vs, as, bs, cs, ds, xs, hvs, has, hbs, hcs, hds, hxs, hattr⟩ := h.attributes
  rw [stand_lines hh] at has
  rw [stand_frames hh] at hxs
  obtain ⟨hplain, hsigned⟩ := Body.Encoded.locals_kept hlaid.places h.fits hvs
  have hrange : ∀ v ∈ ((vs.filterMap id).filter fun v => !v.2).map Prod.fst ++
      ((vs.filterMap id).filter fun v => v.2).map Prod.fst, DebugTables.InRange l v := by
    intro v hv
    rw [← List.map_append] at hv
    obtain ⟨e, he, rfl⟩ := List.mem_map.mp hv
    obtain ⟨w, _, hk⟩ := forall₂_right (List.rel_append hplain hsigned) e he
    exact hl.inRange hlaid.places hk
  have hlines : ((stand 0 b.nodes pieces).filterMap (lineAt? (reach 0 pieces))).length ≤ 65535 := by
    have hle := hb.storable.lines
    rwa [Body.lineNumbers_eq hlaid.spaced hlaid.nodes h.fits, List.length_map] at hle
  obtain ⟨hlen, hfits⟩ : xs.length ≤ 65535 ∧ ∀ x ∈ xs, x.Fits := by
    rcases hxs with ⟨-, rfl⟩ | ⟨before, r, -, -, hw⟩
    · exact ⟨Nat.zero_le _, fun x hx => absurd hx List.not_mem_nil⟩
    · refine ⟨?_, hw.fits (hlaid.counted hb.storable)⟩
      rcases hw.length_le fun e he => (hframed e he).2.1 with rfl | hle
      · exact Nat.zero_le _
      · omega
  have htables := DebugTables.ofAttributes_ok has hbs hcs hds hlines
    (by rw [List.length_map, ← hplain.length_eq]; exact hb.storable.plain)
    (by rw [List.length_map, ← hsigned.length_eq]; exact hb.storable.signed) hlen
    (fun e he => (hl.isStart _).mpr (hlaid.line_starts e he)) hrange hfits
  rw [map_fst_of_snd fun v hv => by simpa using (List.mem_filter.mp hv).2,
    map_fst_of_snd fun v hv => (List.mem_filter.mp hv).2, ← hattr] at htables
  exact ⟨_, xs, htables, List.rel_append hplain hsigned, hxs⟩

/-- What is read says what was written if its nodes are those of the listing. -/
theorem Laid.restores {b' : Body} {plan : LabelPlan} {fs : List (Nat × Frame)}
    (h : Laid b place es stop) (hb : b.Retained p) (hl : Listed l (starts es) stop)
    (hi : l.items = items (offsetOf es) es)
    (hn : (readNodes plan (es.filterMap (lineAt? stop)) fs l.items ++
      lastNodes plan stop).map Prod.snd = b'.nodes)
    (hg : ReadsAt plan b'.ordinal? (starts es) stop)
    (hp : ∀ br, Node.branch br ∈ b.nodes → ∀ m ∈ br.targets, offsetOf es m ∈ plan) :
    b'.program = b.program ∧ b'.lineNumbers = b.lineNumbers := by
  have hstarts := hl.starts
  constructor
  · rw [program_readNodes hn, hi]
    refine items_program h.nodes fun br hbr m hm => ?_
    obtain ⟨hpl, -⟩ := (h.jumpsFit hb br hbr).2 m hm
    obtain ⟨hord, -, hbd⟩ := h.places _ _ hpl
    rw [hg _ (hp br hbr m hm) hbd, hord]
  · have hs : Spaced stop 0 (readNodes plan (es.filterMap (lineAt? stop)) fs l.items ++
        lastNodes plan stop) :=
      readNodes_spaced (by rw [hstarts]; exact hl.head) (by rw [hstarts]; exact hl.ascend)
    rw [Body.lineNumbers_eq hs hn h.fits, Body.lineNumbers_eq h.spaced h.nodes h.fits,
      starts_readNodes, hstarts, lineAt?_readNodes]
    · rw [hstarts]
      exact h.spaced.starts_ascend
    · rw [hstarts]
      exact fun s hs => (h.spaced.starts_bounds s hs).2
    · exact lineAt?_sorted h.spaced h.fits
    · rw [hstarts]
      exact h.line_starts

/-- The frames that were written are read. -/
theorem Laid.frames_read (h : Laid b place es stop) (hb : b.Retained p) (hl : Listed l (starts es) stop)
    (hi : l.items = items (offsetOf es) es) {xs : List StackMapFrame}
    (hxs : entry = none ∧ xs = [] ∨ ∃ before r, entry = some before ∧ before.Written place q r ∧
      FramesWritten place q 0 r (es.filterMap (frameAt? stop)) xs) (plan : LabelPlan) :
    ∃ fs, (if xs = [] then none else some xs) = none ∧ fs = [] ∨
      ∃ table before, (if xs = [] then none else some xs) = some table ∧ entry = some before ∧
        l.declaredFrames (l.resolve q plan) 0 before table = .ok fs := by
  by_cases hempty : xs = []
  · exact ⟨[], .inl ⟨if_pos hempty, rfl⟩⟩
  · obtain ⟨before, r, he, hr, hw⟩ := hxs.resolve_left fun h => hempty h.2
    have hcount : List.Forall₂ (fun _ _ => True) r.packed before.packed :=
      (TypeWritten.packed hr.locals).flip.imp fun _ _ _ => trivial
    obtain ⟨fs, hfs, -⟩ := hw.declared (fun _ _ _ => trivial) hcount h.frames_sorted fun e hm => by
      obtain ⟨-, hlt, hstart, hsited⟩ := h.framed hb hl hi e hm
      exact ⟨hstart, Nat.le_trans (Nat.le_of_lt hlt) h.fits, hsited⟩
    exact ⟨fs, .inr ⟨xs, before, if_neg hempty, he, hfs⟩⟩

/-- A body is read back from what it was encoded to. -/
theorem Body.Encoded.read (h : b.Encoded entry q c pieces place)
    (hh : List.Forall₂ (Holds q) b.nodes pieces) (hb : b.Retained p) :
    ∃ b', Body.ofCode q entry c = .ok b' ∧ b'.Restores b := by
  have hlaid := h.laid hh
  obtain ⟨l, hlist, hi, hl⟩ := h.listing hh hb
  obtain ⟨locals, xs, htables, hlocals, hxs⟩ := h.tables hh hb hl hi
  obtain ⟨rs, hrs, hexc⟩ := h.exceptions
  generalize stand 0 b.nodes pieces = es at *
  generalize reach 0 pieces = stop at *
  have hblocks : List.Forall₂ (TryBlock.Kept place q)
      (b.tryBlocks.filter (TryBlock.isUsed b.ordinal?)) c.exceptions :=
    hexc ▸ forall₂_filter hrs (TryBlock.written_kept hlaid.places hlaid.fits)
  obtain ⟨htargets, hhandlers⟩ := hlaid.checks hb hl hi hblocks
  generalize hd : DebugTables.mk (es.filterMap (lineAt? stop)) locals
    (if xs = [] then none else some xs) = d at htables
  obtain ⟨plan, hplan⟩ : ∃ plan, plan = LabelPlan.make l c.exceptions d := ⟨_, rfl⟩
  obtain ⟨fs, hfs⟩ := hlaid.frames_read hb hl hi hxs plan
  replace hfs : d.frames = none ∧ fs = [] ∨ ∃ table before, d.frames = some table ∧
      entry = some before ∧ l.declaredFrames (l.resolve q plan) 0 before table = .ok fs := hd ▸ hfs
  have hmem {o : Nat} (hw : o ∈ LabelPlan.wanted l c.exceptions d) (ho : o ≤ stop) : o ∈ plan := by
    rw [hplan, LabelPlan.mem_make, hl.length]
    exact ⟨hw, ho⟩
  -- the nodes do not depend on the try blocks and local variables, which need their ordinals
  obtain ⟨b0, hb0⟩ : ∃ b0 : Body,
      (readNodes plan d.lines fs l.items ++ lastNodes plan l.length).map Prod.snd = b0.nodes :=
    ⟨_, (Body.nodes_ofNodes 0 _ [] []).symm⟩
  have hg : ReadsAt plan b0.ordinal? (starts es) stop := by
    intro o ho hbd
    have hr := ordinal?_readNodes hb0 (by rw [hl.starts, hl.length]; exact hl.head)
      (by rw [hl.starts, hl.length]; exact hl.ascend) ho
      (by rw [hl.starts, hl.length]; exact hbd)
    rwa [hl.starts] at hr
  obtain ⟨ts, hts, htv⟩ : ∃ ts, c.exceptions.mapM (tryBlock q plan) = .ok ts ∧
      ts.map (TryBlock.view b0.ordinal?) = (b.tryBlocks.filter (TryBlock.isUsed b.ordinal?)).map
        (TryBlock.view b.ordinal?) := by
    refine forall₂_mapM hblocks fun t e he hk => TryBlock.kept_read hlaid.places hg hk ?_
    obtain ⟨h1, h2, h3⟩ := LabelPlan.wanted_handler l d he
    exact ⟨hmem h1 (hlaid.places _ _ hk.1).2.1, hmem h2 (hlaid.places _ _ hk.2.1).2.1,
      hmem h3 (hlaid.places _ _ hk.2.2.1).2.1⟩
  obtain ⟨ls, hls, hlv⟩ : ∃ ls, d.locals.mapM (localRange q plan) = .ok ls ∧
      ls.map (LocalRange.view b0.ordinal?) =
        ((b.locals.filter fun v => v.isForward b.ordinal? && !v.isSignature) ++
          b.locals.filter fun v => v.isForward b.ordinal? && v.isSignature).map
            (LocalRange.view b.ordinal?) := by
    rw [← hd]
    refine forall₂_mapM hlocals fun v e he hk => LocalRange.kept_read hlaid.places hg hk ?_
    obtain ⟨h1, h2⟩ := LabelPlan.wanted_local l c.exceptions (show e ∈ d.locals from hd ▸ he)
    exact ⟨hmem h1 (hlaid.places _ _ hk.1).2.1, hmem h2 (hlaid.places _ _ hk.2.1).2.1⟩
  obtain ⟨b', hread, rfl, rfl, hb'⟩ :=
    Body.ofCode_ok hlist htargets hhandlers htables hplan hfs hts hls
  have ho : b'.ordinal? = b0.ordinal? := Body.ordinal?_congr (hb'.symm.trans hb0)
  rw [← ho] at hg htv hlv
  have hdl : d.lines = es.filterMap (lineAt? stop) := by rw [← hd]
  rw [hdl, hl.length] at hb'
  obtain ⟨hprogram, hlines⟩ := hlaid.restores hb hl hi hb' hg fun br hbr m hm => by
    obtain ⟨hpl, -⟩ := (hlaid.jumpsFit hb br hbr).2 m hm
    obtain ⟨o, hitem⟩ := mem_items_of_branch (offsetOf es) (hlaid.nodes ▸ hbr)
    refine hmem (LabelPlan.wanted_target c.exceptions d (hi ▸ hitem) _ ?_)
      (hlaid.places _ _ hpl).2.1
    rw [Branch.targets_map]
    exact List.mem_map_of_mem hm
  exact ⟨b', hread, hprogram, htv, hlv, hlines⟩

end Read

theorem Body.encode_ok {b : Body} {p p' : Pool} {maxStack maxLocals : UInt16}
    {entry : Option Frame} {code : CodeAttribute} (hb : b.Storable p) (hp : p.Reached)
    (h : b.encode maxStack maxLocals entry p = (.ok code, p')) :
    ∃ pieces place, b.Encoded entry p' code pieces place ∧
      List.Forall₂ (Holds p') b.nodes pieces := by
  obtain ⟨hs, he, hpost⟩ := b.encode_yields maxStack maxLocals entry p code p' hp.sound h
  obtain ⟨pieces, place, henc⟩ := hpost p' hs (.refl p')
  exact ⟨pieces, place, henc, forall₂_mem henc.holds fun n hn l hl =>
    he.names (hb.literals l (hl ▸ hn))⟩

theorem Body.Readable.restored {b : Body} {p p' : Pool} {maxStack maxLocals : UInt16}
    {entry : Option Frame} {code : CodeAttribute} (hb : b.Readable p) (hp : p.Reached)
    (h : b.encode maxStack maxLocals entry p = (.ok code, p')) :
    ∃ b', Body.ofCode p' entry code = .ok b' ∧ b'.Restores b := by
  obtain ⟨pieces, place, henc, hh⟩ := encode_ok hb.fits.storable hp h
  exact henc.read hh hb.retained

/-- A body that is encoded is read back with the same instructions, jumps, try blocks, local variables
and line numbers. -/
theorem Body.ofCode_restores {b : Body} {p p' : Pool} {maxStack maxLocals : UInt16}
    {entry : Option Frame} {code : CodeAttribute} (hp : p.Reached) (hb : b.Legible p)
    (h : b.encode maxStack maxLocals entry p = (.ok code, p')) :
    ∃ b', Body.ofCode p' entry code = .ok b' ∧ b'.Restores b :=
  hb.readable.restored hp h

namespace Countdown

open Pool

def body : Body where
  entries := #[(⟨0⟩, .label ⟨0⟩), (⟨1⟩, .line 7), (⟨2⟩, .insn (.load .int 0)),
    (⟨3⟩, .branch (.ifZero .eq ⟨1⟩)), (⟨4⟩, .insn (.increment 0 (-1))), (⟨5⟩, .branch (.goto ⟨0⟩)),
    (⟨6⟩, .label ⟨1⟩), (⟨7⟩, .branch (.leave none)), (⟨8⟩, .label ⟨2⟩)]
  nextId := 9
  nextLabel := 3
  version := 9
  edits := #[]
  tryBlocks := [⟨⟨0⟩, ⟨1⟩, ⟨1⟩, none⟩, ⟨⟨1⟩, ⟨1⟩, ⟨1⟩, none⟩]
  locals := [⟨"n", "I", ⟨0⟩, ⟨2⟩, 0, false⟩]

def pool1 : Pool := Pool.empty.append (.utf8 "LineNumberTable")
def pool2 : Pool := pool1.append (.utf8 "n")
def pool3 : Pool := pool2.append (.utf8 "I")
def pool4 : Pool := pool3.append (.utf8 "LocalVariableTable")

theorem intern1 : internUtf8 "LineNumberTable" Pool.empty = (.ok 1, pool1) :=
  intern_fresh (by simp [empty]) (by decide)

theorem intern2 : internUtf8 "n" pool1 = (.ok 2, pool2) :=
  intern_fresh (by simp [pool1, empty, append]) (by decide)

theorem intern3 : internUtf8 "I" pool2 = (.ok 3, pool3) :=
  intern_fresh (by simp [pool2, pool1, empty, append]) (by decide)

theorem intern4 : internUtf8 "LocalVariableTable" pool3 = (.ok 4, pool4) :=
  intern_fresh (by simp [pool3, pool2, pool1, empty, append]) (by decide)

def code : CodeAttribute :=
  ⟨1, 1, [0x1A, 0x99, 0, 9, 0x84, 0, 0xFF, 0xA7, 0xFF, 0xF9, 0xB1], [⟨0, 10, 10, 0⟩],
    [⟨1, [0, 1, 0, 0, 0, 7]⟩, ⟨4, [0, 1, 0, 0, 0, 11, 0, 2, 0, 3, 0, 0]⟩]⟩

theorem encode_eq : body.encode 1 1 none Pool.empty = (.ok code, pool4) := by
  refine run_bind_ok.mpr ⟨_, Pool.empty, rfl, ?_⟩
  refine run_bind_ok.mpr ⟨_, Pool.empty, rfl, ?_⟩
  refine run_bind_ok.mpr ⟨[some ⟨0, 10, 10, 0⟩, none], Pool.empty, rfl, ?_⟩
  refine run_bind_ok.mpr ⟨[⟨1, [0, 1, 0, 0, 0, 7]⟩], pool1, ?_, ?_⟩
  · exact run_bind_ok.mpr ⟨_, _, run_bind_ok.mpr ⟨_, _, intern1, rfl⟩, rfl⟩
  refine run_bind_ok.mpr ⟨[some (⟨0, 11, 2, 3, 0⟩, false)], pool3, ?_, ?_⟩
  · refine run_bind_ok.mpr ⟨_, _, run_bind_ok.mpr ⟨0, pool1, rfl, ?_⟩, rfl⟩
    refine run_bind_ok.mpr ⟨11, pool1, rfl, run_bind_ok.mpr ⟨_, _, intern2, ?_⟩⟩
    exact run_bind_ok.mpr ⟨_, _, intern3, rfl⟩
  refine run_bind_ok.mpr ⟨[⟨4, [0, 1, 0, 0, 0, 11, 0, 2, 0, 3, 0, 0]⟩], pool4, ?_, rfl⟩
  exact run_bind_ok.mpr ⟨_, _, run_bind_ok.mpr ⟨_, _, intern4, rfl⟩, rfl⟩

theorem legible : body.Legible Pool.empty where
  frames := by simp [body, Body.nodes]
  jumps := by
    have h0 : body.labelTarget ⟨0⟩ = .ok (some 2) := by cbv
    have h1 : body.labelTarget ⟨1⟩ = .ok (some 7) := by cbv
    intro br hbr
    simp only [body, Body.nodes, List.map_cons, List.map_nil, List.mem_cons, List.not_mem_nil,
      or_false, reduceCtorEq, false_or, or_self, Node.branch.injEq] at hbr
    rcases hbr with rfl | rfl | rfl <;> simp [Branch.Bounded, Branch.targets, h0, h1]
  handlers := by
    have h1 : body.labelTarget ⟨1⟩ = .ok (some 7) := by cbv
    intro t ht
    simp only [body, List.mem_cons, List.not_mem_nil, or_false] at ht
    rcases ht with rfl | rfl <;> exact ⟨7, h1⟩
  literals := by simp [body, Body.nodes]
  lines := by decide
  plain := by decide
  signed := by decide

end Countdown

theorem Countdown.body_restored : Pool.empty.Reached ∧ Countdown.body.Legible Pool.empty ∧
    Countdown.body.encode 1 1 none Pool.empty = (.ok Countdown.code, Countdown.pool4) ∧
      ∃ b', Body.ofCode Countdown.pool4 none Countdown.code = .ok b' ∧
        b'.Restores Countdown.body :=
  ⟨.empty, Countdown.legible, Countdown.encode_eq,
    Body.ofCode_restores .empty Countdown.legible Countdown.encode_eq⟩

end ClassGraft
