import ClassGraft.Proofs.CheckedLayout

namespace ClassGraft

open Layout Halting

namespace Draft

variable {d : Draft} {p : Pool}

/-- The draft with pieces behind the others. -/
def extend (d : Draft) (ps : List Piece) : Draft :=
  ⟨reach d.offset ps, (lay d.offset ps).reverse ++ d.seen⟩

theorem extend_extend (pc : Piece) (ps : List Piece) :
    (d.extend [pc]).extend ps = d.extend (pc :: ps) := by
  simp [extend, lay, reach]

theorem put_ok (pc : Piece) (h : d.offset + pc.size d.offset < 2 ^ 64) :
    d.put pc (pc.size d.offset) = .ok (d.extend [pc]) := by
  rw [put, size_ok h]
  rfl

theorem add_shadows {n : Node} (h : d.offset + n.room < 2 ^ 64) :
    Shadows p (d.add n) (do return d.extend [← Piece.ofNode n]) := by
  cases n with
  | insn i =>
    rw [Piece.ofNode, bind_assoc]
    refine (i.encodeChecked_shadows p).bind fun bs q hbs => .check (put_ok (.bytes bs) ?_)
    exact Nat.lt_of_le_of_lt (Nat.add_le_add_left (Instruction.encode_length hbs) _) h
  | branch b =>
    have hsize : d.offset + b.size d.offset < 2 ^ 64 :=
      Nat.lt_of_le_of_lt (Nat.add_le_add_left (b.size_le _) _) h
    exact .step (Branch.sizeChecked_ok hsize) (.check (put_ok (.branch b) hsize))
  | label l => exact .check (put_ok (.label l) h)
  | line n => exact .check (put_ok (.line n) h)
  | frame f => exact .check (put_ok (.frame f) h)

theorem foldlM_shadows {ns : List Node} (h : d.offset + (ns.map Node.room).sum < 2 ^ 64) :
    Shadows p (ns.foldlM add d) (do return d.extend (← ns.mapM Piece.ofNode)) := by
  induction ns generalizing d p with
  | nil => exact .pure d
  | cons n ns ih =>
    rw [List.map_cons, List.sum_cons] at h
    rw [List.foldlM_cons, List.mapM_cons, bind_assoc]
    refine (add_shadows (n := n) (by omega)).bindMap fun pc q hpc => ?_
    have hsize := Piece.ofNode_size hpc d.offset
    have hrest : (d.extend [pc]).offset + (ns.map Node.room).sum < 2 ^ 64 := by
      simp only [extend, reach]
      omega
    have := ih (p := q) hrest
    simpa only [bind_assoc, pure_bind, extend_extend] using this

/-- What is added without a stop is laid out. -/
theorem add_ok {d' : Draft} {n : Node} {q : Pool} (h : d.add n p = (.ok d', q)) :
    ∃ pc, Piece.ofNode n p = (.ok pc, q) ∧ d' = d.extend [pc] := by
  have hput {pc : Piece} {d' : Draft} (h : d.put pc (pc.size d.offset) = .ok d') : d' = d.extend [pc] := by
    obtain ⟨n, hn, h⟩ := except_bind_ok.mp h
    cases size_eq hn
    cases h
    rfl
  cases n with
  | insn i =>
    obtain ⟨bs, r, hbs, h⟩ := Pool.run_bind_ok.mp h
    have hplain := (i.encodeChecked_shadows p).ok_iff.mp hbs
    obtain ⟨hd, rfl⟩ := lift_run_ok.mp h
    exact ⟨.bytes bs, Pool.run_bind_ok.mpr ⟨bs, r, hplain, rfl⟩, hput hd⟩
  | branch b =>
    obtain ⟨size, r, hsize, h⟩ := Pool.run_bind_ok.mp h
    obtain ⟨hsized, rfl⟩ := lift_run_ok.mp hsize
    obtain ⟨hd, rfl⟩ := lift_run_ok.mp h
    cases Branch.sizeChecked_eq hsized
    exact ⟨.branch b, rfl, hput hd⟩
  | label l =>
    obtain ⟨hd, rfl⟩ := lift_run_ok.mp h
    exact ⟨.label l, rfl, hput hd⟩
  | line n =>
    obtain ⟨hd, rfl⟩ := lift_run_ok.mp h
    exact ⟨.line n, rfl, hput hd⟩
  | frame f =>
    obtain ⟨hd, rfl⟩ := lift_run_ok.mp h
    exact ⟨.frame f, rfl, hput hd⟩

theorem foldlM_ok {d' : Draft} {ns : List Node} {q : Pool} (h : ns.foldlM add d p = (.ok d', q)) :
    ∃ ps, ns.mapM Piece.ofNode p = (.ok ps, q) ∧ d' = d.extend ps := by
  induction ns generalizing d p with
  | nil =>
    cases h
    exact ⟨[], rfl, rfl⟩
  | cons n ns ih =>
    rw [List.foldlM_cons] at h
    obtain ⟨d₁, r, hd₁, h⟩ := Pool.run_bind_ok.mp h
    obtain ⟨pc, hpc, rfl⟩ := add_ok hd₁
    obtain ⟨ps, hps, rfl⟩ := ih h
    refine ⟨pc :: ps, ?_, extend_extend pc ps⟩
    rw [List.mapM_cons]
    exact Pool.run_bind_ok.mpr ⟨pc, r, hpc, Pool.run_bind_ok.mpr ⟨ps, q, hps, rfl⟩⟩

end Draft

namespace Body

variable {b : Body} {p q : Pool} {ps : List Piece} {maxStack maxLocals : UInt16} {entry : Option Frame}

/-- With the constants of a pool, the code of a body is written up to the last key of a table of some
kind. -/
def ComesTo (P : Branch Label → Prop) (b : Body) (p : Pool) : Prop :=
  ∃ ps q, b.nodes.mapM Piece.ofNode p = (.ok ps, q) ∧ (ofPieces ps).length ≤ 65535 ∧
    Layout.ComesTo P (placeOf (ofPieces ps).labels) (ofPieces ps).pieces

/-- The code is written up to the last key of a table for which it is the greatest word. -/
def Tops (b : Body) (p : Pool) : Prop := b.ComesTo Branch.EndsTop p

/-- The code is written up to the last key of a table for which it is not computed. -/
def Overruns (b : Body) (p : Pool) : Prop := b.ComesTo Branch.Overruns p

/-- With the constants of a pool, the nodes of a body are laid out as they are in unbounded integers. -/
def Drafts (b : Body) (p : Pool) : Prop := Shadows p (b.nodes.foldlM Draft.add ⟨0, []⟩)
  (do return (⟨0, []⟩ : Draft).extend (← b.nodes.mapM Piece.ofNode))

theorem drafts_of_room (hroom : b.room < 2 ^ 64) : b.Drafts p := by
  refine Draft.foldlM_shadows ?_
  rw [Nat.zero_add]
  exact hroom

theorem drafts_of_ok {d : Draft} (h : b.nodes.foldlM Draft.add ⟨0, []⟩ p = (.ok d, q)) : b.Drafts p := by
  obtain ⟨ps, hps, rfl⟩ := Draft.foldlM_ok h
  rw [Drafts, Shadows, h, run_bind, hps]
  rfl

theorem draft_layout (ps : List Piece) : ((⟨0, []⟩ : Draft).extend ps).layout = ofPieces ps := by
  simp [Draft.extend, Draft.layout, ofPieces_eq]

/-- The branches of a body fit where they are laid out. -/
theorem pieces_fit (hfits : (ofPieces ps).length ≤ 65535) : ∀ e ∈ (ofPieces ps).pieces, Layout.Fits e := by
  rintro ⟨o, pc⟩ he br rfl
  have hwithin : o + br.size o ≤ (ofPieces ps).length := ofPieces_within he
  have ho : o ≤ 65535 := by omega
  have hsize : br.size o ≤ 65535 := by omega
  exact ⟨ho, hsize⟩

/-- A branch that is laid out stands in the body. -/
theorem branch_of_laid (hps : b.nodes.mapM Piece.ofNode p = (.ok ps, q)) {e : Nat × Piece}
    (he : e ∈ (ofPieces ps).pieces) {br : Branch Label} (hbr : e.2 = .branch br) :
    Node.branch br ∈ b.nodes := by
  rw [ofPieces_pieces] at he
  have hmem : e.2 ∈ ps := lay_pieces 0 ps ▸ List.mem_map_of_mem (f := Prod.snd) he
  exact (Piece.ofNode_branches hps br).mp (hbr ▸ hmem)

/-- In a body whose tables have bounds, those that end with the greatest word are the only ones that
overrun. -/
theorem tops_iff (hbound : ∀ br, Node.branch br ∈ b.nodes → br.Bounded) : b.Tops p ↔ b.Overruns p := by
  constructor
  · rintro ⟨ps, q, hps, hfits, h⟩
    refine ⟨ps, q, hps, hfits, h.imp fun e he br hbr => ?_⟩
    exact (Branch.overruns_iff (hbound br (branch_of_laid hps he hbr))).mpr
  · rintro ⟨ps, q, hps, hfits, h⟩
    refine ⟨ps, q, hps, hfits, h.imp fun e he br hbr => ?_⟩
    exact (Branch.overruns_iff (hbound br (branch_of_laid hps he hbr))).mp

theorem not_overruns (h : ∀ br, Node.branch br ∈ b.nodes → ¬br.Overruns) : ¬b.Overruns p := by
  rintro ⟨ps, q, hps, -, hover⟩
  obtain ⟨e, he, br, hbr, hover⟩ := hover.exists_branch
  exact h br (branch_of_laid hps he hbr) hover

theorem encodeChecked_shadows (hdraft : b.Drafts p) (maxStack maxLocals : UInt16) (entry : Option Frame)
    (h : ¬b.Overruns p) :
    Shadows p (b.encodeChecked maxStack maxLocals entry) (b.encode maxStack maxLocals entry) := by
  refine Shadows.bindMap hdraft fun ps q hps => ?_
  rw [draft_layout]
  dsimp only
  split
  next => exact (Shadows.throw _).bind fun _ _ hthrow => nomatch hthrow
  next hle =>
    have hfits : (ofPieces ps).length ≤ 65535 := Nat.le_of_not_lt hle
    have hnear := near_labels hfits
    obtain ⟨hframes, hascend⟩ := ofPieces_frames hfits
    have hover : ¬Layout.ComesTo Branch.Overruns (placeOf (ofPieces ps).labels) (ofPieces ps).pieces :=
      fun ho => h ⟨ps, q, hps, hfits, ho⟩
    refine (emitChecked_shadows hnear (pieces_fit hfits) hover q).bind fun code _ _ => ?_
    refine (Shadows.mapM fun t _ q => t.encodeChecked_shadows hnear).bind fun exceptions _ _ => ?_
    refine .step (linesChecked_ok hfits) ((Shadows.lift _).bind fun lines _ _ => ?_)
    refine (Shadows.mapM fun v _ q => v.encodeChecked_shadows hnear).bind fun locals _ _ => ?_
    refine (Shadows.lift _).bind fun named _ _ => (Shadows.lift _).bind fun signed _ _ => ?_
    cases entry with
    | none => exact .pure _
    | some entry =>
      have hfirst : ∀ e ∈ (ofPieces ps).frames, (∀ o, (none : Option Nat) = some o → o ≤ e.1) ∧
          e.1 ≤ 65535 := fun e he => ⟨fun _ ho => (by cases ho), hframes e he⟩
      refine (entry.toRawChecked_shadows hnear).bind fun before _ _ => ?_
      refine (framesChecked_shadows hnear hfirst hascend).bind fun es _ hes => ?_
      exact (stackMapChecked_shadows (encodeFrames_written hes) _).bind fun _ _ _ => .pure _

theorem encodeChecked_overflow (hdraft : b.Drafts p) (maxStack maxLocals : UInt16)
    (entry : Option Frame) (h : b.Overruns p) :
    ∃ q, b.encodeChecked maxStack maxLocals entry p = (.error .overflow, q) := by
  obtain ⟨ps, q, hps, hfits, hover⟩ := h
  have hrun : b.nodes.foldlM Draft.add ⟨0, []⟩ p = (.ok ((⟨0, []⟩ : Draft).extend ps), q) := by
    rw [hdraft, run_bind, hps]
    rfl
  rw [encodeChecked, run_bind, hrun]
  dsimp only
  rw [draft_layout, if_neg (Nat.not_lt_of_le hfits), run_bind,
    emitChecked_overflow (near_labels hfits) (pieces_fit hfits) hover]
  exact ⟨q, rfl⟩

/-- What is encoded without a stop is what unbounded integers give. -/
theorem encodeChecked_ok {c : CodeAttribute}
    (h : b.encodeChecked maxStack maxLocals entry p = (.ok c, q)) :
    b.encode maxStack maxLocals entry p = (.ok c, q) := by
  obtain ⟨d, r, hd, -⟩ := Pool.run_bind_ok.mp h
  have hdraft := drafts_of_ok hd
  by_cases hover : b.Overruns p
  · obtain ⟨q', hstop⟩ := encodeChecked_overflow hdraft maxStack maxLocals entry hover
    cases h.symm.trans hstop
  · exact (encodeChecked_shadows hdraft maxStack maxLocals entry hover).ok_iff.mp h

/-- Without a table that stops it, an encoding is carried out. -/
theorem encodeChecked_of_ok (hroom : b.room < 2 ^ 64)
    (hplain : ∀ br, Node.branch br ∈ b.nodes → ¬br.Overruns) {c : CodeAttribute}
    (h : b.encode maxStack maxLocals entry p = (.ok c, q)) :
    b.encodeChecked maxStack maxLocals entry p = (.ok c, q) :=
  (encodeChecked_shadows (drafts_of_room hroom) maxStack maxLocals entry (not_overruns hplain)).ok_iff.mpr h

/-- An encoding is stopped by a table, and by nothing else. -/
theorem encodeChecked_stops (hroom : b.room < 2 ^ 64) (maxStack maxLocals : UInt16)
    (entry : Option Frame) :
    (∃ halt q, Halt.IsStop halt ∧ b.encodeChecked maxStack maxLocals entry p = (.error halt, q)) ↔
      b.Overruns p := by
  constructor
  · rintro ⟨halt, q, hstop, hrun⟩
    by_contra hover
    have hsame := encodeChecked_shadows (drafts_of_room hroom) maxStack maxLocals entry hover
    obtain ⟨e, -, rfl⟩ := hsame.error_iff.mp hrun
    exact hstop
  · intro hover
    obtain ⟨q, hrun⟩ := encodeChecked_overflow (drafts_of_room hroom) maxStack maxLocals entry hover
    exact ⟨.overflow, q, trivial, hrun⟩

/-- A body with such a table is not encoded without coming to one. -/
theorem tops_of_encoded {c : CodeAttribute} (h : b.encode maxStack maxLocals entry p = (.ok c, q))
    {br : Branch Label} (hbr : Node.branch br ∈ b.nodes) (htop : br.EndsTop) : b.Tops p := by
  obtain ⟨ps, r, parts, hps, -, hfits, -, hparts⟩ := encode_pieces h
  have hmem := (Piece.ofNode_branches hps br).mpr hbr
  rw [← lay_pieces 0 ps] at hmem
  obtain ⟨⟨o, _⟩, hlaid, rfl⟩ := List.mem_map.mp hmem
  refine ⟨ps, r, hps, ?_, ?_⟩
  · rw [ofPieces_eq]
    exact hfits
  · rw [ofPieces_eq]
    exact comesTo_of_emitted hparts hlaid htop

/-- Of all the steps by which a body that is read is encoded, one can leave the range of its type: the
sum from which the last key of a table is computed, where that key is the greatest word and the code is
written that far. A body with such a table is never encoded. Nothing else overflows, and no cut loses a bit. -/
theorem encodeChecked_read {b : Body} {pool p : Pool} {entry entry' : Option Frame} {c : CodeAttribute}
    (hc : c.code.length < 2 ^ 63) (h : ofCode pool entry c = .ok b) (maxStack maxLocals : UInt16) :
    (b.Tops p → ∃ q, b.encodeChecked maxStack maxLocals entry' p = (.error .overflow, q)) ∧
    (¬b.Tops p →
      Shadows p (b.encodeChecked maxStack maxLocals entry') (b.encode maxStack maxLocals entry')) ∧
    ((∃ br, Node.branch br ∈ b.nodes ∧ br.EndsTop) → ∀ c' q,
      b.encodeChecked maxStack maxLocals entry' p ≠ (.ok c', q)) := by
  obtain ⟨l, d, fs, hfrom⟩ := ofCode_readFrom h
  have hroom : b.room < 2 ^ 64 := by
    have := hfrom.room_le
    omega
  have hbound : ∀ br, Node.branch br ∈ b.nodes → br.Bounded := fun br hbr => (hfrom.jumps br hbr).1
  have hdraft : b.Drafts p := drafts_of_room hroom
  have hover := encodeChecked_overflow hdraft maxStack maxLocals entry'
  have hsame := encodeChecked_shadows hdraft maxStack maxLocals entry'
  rw [← tops_iff hbound] at hover hsame
  refine ⟨hover, hsame, ?_⟩
  rintro ⟨br, hbr, htop⟩ c' q hok
  by_cases ht : b.Tops p
  · obtain ⟨r, hr⟩ := hover ht
    cases hok.symm.trans hr
  · exact ht (tops_of_encoded ((hsame ht).ok_iff.mp hok) hbr htop)

end Body

namespace TopKey

def code : CodeAttribute where
  maxStack := 1
  maxLocals := 0
  code := [0xAA, 0, 0, 0, 0, 0, 0, 20, 0x7F, 0xFF, 0xFF, 0xFF, 0x7F, 0xFF, 0xFF, 0xFF, 0, 0, 0, 20, 0xB1]
  exceptions := []
  attributes := []

def switch : Branch Label := .tableSwitch ⟨0⟩ 2147483647 [⟨0⟩]

def body : Body where
  entries := #[(⟨0⟩, .branch switch), (⟨1⟩, .label ⟨0⟩), (⟨2⟩, .branch (.leave none))]
  nextId := 3
  nextLabel := 1
  version := 3
  edits := #[]
  tryBlocks := []
  locals := []

theorem body_read : Body.ofCode Pool.empty none code = .ok body := by cbv

theorem body_tops : body.Tops Pool.empty :=
  ⟨_, _, rfl, by decide, .here (n := 20) rfl rfl⟩

/-- Without the check the same body is encoded to the code that it was read from. -/
theorem stopped : Body.ofCode Pool.empty none code = .ok body ∧ body.Tops Pool.empty ∧
    body.encode 1 0 none Pool.empty = (.ok code, Pool.empty) ∧
    ∃ q, body.encodeChecked 1 0 none Pool.empty = (.error .overflow, q) :=
  ⟨body_read, body_tops, rfl, (Body.encodeChecked_read (by decide) body_read 1 0).1 body_tops⟩

end TopKey

end ClassGraft
