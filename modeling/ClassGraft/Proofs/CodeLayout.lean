import ClassGraft.Proofs.CodeRoundTrip
import ClassGraft.Proofs.PoolGrowth

namespace ClassGraft

open Layout

namespace Branch

variable {offset : Nat} {place : Label → Except ClassError Nat} {l : Label} {bs : Bytes}

theorem nearJump_length (h : nearJump offset place l = .ok bs) : bs.length = 2 := by
  obtain ⟨n, -, h⟩ := except_bind_ok.mp h
  dsimp only at h
  split at h
  next => cases h; rfl
  next => cases h

theorem farJump_length (h : farJump offset place l = .ok bs) : bs.length = 4 := by
  obtain ⟨n, -, h⟩ := except_bind_ok.mp h
  cases h
  rfl

/-- An opcode and the distance behind it. -/
theorem jump_length {x : Except ClassError Bytes} {op : UInt8} {n : Nat}
    (hx : ∀ ds, x = .ok ds → ds.length = n) (h : (do return op :: (← x) : Except ClassError Bytes) = .ok bs) :
    bs.length = n + 1 := by
  obtain ⟨ds, hds, h⟩ := except_bind_ok.mp h
  cases h
  rw [List.length_cons, hx ds hds]

theorem flatten_length {α : Type} {f : α → Except ClassError Bytes} {n : Nat} {xs : List α}
    {parts : List Bytes} (h : xs.mapM f = .ok parts) (hf : ∀ x bs, f x = .ok bs → bs.length = n) :
    parts.flatten.length = n * xs.length := by
  induction xs generalizing parts with
  | nil => cases h; rfl
  | cons x xs ih =>
    obtain ⟨bs, rest, hbs, hrest, rfl⟩ := mapM_cons_ok.mp h
    rw [List.flatten_cons, List.length_append, hf x bs hbs, ih hrest, List.length_cons, Nat.mul_add,
      Nat.mul_one]
    omega

theorem i32_length (n : Int32) : (Write.i32 n).length = 4 := rfl

theorem encode_tableSwitch {default : Label} {low : Int32} {targets : List Label}
    (h : (tableSwitch default low targets).encode offset place = .ok bs) : ∃ other operands,
      farJump offset place default = .ok other ∧ operands.length = 4 * (2 + targets.length) ∧
      bs = 0xAA :: List.replicate (switchPadding offset) 0 ++ (other ++ operands) := by
  obtain ⟨zeros, hzeros, h⟩ := except_bind_ok.mp h
  obtain ⟨other, hother, h⟩ := except_bind_ok.mp h
  obtain ⟨high, -, h⟩ := except_bind_ok.mp h
  obtain ⟨jumps, hjumps, h⟩ := except_bind_ok.mp h
  have hall := flatten_length hjumps fun _ _ => farJump_length
  cases hzeros
  cases h
  refine ⟨other, Write.i32 low ++ (Write.i32 high ++ jumps.flatten), hother, ?_, ?_⟩
  · rw [List.length_append, List.length_append, i32_length, i32_length, hall]
    omega
  · simp only [List.append_assoc, List.cons_append]

theorem encode_lookupSwitch {default : Label} {cases : List (Int32 × Label)}
    (h : (lookupSwitch default cases).encode offset place = .ok bs) : ∃ other operands,
      farJump offset place default = .ok other ∧ operands.length = 4 + 8 * cases.length ∧
      bs = 0xAB :: List.replicate (switchPadding offset) 0 ++ (other ++ operands) := by
  obtain ⟨zeros, hzeros, h⟩ := except_bind_ok.mp h
  obtain ⟨other, hother, h⟩ := except_bind_ok.mp h
  obtain ⟨size, -, h⟩ := except_bind_ok.mp h
  obtain ⟨jumps, hjumps, h⟩ := except_bind_ok.mp h
  have hcase (x : Int32 × Label) (part : Bytes)
      (hx : (do return Write.i32 x.1 ++ (← farJump offset place x.2) : Except ClassError Bytes) =
        .ok part) : part.length = 8 := by
    obtain ⟨ds, hds, hx⟩ := except_bind_ok.mp hx
    cases hx
    rw [List.length_append, i32_length, farJump_length hds]
  have hall := flatten_length hjumps hcase
  cases hzeros
  cases h
  refine ⟨other, Write.i32 size ++ jumps.flatten, hother, ?_, ?_⟩
  · rw [List.length_append, i32_length, hall]
  · simp only [List.append_assoc, List.cons_append]

/-- A branch takes as many bytes as are laid out for it. -/
theorem encode_length {b : Branch Label} (h : b.encode offset place = .ok bs) :
    bs.length = b.size offset := by
  cases b with
  | ifZero _ l | ifInt _ l | ifRef _ l | ifNull _ l | goto l | jsr l =>
    exact jump_length (fun _ => nearJump_length) h
  | gotoWide l | jsrWide l => exact jump_length (fun _ => farJump_length) h
  | ret slot =>
    cases h
    rw [size]
    split <;> rfl
  | tableSwitch default low targets =>
    obtain ⟨other, operands, hother, hoperands, rfl⟩ := encode_tableSwitch h
    simp only [List.length_append, List.length_cons, List.length_replicate, farJump_length hother,
      hoperands, size]
    omega
  | lookupSwitch default cases =>
    obtain ⟨other, operands, hother, hoperands, rfl⟩ := encode_lookupSwitch h
    simp only [List.length_append, List.length_cons, List.length_replicate, farJump_length hother,
      hoperands, size]
    omega
  | leave k => cases k <;> cases h <;> rfl
  | athrow => cases h; rfl

/-- Behind the opcode of a switch and its padding stand the operands, with the way to the default
first. -/
theorem encode_switch {b : Branch Label} (hb : b.category = .switch) (h : b.encode offset place = .ok bs) :
    ∃ op default other operands, b.targets.head? = some default ∧
      farJump offset place default = .ok other ∧
      bs = op :: List.replicate (switchPadding offset) 0 ++ (other ++ operands) := by
  cases b with
  | tableSwitch default low targets =>
    obtain ⟨other, operands, hother, -, hbs⟩ := encode_tableSwitch h
    exact ⟨_, default, other, operands, rfl, hother, hbs⟩
  | lookupSwitch default cases =>
    obtain ⟨other, operands, hother, -, hbs⟩ := encode_lookupSwitch h
    exact ⟨_, default, other, operands, rfl, hother, hbs⟩
  | _ => cases hb

end Branch

/-- The padding ends at a multiple of four. -/
theorem switchPadding_aligns (offset : Nat) : 4 ∣ offset + 1 + switchPadding offset := by
  unfold switchPadding
  omega

theorem Instruction.encode_nonempty {i : Instruction} {p q : Pool} {bs : Bytes}
    (h : i.encode p = (.ok bs, q)) : bs ≠ [] := by
  cases i with
  | bipush n | sipush n => cases h; exact List.cons_ne_nil _ _
  | load k slot | store k slot =>
    cases h
    unfold slotForm
    split_ifs <;> exact List.cons_ne_nil _ _
  | increment slot amount =>
    cases h
    unfold incrementForm
    split_ifs <;> exact List.cons_ne_nil _ _
  | newArray t => cases h; exact List.cons_ne_nil _ _
  | ldc l =>
    obtain ⟨index, _, -, h⟩ := Pool.run_bind_ok.mp h
    cases h
    unfold ldcForm
    split_ifs <;> exact List.cons_ne_nil _ _
  | field | new | newRefArray | checkCast | instanceOf | newMultiArray | invokeDynamic =>
    obtain ⟨index, _, -, h⟩ := Pool.run_bind_ok.mp h
    cases h
    exact List.cons_ne_nil _ _
  | invoke k m =>
    obtain ⟨index, _, -, h⟩ := Pool.run_bind_ok.mp h
    cases h
    split <;> exact List.cons_ne_nil _ _
  | _ => cases h; simp [Instruction.opcode?]

theorem Piece.ofNode_shaped {n : Node} {p q : Pool} {pc : Piece} (h : Piece.ofNode n p = (.ok pc, q)) :
    Shaped n pc := by
  cases n with
  | insn i =>
    obtain ⟨bs, _, hbs, h⟩ := Pool.run_bind_ok.mp h
    cases h
    exact .insn (Instruction.encode_nonempty hbs)
  | branch b => cases h; exact .branch b
  | label l => cases h; exact .label l
  | line k => cases h; exact .line k
  | frame f => cases h; exact .frame f

namespace Layout

variable {place : Label → Except ClassError Nat} {e : Nat × Piece} {es : List (Nat × Piece)} {o : Nat}
  {ns : List Node} {ps : List Piece} {parts : List Bytes} {bs : Bytes} {p q : Pool}

theorem emitted_run (h : (es.mapM fun e => (emit place e : PoolM Bytes)) p = (.ok parts, q)) :
    List.Forall₂ (fun e bs => emit place e = .ok bs) es parts :=
  (Pool.Interns.mapM_runs (fun _ => .lift _) h).imp fun _ _ ⟨_, _, hrun, _⟩ => congrArg Prod.fst hrun

theorem emit_length (h : emit place e = .ok bs) : bs.length = e.2.size e.1 := by
  obtain ⟨o, pc⟩ := e
  cases pc with
  | bytes part => cases h; rfl
  | branch b => exact Branch.encode_length h
  | label | line | frame => cases h; rfl

/-- The bytes of a piece stand at its offset, and those of all pieces end where the layout does. -/
theorem emitted_at (h : List.Forall₂ (fun e bs => emit place e = .ok bs) (lay o ps) parts) :
    o + parts.flatten.length = reach o ps ∧ ∀ e ∈ lay o ps, o ≤ e.1 ∧
      ∃ bs tail, emit place e = .ok bs ∧ parts.flatten.drop (e.1 - o) = bs ++ tail := by
  induction ps generalizing o parts with
  | nil =>
    cases h
    exact ⟨rfl, fun e he => absurd he List.not_mem_nil⟩
  | cons pc ps ih =>
    rw [lay] at h
    obtain ⟨bs, rest, hbs, hrest, rfl⟩ := List.forall₂_cons_left_iff.mp h
    obtain ⟨hend, hat⟩ := ih hrest
    have hsize : bs.length = pc.size o := emit_length hbs
    constructor
    · rw [List.flatten_cons, List.length_append, reach, ← hend]
      omega
    · intro e he
      rcases List.mem_cons.mp he with rfl | he
      · refine ⟨Nat.le_refl o, bs, rest.flatten, hbs, ?_⟩
        rw [Nat.sub_self, List.flatten_cons, List.drop_zero]
      · obtain ⟨hle, part, tail, hpart, hdrop⟩ := hat e he
        refine ⟨by omega, part, tail, hpart, ?_⟩
        have hsplit : e.1 - o = bs.length + (e.1 - (o + pc.size o)) := by omega
        rw [hsplit, List.flatten_cons, List.drop_length_add_append, hdrop]

/-- Nodes and their pieces stand at the same offsets. -/
theorem lay_of_stand (h : List.Forall₂ Shaped ns ps) {k : Nat} {x : Nat × Node}
    (hk : (stand o ns ps)[k]? = some x) : ∃ pc, (lay o ps)[k]? = some (x.1, pc) ∧ Shaped x.2 pc := by
  induction h generalizing o k with
  | nil => cases hk
  | @cons n pc ns ps hshaped _ ih =>
    cases k with
    | zero =>
      cases hk
      exact ⟨pc, rfl, hshaped⟩
    | succ k => exact ih hk

end Layout

/-- Behind the last instruction nothing takes room. -/
theorem Spaced.ends {stop o i : Nat} {es : List (Nat × Node)} {d : Nat × Node} (h : Spaced stop o es)
    (hi : es[i]? = some d) (hp : ∀ k c, i ≤ k → es[k]? = some c → c.2.isPseudo = true) : d.1 = stop := by
  rcases h.boundary d (List.mem_of_getElem? hi) with hstop | hstart
  · exact hstop
  · obtain ⟨c, hc, hsame⟩ := List.mem_map.mp hstart
    obtain ⟨hmem, hreal⟩ := List.mem_filter.mp hc
    obtain ⟨k, hk⟩ := List.mem_iff_getElem?.mp hmem
    have hreal : c.2.isPseudo = false := by simpa using hreal
    by_cases hle : i ≤ k
    · rw [hp k c hle hk] at hreal
      cases hreal
    · have hlt := (h.grows hk hi (by omega)).2 hreal
      omega

namespace Body

variable {b : Body} {i : Nat}

/-- No instruction comes behind a position that leads to none. -/
theorem instructionFrom?_pseudos (h : b.instructionFrom? i = none) {k : Nat} {n : Node} (hle : i ≤ k)
    (hn : b.get? k = some n) : n.isPseudo = true := by
  cases hp : n.isPseudo with
  | true => rfl
  | false =>
    obtain ⟨r, hr, -⟩ := instructionFrom?_least hle hn hp
    cases h.symm.trans hr

end Body

/-- What the layout of a body says about the code that is written for it: how long it is, where each
branch stands and with how many bytes, that a label leads to the first byte of the instruction behind it,
or to the end if there is none, and that the operands of a switch begin at a multiple of four. -/
structure Layout.Predicts (l : Layout) (b : Body) (code : Bytes) : Prop where
  length : code.length = l.length
  branches : ∀ k br, b.get? k = some (.branch br) → ∃ o bs tail, l.pieces[k]? = some (o, .branch br) ∧
    br.encode o (placeOf l.labels) = .ok bs ∧ bs.length = br.size o ∧ code.drop o = bs ++ tail
  labels : ∀ m i, b.labelPosition? m = some i → ∃ o, placeOf l.labels m = .ok o ∧
    match b.instructionFrom? i with
    | some j => ∃ pc bs tail, l.pieces[j]? = some (o, pc) ∧ emit (placeOf l.labels) (o, pc) = .ok bs ∧
      bs ≠ [] ∧ code.drop o = bs ++ tail
    | none => o = code.length
  switches : ∀ k br, b.get? k = some (.branch br) → br.category = .switch →
    ∃ o op default other operands tail, l.pieces[k]? = some (o, .branch br) ∧
      br.targets.head? = some default ∧ Branch.farJump o (placeOf l.labels) default = .ok other ∧
      code.drop o = op :: List.replicate (switchPadding o) 0 ++ (other ++ operands) ++ tail ∧
      4 ∣ o + 1 + switchPadding o

namespace Layout

variable {b : Body} {ps : List Piece} {parts : List Bytes} {k i : Nat} {n : Node} {m : Label}

/-- Instructions leave bytes. -/
theorem emit_nonempty {place : Label → Except ClassError Nat} {o : Nat} {pc : Piece} {bs : Bytes}
    (hs : Shaped n pc) (hn : n.isPseudo = false) (h : emit place (o, pc) = .ok bs) : bs ≠ [] := by
  have hlen := emit_length h
  cases hs with
  | insn hbs => cases h; exact hbs
  | branch br =>
    refine List.length_pos_iff.mp ?_
    rw [hlen]
    exact br.size_pos o
  | label | line | frame => cases hn

section Emitted

variable (hs : List.Forall₂ Shaped b.nodes ps)
  (he : List.Forall₂ (fun e bs => emit (placeOf (ofPieces ps).labels) e = .ok bs) (lay 0 ps) parts)
include he

theorem emitted_length : parts.flatten.length = (ofPieces ps).length := by
  rw [ofPieces_eq, ← (emitted_at he).1, Nat.zero_add]

include hs

/-- What stands at the position of a node, with its offset. -/
theorem emitted_node (hn : b.get? k = some n) : ∃ o pc bs tail, (stand 0 b.nodes ps)[k]? = some (o, n) ∧
    (ofPieces ps).pieces[k]? = some (o, pc) ∧ Shaped n pc ∧
      emit (placeOf (ofPieces ps).labels) (o, pc) = .ok bs ∧ parts.flatten.drop o = bs ++ tail := by
  have hpieces : (ofPieces ps).pieces = lay 0 ps := by rw [ofPieces_eq]
  obtain ⟨o, ho⟩ := (Body.get?_of_nodes (stand_nodes (o := 0) hs)).mp hn
  obtain ⟨pc, hpc, hshaped⟩ := lay_of_stand hs ho
  obtain ⟨-, bs, tail, hemit, hdrop⟩ := (emitted_at he).2 (o, pc) (List.mem_of_getElem? hpc)
  exact ⟨o, pc, bs, tail, ho, hpieces ▸ hpc, hshaped, hemit, hdrop⟩

theorem emitted_branch {br : Branch Label} (hn : b.get? k = some (.branch br)) : ∃ o bs tail,
    (ofPieces ps).pieces[k]? = some (o, .branch br) ∧
      br.encode o (placeOf (ofPieces ps).labels) = .ok bs ∧ parts.flatten.drop o = bs ++ tail := by
  obtain ⟨o, pc, bs, tail, -, hpc, hshaped, hemit, hdrop⟩ := emitted_node hs he hn
  cases hshaped
  exact ⟨o, bs, tail, hpc, hemit, hdrop⟩

/-- A label is at the offset at which the first bytes behind it begin. -/
theorem emitted_label (hm : b.labelPosition? m = some i) : ∃ o, placeOf (ofPieces ps).labels m = .ok o ∧
    match b.instructionFrom? i with
    | some j => ∃ pc bs tail, (ofPieces ps).pieces[j]? = some (o, pc) ∧
      emit (placeOf (ofPieces ps).labels) (o, pc) = .ok bs ∧ bs ≠ [] ∧ parts.flatten.drop o = bs ++ tail
    | none => o = parts.flatten.length := by
  have hmarked : (ofPieces ps).labels = marked (stand 0 b.nodes ps) := by
    rw [ofPieces_eq, stand_marked hs]
  have hnodes := stand_nodes (o := 0) hs
  have hspaced := stand_spaced (o := 0) hs
  obtain ⟨⟨n, hn, -⟩, -⟩ := Body.labelPosition?_eq_some.mp hm
  obtain ⟨o, ho⟩ := (Body.get?_of_nodes hnodes).mp hn
  have hplace : placeOf (ofPieces ps).labels m = .ok o := by
    rw [placeOf_ok, hmarked, Body.lookup_marked_position hnodes, hm, Option.bind_some, ho]
    rfl
  refine ⟨o, hplace, ?_⟩
  cases hj : b.instructionFrom? i with
  | none =>
    have hstop := hspaced.ends ho fun k c hle hk =>
      Body.instructionFrom?_pseudos hj hle ((Body.get?_of_nodes hnodes).mpr ⟨c.1, hk⟩)
    dsimp only
    rw [emitted_length he, ofPieces_eq]
    exact hstop
  | some j =>
    obtain ⟨hle, ⟨n', hn', hreal⟩, hskip⟩ := Body.instructionFrom?_eq_some.mp hj
    obtain ⟨o', pc, bs, tail, ho', hpc, hshaped, hemit, hdrop⟩ := emitted_node hs he hn'
    -- only pseudo nodes lie between the label and the instruction, and these take no room
    have hlevel : o = o' := hspaced.level ho ho' hle fun k hk hlt => by
      obtain ⟨x, hx, hpseudo⟩ := hskip k hk hlt
      obtain ⟨s, hs⟩ := (Body.get?_of_nodes hnodes).mp hx
      exact ⟨(s, x), hs, hpseudo⟩
    subst hlevel
    exact ⟨pc, bs, tail, hpc, hemit, emit_nonempty hshaped hreal hemit, hdrop⟩

/-- The bytes that are emitted for pieces stand where these were laid out. -/
theorem predicts_emitted : (ofPieces ps).Predicts b parts.flatten where
  length := emitted_length he
  branches k br hk := by
    obtain ⟨o, bs, tail, hpc, hemit, hdrop⟩ := emitted_branch hs he hk
    exact ⟨o, bs, tail, hpc, hemit, Branch.encode_length hemit, hdrop⟩
  labels m i hm := emitted_label hs he hm
  switches k br hk hswitch := by
    obtain ⟨o, bs, tail, hpc, hemit, hdrop⟩ := emitted_branch hs he hk
    obtain ⟨op, default, other, operands, hdefault, hother, rfl⟩ := Branch.encode_switch hswitch hemit
    exact ⟨o, op, default, other, operands, tail, hpc, hdefault, hother, hdrop, switchPadding_aligns o⟩

end Emitted

end Layout

namespace Body

variable {b : Body} {p q : Pool} {maxStack maxLocals : UInt16} {entry : Option Frame} {c : CodeAttribute}

/-- What a body is encoded to: its nodes are encoded first of all, and their pieces make up the code. -/
theorem encode_pieces (h : b.encode maxStack maxLocals entry p = (.ok c, q)) :
    ∃ pieces r parts, b.nodes.mapM Piece.ofNode p = (.ok pieces, r) ∧ r.Leads q ∧
      reach 0 pieces ≤ 65535 ∧ c.code = parts.flatten ∧
      List.Forall₂ (fun pc bs =>
        emit (placeOf (labels ⟨lay 0 pieces, reach 0 pieces⟩)) pc = .ok bs) (lay 0 pieces) parts := by
  obtain ⟨pieces, r, hpieces, h⟩ := Pool.run_bind_ok.mp h
  rw [ofPieces_eq] at h
  dsimp only at h
  split at h
  next =>
    obtain ⟨_, _, hthrow, -⟩ := Pool.run_bind_ok.mp h
    cases hthrow
  next hfits =>
    obtain ⟨parts, r₁, hparts, h⟩ := Pool.run_bind_ok.mp h
    obtain ⟨_, r₂, h₂, h⟩ := Pool.run_bind_ok.mp h
    obtain ⟨_, r₃, h₃, h⟩ := Pool.run_bind_ok.mp h
    obtain ⟨_, r₄, h₄, h⟩ := Pool.run_bind_ok.mp h
    obtain ⟨_, r₅, h₅, h⟩ := Pool.run_bind_ok.mp h
    obtain ⟨_, r₆, h₆, h⟩ := Pool.run_bind_ok.mp h
    have hl₆ : r.Leads r₆ := ((Pool.Interns.mapM fun _ => .lift _).run hparts).trans <|
      ((Pool.Interns.mapM fun t => t.encode_interns).run h₂).trans <|
      ((tableAttribute_interns _ _ _).run h₃).trans <|
      ((Pool.Interns.mapM fun v => v.encode_interns).run h₄).trans <|
      ((tableAttribute_interns _ _ _).run h₅).trans ((tableAttribute_interns _ _ _).run h₆)
    have hl : r₆.Leads q := (frames_interns entry _ _).run h
    have hcode : c.code = parts.flatten := by
      cases entry with
      | none =>
        cases h
        rfl
      | some entry =>
        obtain ⟨_, _, -, h⟩ := Pool.run_bind_ok.mp h
        obtain ⟨_, _, -, h⟩ := Pool.run_bind_ok.mp h
        obtain ⟨_, _, -, h⟩ := Pool.run_bind_ok.mp h
        cases h
        rfl
    exact ⟨pieces, r, parts, hpieces, hl₆.trans hl, by omega, hcode, emitted_run hparts⟩

theorem mapM_shaped {ns : List Node} {ps : List Piece} {r : Pool}
    (h : ns.mapM Piece.ofNode p = (.ok ps, r)) : List.Forall₂ Shaped ns ps :=
  (Pool.Interns.mapM_runs Piece.ofNode_interns h).imp fun _ _ ⟨_, _, hrun, _⟩ => Piece.ofNode_shaped hrun

/-- Whenever a body is encoded, the code is what was computed for it before. -/
theorem encode_predicted (h : b.encode maxStack maxLocals entry p = (.ok c, q)) :
    ∃ ps r, b.nodes.mapM Piece.ofNode p = (.ok ps, r) ∧ (Layout.ofPieces ps).Predicts b c.code := by
  obtain ⟨ps, r, parts, hps, -, -, hcode, hparts⟩ := encode_pieces h
  refine ⟨ps, r, hps, ?_⟩
  rw [hcode]
  rw [← ofPieces_eq] at hparts
  exact Layout.predicts_emitted (mapM_shaped hps) hparts

end Body

namespace PaddedSwitch

/-- A switch that is padded by two bytes, a wide return from a subroutine, and a label at the end. -/
def body : Body where
  entries := #[(⟨0⟩, .insn (.push (.int 1))), (⟨1⟩, .branch (.lookupSwitch ⟨0⟩ [(5, ⟨1⟩)])), (⟨2⟩, .label ⟨1⟩),
    (⟨3⟩, .branch (.ret 300)), (⟨4⟩, .label ⟨0⟩), (⟨5⟩, .branch (.leave none)), (⟨6⟩, .label ⟨2⟩)]
  nextId := 7
  nextLabel := 3
  version := 7
  edits := #[]
  tryBlocks := []
  locals := []

def code : CodeAttribute :=
  ⟨1, 301, [0x04, 0xAB, 0, 0, 0, 0, 0, 23, 0, 0, 0, 1, 0, 0, 0, 5, 0, 0, 0, 19, 0xC4, 0xA9, 1, 44, 0xB1], [],
    []⟩

theorem encode_eq : body.encode 1 301 none Pool.empty = (.ok code, Pool.empty) := by
  rfl

end PaddedSwitch

theorem PaddedSwitch.predicted :
    PaddedSwitch.body.encode 1 301 none Pool.empty = (.ok PaddedSwitch.code, Pool.empty) ∧
    ∃ ps r, PaddedSwitch.body.nodes.mapM Piece.ofNode Pool.empty = (.ok ps, r) ∧
      (Layout.ofPieces ps).Predicts PaddedSwitch.body PaddedSwitch.code.code :=
  ⟨PaddedSwitch.encode_eq, Body.encode_predicted PaddedSwitch.encode_eq⟩

end ClassGraft
