import ClassGraft.Code.Assembly
import ClassGraft.Code.Disassembly
import ClassGraft.Proofs.BranchBytes
import ClassGraft.Proofs.Ordinals

namespace ClassGraft

/-- The piece holds what the node says. -/
inductive Holds (q : Pool) : Node → Piece → Prop
  | insn {i : Instruction} {bs : Bytes} :
      (∀ length offset, (CodeSite.mk q length offset).Decodes bs (.inl i)) →
        Holds q (.insn i) (.bytes bs)
  | branch (br : Branch Label) : Holds q (.branch br) (.branch br)
  | label (l : Label) : Holds q (.label l) (.label l)
  | line (n : UInt16) : Holds q (.line n) (.line n)
  | frame (f : Frame) : Holds q (.frame f) (.frame f)

theorem Piece.ofNode_yields (n : Node) :
    Pool.Yields (Piece.ofNode n) fun q pc =>
      (∀ l, n = .insn (.ldc l) → q.Names l) → Holds q n pc := by
  cases n with
  | insn i =>
    exact i.encode_yields.map fun q bs _ h hn => .insn (h fun l hl => hn l (by rw [hl]))
  | branch br => exact .pure fun _ _ => .branch br
  | label l => exact .pure fun _ _ => .label l
  | line n => exact .pure fun _ _ => .line n
  | frame f => exact .pure fun _ _ => .frame f

namespace Layout

/-- Pieces with their offsets, one behind the other. -/
def lay (o : Nat) : List Piece → List (Nat × Piece)
  | [] => []
  | p :: ps => (o, p) :: lay (o + p.size o) ps

/-- The offset behind some pieces. -/
def reach (o : Nat) : List Piece → Nat
  | [] => o
  | p :: ps => reach (o + p.size o) ps

theorem arrange_eq (o : Nat) (seen : List (Nat × Piece)) (ps : List Piece) :
    arrange o seen ps = ⟨seen.reverse ++ lay o ps, reach o ps⟩ := by
  induction ps generalizing o seen with
  | nil => simp [arrange, lay, reach]
  | cons p ps ih => simp [arrange, lay, reach, ih]

theorem ofPieces_eq (ps : List Piece) : ofPieces ps = ⟨lay 0 ps, reach 0 ps⟩ := arrange_eq 0 [] ps

end Layout

open Layout

/-- Nodes at the offsets of their pieces. -/
def stand (o : Nat) : List Node → List Piece → List (Nat × Node)
  | n :: ns, p :: ps => (o, n) :: stand (o + p.size o) ns ps
  | _, _ => []

/-- The instructions among nodes at offsets. -/
def items (off : Label → Nat) (es : List (Nat × Node)) : List (Nat × CodeItem) :=
  es.filterMap fun e => (e.2.item? off).map fun i => (e.1, i)

variable {q : Pool} {ns : List Node} {ps : List Piece} {o : Nat}

/-- The piece is of the kind of its node, and that of an instruction has bytes. -/
inductive Shaped : Node → Piece → Prop
  | insn {i : Instruction} {bs : Bytes} : bs ≠ [] → Shaped (.insn i) (.bytes bs)
  | branch (br : Branch Label) : Shaped (.branch br) (.branch br)
  | label (l : Label) : Shaped (.label l) (.label l)
  | line (n : UInt16) : Shaped (.line n) (.line n)
  | frame (f : Frame) : Shaped (.frame f) (.frame f)

theorem Holds.shaped {n : Node} {p : Piece} (h : Holds q n p) : Shaped n p := by
  cases h with
  | insn hd =>
    obtain ⟨op, tail, rfl, _⟩ := hd 0 0
    exact .insn (List.cons_ne_nil op tail)
  | branch br => exact .branch br
  | label l => exact .label l
  | line n => exact .line n
  | frame f => exact .frame f

theorem stand_nodes (h : List.Forall₂ Shaped ns ps) : (stand o ns ps).map Prod.snd = ns := by
  induction h generalizing o with
  | nil => rfl
  | cons _ _ ih => rw [stand, List.map_cons, ih]

theorem stand_spaced (h : List.Forall₂ Shaped ns ps) : Spaced (reach o ps) o (stand o ns ps) := by
  induction h generalizing o with
  | nil => rfl
  | @cons n p ns ps hp _ ih =>
    refine ⟨rfl, o + p.size o, ?_, ih⟩
    cases hp with
    | insn hbs => exact Nat.lt_add_of_pos_right (List.length_pos_iff.mpr hbs)
    | branch br => exact Nat.lt_add_of_pos_right (br.size_pos o)
    | label | line | frame => rfl

theorem stand_marked (h : List.Forall₂ Shaped ns ps) (n : Nat) :
    Layout.labels ⟨lay o ps, n⟩ = marked (stand o ns ps) := by
  induction h generalizing o with
  | nil => rfl
  | @cons n p ns ps hp _ ih =>
    simp only [Layout.labels, marked] at ih
    cases hp <;> simp [Layout.labels, marked, lay, stand, Node.label?, ih]

/-- The entry for a line number that stands before an instruction. -/
def lineAt? (stop : Nat) (e : Nat × Node) : Option LineEntry :=
  match e.2 with
  | .line n => if e.1 < stop then some ⟨e.1.toUInt16, n⟩ else none
  | _ => none

theorem stand_lines (h : List.Forall₂ (Holds q) ns ps) (n : Nat) :
    Layout.lines ⟨lay o ps, n⟩ = (stand o ns ps).filterMap (lineAt? n) := by
  induction h generalizing o with
  | nil => rfl
  | @cons m p ns ps hp _ ih =>
    simp only [Layout.lines] at ih
    cases hp <;> simp [Layout.lines, lay, stand, lineAt?, ih, List.filterMap_cons]

/-- The frame that stands before an instruction, with its offset. -/
def frameAt? (stop : Nat) (e : Nat × Node) : Option (Nat × Frame) :=
  match e.2 with
  | .frame f => if e.1 < stop then some (e.1, f) else none
  | _ => none

theorem frameAt?_eq_some {stop : Nat} {e : Nat × Node} {f : Nat × Frame}
    (h : frameAt? stop e = some f) : e = (f.1, .frame f.2) ∧ f.1 < stop := by
  obtain ⟨p, n⟩ := e
  cases n with
  | frame g =>
    simp only [frameAt?] at h
    split at h
    next hlt => cases h; exact ⟨rfl, hlt⟩
    next => cases h
  | _ => cases h

theorem stand_frames (h : List.Forall₂ (Holds q) ns ps) (n : Nat) :
    Layout.frames ⟨lay o ps, n⟩ = (stand o ns ps).filterMap (frameAt? n) := by
  induction h generalizing o with
  | nil => rfl
  | @cons m p ns ps hp _ ih =>
    simp only [Layout.frames] at ih
    cases hp <;> simp [Layout.frames, lay, stand, frameAt?, ih, List.filterMap_cons]

/-- One more instruction is listed. -/
theorem listCode_cons {length : Nat} {bs rest : Bytes} {i : CodeItem} (seen : List (Nat × CodeItem))
    (h : (CodeSite.mk q length o).Decodes bs i) :
    listCode q length ⟨o, bs ++ rest⟩ seen =
      listCode q length ⟨o + bs.length, rest⟩ ((o, i) :: seen) := by
  obtain ⟨op, tail, rfl, hc⟩ := h
  have ht := hc (o + 1) rest
  have ho : o + (op :: tail).length = o + 1 + tail.length := by
    rw [List.length_cons]
    omega
  rw [ho, listCode]
  split
  next heq => cases heq
  next op' rest' heq =>
    cases heq
    split
    next e he => cases ht.symm.trans he
    next i' t he =>
      cases Except.ok.inj (ht.symm.trans he)
      rfl

/-- What is asked of the jumps of some nodes: all targets lie in the code, and tables have bounds. -/
def JumpsFit (place : Label → Except ClassError Nat) (off : Label → Nat) (stop : Nat)
    (ns : List Node) : Prop :=
  ∀ br, Node.branch br ∈ ns → br.Bounded ∧ ∀ l ∈ br.targets, place l = .ok (off l) ∧ off l < stop

theorem listCode_laid {place : Label → Except ClassError Nat} {off : Label → Nat} {stop : Nat}
    {parts : List Bytes} (h : List.Forall₂ (Holds q) ns ps)
    (hp : List.Forall₂ (fun p bs => emit place p = .ok bs) (lay o ps) parts) (hj : JumpsFit place off stop ns)
    (hs : reach o ps = stop) (hl : stop ≤ 65535) (seen : List (Nat × CodeItem)) :
    o + parts.flatten.length = stop ∧
      listCode q stop ⟨o, parts.flatten⟩ seen =
        .ok (seen.reverse ++ items off (stand o ns ps)) := by
  induction h generalizing o parts seen with
  | nil =>
    cases hp
    refine ⟨hs, ?_⟩
    rw [listCode]
    simp [items, stand]
  | @cons n p ns ps hn hns ih =>
    rw [lay] at hp
    obtain ⟨bs, parts, hb, hparts, rfl⟩ := List.forall₂_cons_left_iff.mp hp
    have hj' : JumpsFit place off stop ns := fun br hbr => hj br (List.mem_cons_of_mem _ hbr)
    have hr : o + p.size o ≤ stop := by
      rw [← hs, reach]
      exact (stand_spaced (hns.imp fun _ _ h => h.shaped)).le
    -- an instruction is read from its bytes, and the others have none
    have go (i : CodeItem) (hi : n.item? off = some i) (hsize : bs.length = p.size o)
        (hd : (CodeSite.mk q stop o).Decodes bs i) : o + (bs ++ parts.flatten).length = stop ∧
          listCode q stop ⟨o, bs ++ parts.flatten⟩ seen =
            .ok (seen.reverse ++ items off (stand o (n :: ns) (p :: ps))) := by
      obtain ⟨hlen, hlist⟩ := ih hparts hj' hs ((o, i) :: seen)
      refine ⟨by rw [List.length_append]; omega, ?_⟩
      rw [listCode_cons seen hd, hsize, hlist]
      simp [items, stand, hi]
    have skip (hi : n.item? off = none) (hsize : p.size o = 0) (hbs : bs = []) :
        o + (bs ++ parts.flatten).length = stop ∧
          listCode q stop ⟨o, bs ++ parts.flatten⟩ seen =
            .ok (seen.reverse ++ items off (stand o (n :: ns) (p :: ps))) := by
      have ih' := ih hparts hj' hs seen
      rw [hsize, Nat.add_zero] at ih'
      simpa [hbs, items, stand, hi, hsize] using ih'
    rw [List.flatten_cons]
    cases hn with
    | insn hd =>
      cases Except.ok.inj hb
      exact go _ rfl rfl (hd stop o)
    | branch br =>
      obtain ⟨hbound, ht⟩ := hj br List.mem_cons_self
      obtain ⟨hsize, hd⟩ := CodeSite.decodes_encode (c := ⟨q, stop, o⟩) hb ht hbound hr hl
      exact go _ rfl hsize hd
    | label | line | frame =>
      cases Except.ok.inj hb
      exact skip rfl rfl rfl

end ClassGraft
