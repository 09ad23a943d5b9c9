import ClassGraft.Proofs.CheckedSteps
import ClassGraft.Proofs.CodeLayout

namespace ClassGraft

open Layout Halting

namespace Layout

/-- The bytes of pieces are written up to the last key of a table of some kind. -/
inductive ComesTo (P : Branch Label → Prop) (place : Label → Except ClassError Nat) :
    List (Nat × Piece) → Prop
  | here {o n : Nat} {default : Label} {low : Int32} {targets : List Label} {es : List (Nat × Piece)} :
      place default = .ok n → P (.tableSwitch default low targets) →
        ComesTo P place ((o, .branch (.tableSwitch default low targets)) :: es)
  | later {e : Nat × Piece} {bs : Bytes} {es : List (Nat × Piece)} :
      emit place e = .ok bs → ComesTo P place es → ComesTo P place (e :: es)

/-- A branch lies in a code array of the greatest length. -/
def Fits (e : Nat × Piece) : Prop := ∀ b, e.2 = .branch b → e.1 ≤ 65535 ∧ b.size e.1 ≤ 65535

variable {place : Label → Except ClassError Nat} {e : Nat × Piece} {es : List (Nat × Piece)}
  {P Q : Branch Label → Prop}

theorem ComesTo.imp (hPQ : ∀ e ∈ es, ∀ b, e.2 = .branch b → P b → Q b) (h : ComesTo P place es) :
    ComesTo Q place es := by
  induction h with
  | here hd hP => exact .here hd (hPQ _ List.mem_cons_self _ rfl hP)
  | later hbs _ ih => exact .later hbs (ih fun e he => hPQ e (List.mem_cons_of_mem _ he))

theorem ComesTo.exists_branch (h : ComesTo P place es) : ∃ e ∈ es, ∃ b, e.2 = .branch b ∧ P b := by
  induction h with
  | here _ hP => exact ⟨_, List.mem_cons_self, _, rfl, hP⟩
  | later _ _ ih =>
    obtain ⟨e, he, hb⟩ := ih
    exact ⟨e, List.mem_cons_of_mem _ he, hb⟩

theorem emitChecked_cases (hplace : Near place) (he : Fits e) :
    emitChecked (fun l => liftM (place l)) e = (emit place e).mapError .error ∨
      (∀ es, ComesTo Branch.Overruns place (e :: es)) ∧
        emitChecked (fun l => liftM (place l)) e = .error .overflow := by
  obtain ⟨o, pc⟩ := e
  cases pc with
  | branch b =>
    obtain ⟨ho, hsize⟩ := he b rfl
    by_cases hover : b.Overruns
    · cases b with
      | tableSwitch default low targets =>
        have hrun := Branch.encodeChecked_overruns hplace ho hsize hover
        cases hd : place default with
        | error err =>
          refine .inl (hrun.trans ?_)
          simp only [emit, Branch.encode, Branch.encodeWith, Branch.farJump, hd]
          rfl
        | ok n =>
          refine .inr ⟨fun es => .here hd hover, hrun.trans ?_⟩
          rw [hd]
          rfl
      | _ => exact hover.elim
    · exact .inl (Branch.encodeChecked_eq hplace ho hsize hover)
  | _ => exact .inl rfl

theorem emitChecked_shadows (hplace : Near place) (hes : ∀ e ∈ es, Fits e)
    (h : ¬ComesTo Branch.Overruns place es) (p : Pool) :
    Shadows p (es.mapM fun e => liftM (emitChecked (fun l => liftM (place l)) e))
      (es.mapM fun e => liftM (emit place e)) := by
  induction es with
  | nil => exact .pure []
  | cons e es ih =>
    obtain ⟨he, hes⟩ := List.forall_mem_cons.mp hes
    rw [List.mapM_cons, List.mapM_cons]
    rcases emitChecked_cases hplace he with heq | ⟨hover, -⟩
    · exact .look heq fun bs hbs => (ih hes fun ht => h (.later hbs ht)).bind fun parts _ _ =>
        .pure (bs :: parts)
    · exact absurd (hover es) h

theorem emitChecked_overflow (hplace : Near place) (hes : ∀ e ∈ es, Fits e)
    (h : ComesTo Branch.Overruns place es) (p : Pool) :
    (es.mapM fun e => liftM (emitChecked (fun l => liftM (place l)) e) : HaltingM (List Bytes)) p =
      (.error .overflow, p) := by
  induction h with
  | @here o n default low targets es hd hover =>
    obtain ⟨ho, hsize⟩ := hes _ List.mem_cons_self _ rfl
    rw [List.mapM_cons, run_bind]
    have hrun := Branch.encodeChecked_overruns hplace ho hsize hover
    rw [hd] at hrun
    simp only [emitChecked, hrun]
    rfl
  | @later e bs es hbs _ ih =>
    obtain ⟨he, hes⟩ := List.forall_mem_cons.mp hes
    rw [List.mapM_cons, run_bind]
    rcases emitChecked_cases hplace he with heq | ⟨-, heq⟩
    · rw [heq, hbs]
      change ((es.mapM fun e => liftM (emitChecked (fun l => liftM (place l)) e)) >>= _ :
        HaltingM (List Bytes)) p = _
      rw [run_bind, ih hes]
    · rw [heq]
      rfl

/-- Where all bytes are written, each such table is come to. -/
theorem comesTo_of_emitted {parts : List Bytes} {b : Branch Label} {o : Nat}
    (h : List.Forall₂ (fun e bs => emit place e = .ok bs) es parts) (hb : (o, .branch b) ∈ es)
    (htop : b.EndsTop) : ComesTo Branch.EndsTop place es := by
  induction h with
  | nil => cases hb
  | cons hemit _ ih =>
    rcases List.mem_cons.mp hb with rfl | hb
    · cases b with
      | tableSwitch default low targets =>
        obtain ⟨_, -, hemit⟩ := except_bind_ok.mp hemit
        obtain ⟨_, hother, -⟩ := except_bind_ok.mp hemit
        obtain ⟨n, hn, -⟩ := except_bind_ok.mp hother
        exact .here hn htop
      | _ => exact htop.elim
    · exact .later hemit (ih hb)

theorem le_reach (o : Nat) (ps : List Piece) : o ≤ reach o ps := by
  induction ps generalizing o with
  | nil => exact Nat.le_refl o
  | cons pc ps ih => exact Nat.le_trans (Nat.le_add_right _ _) (ih _)

theorem lay_within {o : Nat} {ps : List Piece} (h : e ∈ lay o ps) :
    o ≤ e.1 ∧ e.1 + e.2.size e.1 ≤ reach o ps := by
  induction ps generalizing o with
  | nil => cases h
  | cons pc ps ih =>
    rcases List.mem_cons.mp h with rfl | h
    · exact ⟨Nat.le_refl _, le_reach _ _⟩
    · have := ih h
      rw [reach]
      omega

theorem lay_ascend (o : Nat) (ps : List Piece) : (lay o ps).Pairwise fun e f => e.1 ≤ f.1 := by
  induction ps generalizing o with
  | nil => exact .nil
  | cons pc ps ih =>
    refine .cons (fun e he => ?_) (ih _)
    exact Nat.le_trans (Nat.le_add_right _ _) (lay_within he).1

theorem lay_pieces (o : Nat) (ps : List Piece) : (lay o ps).map Prod.snd = ps := by
  induction ps generalizing o with
  | nil => rfl
  | cons pc ps ih => rw [lay, List.map_cons, ih]

theorem ofPieces_pieces (ps : List Piece) : (ofPieces ps).pieces = lay 0 ps := by rw [ofPieces_eq]

/-- What is laid out lies before the end. -/
theorem ofPieces_within {ps : List Piece} (h : e ∈ (ofPieces ps).pieces) :
    e.1 + e.2.size e.1 ≤ (ofPieces ps).length := by
  rw [ofPieces_eq] at h ⊢
  exact (lay_within h).2

theorem near_labels {ps : List Piece} (h : (ofPieces ps).length ≤ 65535) :
    Near (placeOf (ofPieces ps).labels) := by
  intro l o ho
  obtain ⟨before, behind, hsplit, -⟩ := List.lookup_eq_some_iff.mp (placeOf_ok.mp ho)
  have hmem : (l, o) ∈ (ofPieces ps).labels := by simp [hsplit]
  obtain ⟨⟨o', pc⟩, hpc, hlabel⟩ := List.mem_filterMap.mp hmem
  have hwithin := ofPieces_within hpc
  cases pc with
  | label m =>
    cases hlabel
    exact Nat.le_trans (Nat.le_of_add_right_le hwithin) h
  | _ => cases hlabel

/-- The frame of a piece before the end, with its offset. -/
def frameOf? (stop : Nat) : Nat × Piece → Option (Nat × Frame)
  | (o, .frame f) => if o < stop then some (o, f) else none
  | _ => none

theorem frameOf?_some {stop : Nat} {f : Nat × Frame} (h : frameOf? stop e = some f) :
    f.1 = e.1 ∧ e.1 < stop := by
  obtain ⟨o, pc⟩ := e
  cases pc with
  | frame g =>
    simp only [frameOf?] at h
    split at h
    next hlt => cases h; exact ⟨rfl, hlt⟩
    next => cases h
  | _ => cases h

theorem frames_eq (l : Layout) : l.frames = l.pieces.filterMap (frameOf? l.length) := rfl

/-- Frames are laid out by ascending offset. -/
theorem ofPieces_frames {ps : List Piece} (h : (ofPieces ps).length ≤ 65535) :
    (∀ e ∈ (ofPieces ps).frames, e.1 ≤ 65535) ∧
      (ofPieces ps).frames.Pairwise fun e f => e.1 ≤ f.1 := by
  rw [frames_eq]
  constructor
  · intro f hf
    obtain ⟨e, -, he⟩ := List.mem_filterMap.mp hf
    obtain ⟨heq, hlt⟩ := frameOf?_some he
    omega
  · have hascend := lay_ascend 0 ps
    rw [← ofPieces_pieces] at hascend
    refine hascend.filterMap _ fun e e' hle f hf f' hf' => ?_
    rw [(frameOf?_some hf).1, (frameOf?_some hf').1]
    exact hle

theorem linesChecked_ok {l : Layout} (h : l.length ≤ 65535) : l.linesChecked = .ok l.lines := by
  rw [linesChecked, mapM_ok (g := fun e => (⟨e.1.toUInt16, e.2⟩ : LineEntry)), List.map_filterMap]
  · refine congrArg Except.ok (List.filterMap_congr fun e _ => ?_)
    obtain ⟨o, pc⟩ := e
    cases pc with
    | line n =>
      dsimp only
      split <;> rfl
    | _ => rfl
  · intro e he
    obtain ⟨⟨o, pc⟩, -, he⟩ := List.mem_filterMap.mp he
    cases pc with
    | line n =>
      dsimp only at he
      split at he
      next hlt =>
        cases he
        dsimp only
        rw [toUInt16_ok (by omega)]
        rfl
      next => cases he
    | _ => cases he

end Layout

theorem Piece.ofNode_size {n : Node} {p q : Pool} {pc : Piece} (h : Piece.ofNode n p = (.ok pc, q))
    (offset : Nat) : pc.size offset ≤ n.room := by
  cases n with
  | insn i =>
    obtain ⟨bs, _, hbs, h⟩ := Pool.run_bind_ok.mp h
    cases h
    exact Instruction.encode_length hbs
  | branch b => cases h; exact b.size_le offset
  | label | line | frame => cases h; exact Nat.le_refl _

/-- Branches are laid out as they are. -/
theorem Piece.ofNode_branches {ns : List Node} {p q : Pool} {ps : List Piece}
    (h : ns.mapM Piece.ofNode p = (.ok ps, q)) (b : Branch Label) :
    Piece.branch b ∈ ps ↔ Node.branch b ∈ ns := by
  have hshaped := Body.mapM_shaped h
  clear h
  induction hshaped with
  | nil => simp
  | cons hshape _ ih =>
    rw [List.mem_cons, List.mem_cons]
    refine or_congr ?_ ih
    cases hshape <;> simp

end ClassGraft
