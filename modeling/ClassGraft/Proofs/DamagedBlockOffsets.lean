import ClassGraft.Proofs.InstructionMatching
import ClassGraft.Proofs.OperandChanges
import ClassGraft.Rules.DamagedBlockInPlace

namespace ClassGraft

variable {a a' : Arena} {id : NodeId} {l : Literal} {p : Nat}

theorem run_lift {α : Type} (x : ArenaM α) (a : Arena) :
    (liftM x : PatchM α) a = ((x a).1.mapError .edit, (x a).2) := rfl

namespace Arena

/-- The constant that a node pushes. -/
def literal? (a : Arena) (id : NodeId) : Option Literal := (a.node? id).bind Node.literal?

/-- Does the first instruction behind a position push a constant? -/
def constantBehind (a : Arena) (position : Nat) : Bool :=
  ((a.instructionFrom? (position + 1)).bind a.node?).any fun n => n.category = .constant

theorem holdsAt_literal : a.holdsAt (.literal l) p = (a.order[p]?).any fun id => a.literal? id = some l := by
  rw [holdsAt, Predicate.matchesBy, get?]
  cases a.order[p]? with
  | none => rfl
  | some id =>
    rw [Option.bind_some, Option.any_some, literal?]
    cases a.node? id with
    | none => simp
    | some n => rfl

theorem allNodes_literal (a : Arena) (l : Literal) :
    a.allNodes (.literal l) = a.order.filter fun id => a.literal? id = some l := by
  have hholds : a.holdsAt (.literal l) = fun p => (a.order[p]?).any fun id => a.literal? id = some l :=
    funext fun p => holdsAt_literal
  have hmap := filter_positions (fun id => decide (a.literal? id = some l)) a.order
  calc a.allNodes (.literal l)
      = (((List.range a.order.length).filter fun p =>
          (a.order[p]?).any fun id => a.literal? id = some l).map (a.order[·]?)).filterMap id := by
        rw [allNodes, hholds, List.filterMap_map]
        rfl
    _ = ((a.order.filter fun id => a.literal? id = some l).map some).filterMap id := by rw [hmap]
    _ = a.order.filter fun id => a.literal? id = some l := by
        rw [List.filterMap_map]
        exact List.filterMap_some

/-- A node that pushes a constant is in order. -/
theorem Sound.literal_placed (h : a.Sound) (hl : a.literal? id = some l) : id ∈ a.order := by
  obtain ⟨n, hn, -⟩ := Option.bind_eq_some_iff.mp hl
  rw [h.mem_order, hn]
  rfl

theorem Sound.get?_position (h : a.Sound) (hp : a.position? id = some p) : a.get? p = a.node? id := by
  rw [get?, (h.placed id p).mp hp]
  rfl

/-- What the rule asks of a node is about the constants that are pushed there and behind it. -/
theorem Sound.holdsAt_followed (h : a.Sound) (hp : a.position? id = some p)
    (hl : a.literal? id = some l) :
    a.holdsAt (.followedBy (.literal l) (.category .constant)) p = a.constantBehind p := by
  obtain ⟨n, hn, hpush⟩ := Option.bind_eq_some_iff.mp hl
  have hget : a.get? p = some n := (h.get?_position hp).trans hn
  have hfirst : a.holdsAt (.literal l) p = true := by
    rw [holdsAt, Predicate.matchesBy, hget]
    exact decide_eq_true hpush
  have hnext : ((a.nextInstruction? p).map (a.holdsAt (.category .constant))).getD false =
      a.constantBehind p := by
    unfold nextInstruction? constantBehind
    cases hfound : a.instructionFrom? (p + 1) with
    | none => rfl
    | some next =>
      have hmem : next ∈ a.order := List.mem_of_mem_drop (List.mem_of_find?_eq_some hfound)
      obtain ⟨q, hq⟩ := h.position_of_mem hmem
      simp only [Option.bind_some, hq, Option.map_some, Option.getD_some]
      rw [holdsAt, Predicate.matchesBy, h.get?_position hq]
      cases a.node? next <;> rfl
  calc a.holdsAt (.followedBy (.literal l) (.category .constant)) p
      = (a.holdsAt (.literal l) p &&
          ((a.nextInstruction? p).map (a.holdsAt (.category .constant))).getD false) := by
        rw [holdsAt, Predicate.matchesBy, hget]
        rfl
    _ = a.constantBehind p := by rw [hfirst, hnext, Bool.true_and]

/-- Float constants are pushed by some nodes now. All other nodes are as they were, and so is what has
been noted of them. -/
structure Floats (a a' : Arena) (changes : List (NodeId × UInt32)) : Prop where
  sound : a'.Sound
  set : ∀ c ∈ changes, a'.node? c.1 = some (.insn (.push (.float c.2)))
  kept : ∀ id, id ∉ changes.map Prod.fst → a'.node? id = a.node? id
  order : a'.order = a.order
  positions : a'.positions = a.positions
  edits : a'.edits = a.edits ++ (changes.map fun c => (⟨some c.1, [c.1], [], 1, 1⟩ : Edit)).toArray
  version : a'.version = a.version + changes.length
  rest : a'.labelNodes = a.labelNodes ∧ a'.nextLabel = a.nextLabel ∧ a'.tryBlocks = a.tryBlocks ∧
    a'.locals = a.locals

/-- The body is changed in the same way. -/
theorem Sound.body_replaceOperand {o : Operand} {old new : Node} (h : a.Sound)
    (hold : a.node? id = some old) (hnew : old.withOperand? o = some new) :
    a.body.replaceOperand id o = .ok (a.updated id old new).body := by
  have hrun : Arena.change (.replaceOperand id o) a = (.ok .done, a.updated id old new) := by
    show (replaceOperand id o >>= fun _ => pure ChangeResult.done) a = _
    rw [run_bind, run_replaceOperand hold, hnew]
    rfl
  have hmatch := @Sound.changed_operand a (fun _ => False) h id o
  rw [hrun] at hmatch
  generalize hbody : a.body.change (.replaceOperand id o) = result at hmatch
  cases hmatch with
  | does hsound hsize hcarried =>
    change (a.body.replaceOperand id o).map (fun b => (ChangeResult.done, b)) = _ at hbody
    cases hb : a.body.replaceOperand id o with
    | error e => rw [hb] at hbody; cases hbody
    | ok b => rw [hb] at hbody; cases hbody; rfl

/-- One after the other floats get other bits. Each is still the one it was when its turn comes. -/
theorem Sound.run_floats {x : UInt32} {changes : List (NodeId × UInt32)} (h : a.Sound)
    (hnodup : (changes.map Prod.fst).Nodup)
    (hold : ∀ c ∈ changes, a.literal? c.1 = some (.float x)) :
    ∃ a', Rules.changeFloats changes a = (.ok (), a') ∧
      (changes.foldlM (fun b c => b.replaceOperand c.1 (.literal (.float c.2))) a.body : Patching Body) =
        .ok a'.body ∧
      a.Floats a' changes := by
  induction changes generalizing a with
  | nil =>
    refine ⟨a, rfl, rfl, h, by simp, fun _ _ => rfl, rfl, rfl, ?_, rfl, rfl, rfl, rfl, rfl⟩
    simp
  | cons c cs ih =>
    obtain ⟨hfirst, hrest⟩ := List.forall_mem_cons.mp hold
    rw [List.map_cons, List.nodup_cons] at hnodup
    obtain ⟨hc, hcs⟩ := hnodup
    obtain ⟨n, hn, hlit⟩ := Option.bind_eq_some_iff.mp hfirst
    have hnew : n.withOperand? (.literal (.float c.2)) = some (.insn (.push (.float c.2))) :=
      Node.withOperand?_constant hlit rfl
    have hedit : (a.updated c.1 n (.insn (.push (.float c.2)))).edits =
        a.edits.push ⟨some c.1, [c.1], [], 1, 1⟩ := by
      have heffect := Node.effect_of_literal (n := .insn (.push (.float c.2))) (Instruction.literal?_push _)
      rw [Arena.updated, heffect, Node.effect_of_literal hlit]
      rfl
    have hsound := h.updated hn (withOperand?_plain hnew)
    have hother : ∀ d ∈ cs, d.1 ≠ c.1 := fun d hd he => hc (he ▸ List.mem_map_of_mem hd)
    obtain ⟨a', hrun, hbody, hdone⟩ := ih hsound hcs fun d hd => by
      rw [literal?, node?_updated hn, if_neg (hother d hd)]
      exact hrest d hd
    refine ⟨a', ?_, ?_, hdone.sound, ?_, ?_, hdone.order, hdone.positions, ?_, ?_, hdone.rest⟩
    · rw [Rules.changeFloats, List.forM, run_bind, run_lift, run_replaceOperand hn, hnew]
      exact hrun
    · rw [List.foldlM_cons, h.body_replaceOperand hn hnew]
      exact hbody
    · refine List.forall_mem_cons.mpr ⟨?_, hdone.set⟩
      rw [hdone.kept c.1 hc, node?_updated hn, if_pos rfl]
    · intro id hid
      rw [List.map_cons, List.mem_cons, not_or] at hid
      rw [hdone.kept id hid.2, node?_updated hn, if_neg hid.1]
    · rw [hdone.edits, hedit]
      simp
    · rw [hdone.version, List.length_cons]
      show a.version + 1 + cs.length = a.version + (cs.length + 1)
      omega

end Arena

namespace Rules

open Arena

def isOffset (a : Arena) (id : NodeId) : Bool := a.literal? id = some (.float offsetBits)

/-- What an offset becomes. -/
def offsetOf (a : Arena) (id : NodeId) : UInt32 :=
  if (a.position? id).any a.constantBehind then nearBits else farBits

/-- All offsets, with what each becomes. -/
def newOffsets (a : Arena) : List (NodeId × UInt32) :=
  (a.order.filter (isOffset a)).map fun id => (id, offsetOf a id)

theorem newOffsets_ids (a : Arena) : (newOffsets a).map Prod.fst = a.order.filter (isOffset a) := by
  rw [newOffsets, List.map_map]
  exact List.map_id _

/-- An offset has a place, and what the rule asks there is about the constant behind it. -/
theorem offset_placed (h : a.Sound) (hid : id ∈ a.order.filter (isOffset a)) :
    ∃ p, a.position? id = some p ∧
      a.holdsAt (.followedBy (.literal (.float offsetBits)) (.category .constant)) p =
        a.constantBehind p := by
  obtain ⟨hmem, hoffset⟩ := List.mem_filter.mp hid
  obtain ⟨p, hp⟩ := h.position_of_mem hmem
  exact ⟨p, hp, h.holdsAt_followed hp (of_decide_eq_true hoffset)⟩

theorem offsetOf_placed (hp : a.position? id = some p) :
    offsetOf a id = if a.constantBehind p then nearBits else farBits := by
  rw [offsetOf, hp, Option.any_some]

theorem run_offsetChange (h : a.Sound) (hid : id ∈ a.order.filter (isOffset a)) :
    offsetChange id a = (.ok (id, offsetOf a id), a) := by
  obtain ⟨p, hp, hholds⟩ := offset_placed h hid
  rw [offsetChange, run_bind, run_lift, run_position, hp, offsetOf_placed hp, ← hholds]
  rfl

/-- Nothing is changed if there are no offsets. -/
theorem run_moveDamagedBlock (context : PatchContext) (h : a.Sound) :
    moveDamagedBlockInPlace context a =
      if (newOffsets a).isEmpty then (.error (.targetMissing "ldc -3.0f"), a)
      else changeFloats (newOffsets a) a := by
  have hchanges : ((a.allNodes (.literal (.float offsetBits))).mapM offsetChange) a =
      (.ok (newOffsets a), a) := by
    rw [allNodes_literal]
    exact mapM_still fun id hid => run_offsetChange h hid
  have hget : (get : PatchM Arena) a = (.ok a, a) := rfl
  rw [moveDamagedBlockInPlace, run_bind, hget]
  dsimp only
  rw [run_bind, hchanges]
  dsimp only
  split <;> rfl

/-- The rule for bodies goes the same way. -/
theorem body_moveDamagedBlock (context : PatchContext) (h : a.Sound) :
    moveDamagedBlock context a.body =
      if (newOffsets a).isEmpty then .error (.targetMissing "ldc -3.0f")
      else ((newOffsets a).foldlM (fun b c => b.replaceOperand c.1 (.literal (.float c.2))) a.body :
        Patching Body) := by
  have hnodes : a.body.allNodes (.literal (.float offsetBits)) = a.order.filter (isOffset a) := by
    rw [h.body_allNodes, allNodes_literal]
    rfl
  have hchanges : (a.order.filter (isOffset a)).mapM (fun id => do
      return (id, newOffset a.body (← (a.body.position id : Patching Nat)))) = .ok (newOffsets a) := by
    refine mapM_ok_map fun id hid => ?_
    obtain ⟨p, hp, hholds⟩ := offset_placed h hid
    rw [h.body_position, hp, offsetOf_placed hp, ← hholds, h.holdsAt_body]
    rfl
  have hempty : (newOffsets a).isEmpty = (a.order.filter (isOffset a)).isEmpty := by
    rw [newOffsets, List.isEmpty_map]
  rw [moveDamagedBlock, hnodes, hempty]
  dsimp only
  split
  next => rfl
  next => exact (congrArg (· >>= _) hchanges).trans rfl

/-- The offsets are changed, and nothing else. -/
structure MovesOffsets (a a' : Arena) : Prop where
  sound : a'.Sound
  order : a'.order = a.order
  positions : a'.positions = a.positions
  /-- What an offset becomes depends on the first instruction behind it, as it was. -/
  moved : ∀ id p, a.position? id = some p → a.literal? id = some (.float offsetBits) →
    a'.node? id = some (.insn (.ldc (.float (if a.constantBehind p then nearBits else farBits))))
  kept : ∀ id, a.literal? id ≠ some (.float offsetBits) → a'.node? id = a.node? id
  gone : ∀ id, a'.literal? id ≠ some (.float offsetBits)
  edits : a'.edits = a.edits ++
    ((a.order.filter (isOffset a)).map fun id => (⟨some id, [id], [], 1, 1⟩ : Edit)).toArray
  neutral : ∀ e ∈ a'.edits, e ∈ a.edits ∨ e.isNeutral = true
  version : a'.version = a.version + (a.order.filter (isOffset a)).length
  rest : a'.labelNodes = a.labelNodes ∧ a'.nextLabel = a.nextLabel ∧ a'.tryBlocks = a.tryBlocks ∧
    a'.locals = a.locals

theorem push_offsetOf (a : Arena) (id : NodeId) :
    Instruction.push (.float (offsetOf a id)) = .ldc (.float (offsetOf a id)) ∧
      offsetOf a id ≠ offsetBits := by
  unfold offsetOf
  split <;> decide

/-- Other bits at all offsets are what moves them. -/
theorem MovesOffsets.of_floats (h : a.Sound) (hdone : a.Floats a' (newOffsets a)) : MovesOffsets a a' := by
  have hset : ∀ id, a.literal? id = some (.float offsetBits) →
      a'.node? id = some (.insn (.ldc (.float (offsetOf a id)))) := by
    intro id hid
    rw [← (push_offsetOf a id).1]
    exact hdone.set (id, offsetOf a id) (List.mem_map_of_mem
      (List.mem_filter.mpr ⟨h.literal_placed hid, decide_eq_true hid⟩))
  have hkept : ∀ id, a.literal? id ≠ some (.float offsetBits) → a'.node? id = a.node? id := by
    intro id hid
    refine hdone.kept id fun hmem => hid ?_
    rw [newOffsets_ids] at hmem
    exact of_decide_eq_true (List.mem_filter.mp hmem).2
  have hedits : a'.edits = a.edits ++
      ((a.order.filter (isOffset a)).map fun id => (⟨some id, [id], [], 1, 1⟩ : Edit)).toArray := by
    rw [hdone.edits, newOffsets, List.map_map]
    rfl
  refine ⟨hdone.sound, hdone.order, hdone.positions, fun id p hp hid => ?_, hkept, fun id hid => ?_, hedits,
    fun e he => ?_, ?_, hdone.rest⟩
  · rw [hset id hid, offsetOf_placed hp]
  · by_cases hold : a.literal? id = some (.float offsetBits)
    · rw [literal?, hset id hold] at hid
      exact (push_offsetOf a id).2 (Literal.float.inj (Option.some.inj hid))
    · rw [literal?, hkept id hold] at hid
      exact hold hid
  · rw [hedits, Array.mem_append] at he
    refine he.imp_right fun hnew => ?_
    obtain ⟨id, -, rfl⟩ := List.mem_map.mp (List.mem_toArray.mp hnew)
    rfl
  · rw [hdone.version, newOffsets, List.length_map]

/-- The rule fails and leaves everything as it was if there is no offset. Otherwise it changes all
offsets, to what depends on the instructions that were there. The rule for bodies does the same. -/
theorem moveDamagedBlock_offsets (context : PatchContext) (h : a.Sound) :
    ((∀ id, a.literal? id ≠ some (.float offsetBits)) →
      moveDamagedBlockInPlace context a = (.error (.targetMissing "ldc -3.0f"), a)) ∧
    ((∃ id, a.literal? id = some (.float offsetBits)) →
      ∃ a', moveDamagedBlockInPlace context a = (.ok (), a') ∧ MovesOffsets a a') ∧
    moveDamagedBlock context a.body = (moveDamagedBlockInPlace context a).1.map fun _ =>
      (moveDamagedBlockInPlace context a).2.body := by
  have hempty : (newOffsets a).isEmpty = true ↔ ∀ id, a.literal? id ≠ some (.float offsetBits) := by
    rw [newOffsets, List.isEmpty_map, List.isEmpty_iff, List.filter_eq_nil_iff]
    exact ⟨fun hno id hid => hno id (h.literal_placed hid) (decide_eq_true hid),
      fun hno id _ hid => hno id (of_decide_eq_true hid)⟩
  have hnodup : ((newOffsets a).map Prod.fst).Nodup := by
    rw [newOffsets_ids]
    exact h.nodup.filter _
  have hold : ∀ c ∈ newOffsets a, a.literal? c.1 = some (.float offsetBits) := by
    intro c hc
    obtain ⟨id, hid, rfl⟩ := List.mem_map.mp hc
    exact of_decide_eq_true (List.mem_filter.mp hid).2
  obtain ⟨a', hrun, hbody, hdone⟩ := h.run_floats hnodup hold
  rw [run_moveDamagedBlock context h, body_moveDamagedBlock context h, hrun, hbody]
  refine ⟨fun hno => if_pos (hempty.mpr hno), fun ⟨id, hid⟩ => ?_, ?_⟩
  · exact ⟨a', if_neg fun hno => hempty.mp hno id hid, .of_floats h hdone⟩
  · split <;> rfl

/-- Three offsets in a row. -/
def threeOffsets : Arena := Arena.ofNodes [.insn (.ldc (.float offsetBits)), .line 7,
  .insn (.ldc (.float offsetBits)), .insn (.ldc (.float offsetBits)), .insn .nop]

/-- The second one counts as the constant behind the first one, though it is changed as well. -/
theorem threeOffsets_moved :
    let context : PatchContext := ⟨.empty .obfuscated, .standard, ⟨renderGlobal, by decide⟩⟩
    ∃ a', moveDamagedBlockInPlace context threeOffsets = (.ok (), a') ∧
      a'.node? ⟨0⟩ = some (.insn (.ldc (.float nearBits))) ∧ a'.node? ⟨1⟩ = some (.line 7) ∧
      a'.node? ⟨2⟩ = some (.insn (.ldc (.float nearBits))) ∧
      a'.node? ⟨3⟩ = some (.insn (.ldc (.float farBits))) := by
  intro context
  have hsound : threeOffsets.Sound := Arena.ofNodes_sound _
  obtain ⟨-, hruns, -⟩ := moveDamagedBlock_offsets context hsound
  obtain ⟨a', hrun, hmoved⟩ := hruns ⟨⟨0⟩, by decide +kernel⟩
  refine ⟨a', hrun, ?_, ?_, ?_, ?_⟩
  · exact hmoved.moved ⟨0⟩ 0 (by decide +kernel) (by decide +kernel)
  · rw [hmoved.kept ⟨1⟩ (by decide +kernel)]
    decide +kernel
  · exact hmoved.moved ⟨2⟩ 2 (by decide +kernel) (by decide +kernel)
  · exact hmoved.moved ⟨3⟩ 3 (by decide +kernel) (by decide +kernel)

end Rules

end ClassGraft
