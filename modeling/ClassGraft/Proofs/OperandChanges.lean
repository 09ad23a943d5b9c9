import ClassGraft.Proofs.ArenaChanges
import ClassGraft.Proofs.BranchBytes

namespace ClassGraft

namespace Branch

variable {L M : Type}

theorem category_map (f : L → M) (b : Branch L) : (b.map f).category = b.category := by
  cases b with
  | tableSwitch default low ls => rw [map_tableSwitch]; rfl
  | lookupSwitch default cases => rw [map_lookupSwitch]; rfl
  | _ => rfl

theorem slots_map (f : L → M) (b : Branch L) : (b.map f).slots = b.slots := by
  cases b with
  | tableSwitch default low ls => rw [map_tableSwitch]; rfl
  | lookupSwitch default cases => rw [map_lookupSwitch]; rfl
  | leave k => cases k <;> rfl
  | _ => rfl

/-- A branch with its labels left out. -/
def outline (b : Branch L) : Branch Unit := b.map fun _ => ()

theorem outline_map (f : L → M) (b : Branch L) : (b.map f).outline = b.outline :=
  map_map f (fun _ => ()) b

/-- A branch that goes to one label only is known by that label and by what is left without it. -/
theorem eq_of_outline {b c : Branch L} {l : L} (hc : c.targets = [l]) (h : c.outline = b.outline) :
    c = b.map fun _ => l := by
  have hid : c.map id = c := by
    cases c with
    | tableSwitch default low ls => rw [map_tableSwitch, List.map_id]; rfl
    | lookupSwitch default cases => rw [map_lookupSwitch]; exact congrArg _ (List.map_id' cases)
    | _ => rfl
  have hl : ∀ k ∈ c.targets, id k = l := by
    rw [hc]
    exact fun k hk => List.mem_singleton.mp hk
  calc c = c.map fun _ => l := hid.symm.trans (map_congr hl)
    _ = c.outline.map fun _ => l := (map_map (fun _ => ()) (fun _ => l) c).symm
    _ = b.map fun _ => l := by rw [h, outline, map_map]

end Branch

namespace Instruction

variable {i : Instruction} {l : Literal}

/-- Constants are read back bit for bit, in whatever form they are pushed. -/
theorem literal?_push (l : Literal) : (push l).literal? = some l := by
  cases l with
  | int n =>
    simp only [push]
    split_ifs with h h h h h h h h h
    iterate 7 (rw [h]; rfl)
    · exact congrArg (fun n => some (Literal.int n)) h
    · exact congrArg (fun n => some (Literal.int n)) h
    · rfl
  | long n =>
    simp only [push]
    split_ifs with h h
    iterate 2 (rw [h]; rfl)
    rfl
  | float bits =>
    simp only [push]
    split_ifs with h h h
    iterate 3 (rw [h]; rfl)
    rfl
  | double bits =>
    simp only [push]
    split_ifs with h h
    iterate 2 (rw [h]; rfl)
    rfl
  | _ => rfl

theorem literal?_category (h : i.literal? = some l) : i.category = .constant := by
  cases i <;> first | rfl | cases h

theorem withOperand?_literal {j : Instruction} (h : i.withOperand? (.literal l) = some j) :
    ∃ k, i.literal? = some k ∧ k.width = l.width ∧ j = .push l := by
  simp only [withOperand?] at h
  split at h
  next k hk =>
    split at h
    next hw => exact ⟨k, hk, hw, (Option.some.inj h).symm⟩
    next => cases h
  next => cases h

theorem literal?_slots (h : i.literal? = some l) : i.slots = ⟨0, l.width⟩ := by
  cases i <;> cases h <;> rfl

end Instruction

/-- What is left of an instruction without its operand. Of one that pushes a constant it is the width of
the constant. -/
inductive Shell where
  | constant (width : Nat)
  | load (k : ValueKind)
  | store (k : ValueKind)
  | increment (amount : Int16)
  | field (a : FieldAccess)
  | invoke (k : InvokeKind)
  | new
  | newRefArray
  | newMultiArray (dimensions : UInt8)
  | checkCast
  | instanceOf
  | jump (outline : Branch Unit)

namespace Node

/-- The node has an operand, and this is what goes around it. -/
inductive Splits : Node → Operand → Shell → Prop
  | constant {i : Instruction} {l : Literal} {w : Nat} : i.literal? = some l → l.width = w →
      Splits (.insn i) (.literal l) (.constant w)
  | load (k : ValueKind) (s : UInt16) : Splits (.insn (.load k s)) (.slot s) (.load k)
  | store (k : ValueKind) (s : UInt16) : Splits (.insn (.store k s)) (.slot s) (.store k)
  | increment (s : UInt16) (amount : Int16) :
      Splits (.insn (.increment s amount)) (.slot s) (.increment amount)
  | field (a : FieldAccess) (f : FieldRef) : Splits (.insn (.field a f)) (.field f) (.field a)
  | invoke (k : InvokeKind) (m : MethodRef) : Splits (.insn (.invoke k m)) (.method m) (.invoke k)
  | new (c : BinaryName) : Splits (.insn (.new c)) (.type (.object c)) .new
  | newRefArray (t : RefType) : Splits (.insn (.newRefArray t)) (.type t) .newRefArray
  | newMultiArray (t : RefType) (dimensions : UInt8) :
      Splits (.insn (.newMultiArray t dimensions)) (.type t) (.newMultiArray dimensions)
  | checkCast (t : RefType) : Splits (.insn (.checkCast t)) (.type t) .checkCast
  | instanceOf (t : RefType) : Splits (.insn (.instanceOf t)) (.type t) .instanceOf
  | jump {b : Branch Label} {l : Label} {u : Branch Unit} : b.targets = [l] → b.outline = u →
      Splits (.branch b) (.target l) (.jump u)

/-- The operand fits: a node with this operand can differ from the node in nothing else. -/
def Accepts (n : Node) (o : Operand) : Prop := ∃ former s m, n.Splits former s ∧ Splits m o s

variable {n m : Node} {o p : Operand} {s t : Shell}

namespace Splits

/-- A node has one operand at most. -/
theorem unique (h : n.Splits o s) (h' : n.Splits p t) : o = p ∧ s = t := by
  cases h with
  | constant hl hw =>
    cases h' with
    | constant hl' hw' =>
      cases Option.some.inj (hl.symm.trans hl')
      exact ⟨rfl, congrArg Shell.constant (hw.symm.trans hw')⟩
    | _ => cases hl
  | jump hl hu =>
    cases h' with
    | jump hl' hu' =>
      cases List.singleton_inj.mp (hl.symm.trans hl')
      exact ⟨rfl, congrArg Shell.jump (hu.symm.trans hu')⟩
  | _ =>
    cases h' with
    | constant hl' hw' => cases hl'
    | _ => exact ⟨rfl, rfl⟩

/-- A node is its operand and what goes around it, but that constants can be pushed in several forms. -/
theorem ext (h : n.Splits o s) (h' : m.Splits o s) (ho : ∀ l, o ≠ .literal l) : n = m := by
  cases h with
  | constant hl hw => exact (ho _ rfl).elim
  | jump hl hu =>
    cases h' with
    | jump hl' hu' =>
      have hboth := Branch.eq_of_outline hl (hu.trans hu'.symm)
      exact congrArg Node.branch (hboth.trans (Branch.eq_of_outline hl' rfl).symm)
  | _ => cases h'; rfl

theorem category (h : n.Splits o s) (h' : m.Splits p s) : m.category = n.category := by
  cases h with
  | constant hl hw =>
    cases h' with
    | constant hl' hw' =>
      exact (Instruction.literal?_category hl').trans (Instruction.literal?_category hl).symm
  | @jump b k u hl hu =>
    cases h' with
    | @jump c k' u' hl' hu' =>
      calc c.category = c.outline.category := (Branch.category_map _ c).symm
        _ = b.outline.category := by rw [hu, hu']
        _ = b.category := Branch.category_map _ b
  | _ => cases h'; rfl

/-- Only fields and methods say how much an instruction pops and pushes. -/
theorem slots (h : n.Splits o s) (h' : m.Splits p s) (hf : ∀ f, p ≠ .field f)
    (hm : ∀ r, p ≠ .method r) : m.slots = n.slots := by
  cases h with
  | @constant i l w hl hw =>
    cases h' with
    | @constant j l' w' hl' hw' =>
      calc j.slots = ⟨0, l'.width⟩ := Instruction.literal?_slots hl'
        _ = ⟨0, l.width⟩ := by rw [hw, hw']
        _ = i.slots := (Instruction.literal?_slots hl).symm
  | @jump b k u hl hu =>
    cases h' with
    | @jump c k' u' hl' hu' =>
      calc c.slots = c.outline.slots := (Branch.slots_map _ c).symm
        _ = b.outline.slots := by rw [hu, hu']
        _ = b.slots := Branch.slots_map _ b
  | field a f => cases h'; exact (hf _ rfl).elim
  | invoke k r => cases h'; exact (hm _ rfl).elim
  | _ => cases h'; rfl

theorem literal {l : Literal} (h : n.Splits o s) (h' : m.Splits (.literal l) s) :
    m.literal? = some l ∧ ∃ former, n.literal? = some former ∧ former.width = l.width := by
  cases h' with
  | constant hl' hw' =>
    cases h with
    | constant hl hw => exact ⟨hl', _, hl, hw.trans hw'.symm⟩

end Splits

theorem withOperand?_splits (h : n.withOperand? o = some m) : ∃ former s, n.Splits former s ∧
    m.Splits o s ∧ ∀ l, o = .literal l → m = .insn (.push l) := by
  cases n with
  | branch b =>
    cases o with
    | target l =>
      obtain ⟨hlen, rfl⟩ : b.targets.length = 1 ∧ Node.branch (b.map fun _ => l) = m := by
        simpa [Node.withOperand?] using h
      obtain ⟨k, hk⟩ := List.length_eq_one_iff.mp hlen
      have hl : (b.map fun _ => l).targets = [l] := by rw [Branch.targets_map, hk]; rfl
      exact ⟨.target k, .jump b.outline, .jump hk rfl, .jump hl (Branch.outline_map _ b), nofun⟩
    | _ => cases h
  | insn i =>
    obtain ⟨j, hj, rfl⟩ := Option.map_eq_some_iff.mp h
    cases o with
    | literal l =>
      obtain ⟨k, hk, hw, rfl⟩ := Instruction.withOperand?_literal hj
      refine ⟨.literal k, .constant k.width, .constant hk rfl,
        .constant (Instruction.literal?_push l) hw.symm, ?_⟩
      rintro _ ⟨⟩
      rfl
    | slot v =>
      cases i with
      | load k u => cases hj; exact ⟨_, _, .load k u, .load k v, nofun⟩
      | store k u => cases hj; exact ⟨_, _, .store k u, .store k v, nofun⟩
      | increment u amount =>
        cases hj
        exact ⟨_, _, .increment u amount, .increment v amount, nofun⟩
      | _ => cases hj
    | field f =>
      cases i with
      | field a g => cases hj; exact ⟨_, _, .field a g, .field a f, nofun⟩
      | _ => cases hj
    | method r =>
      cases i with
      | invoke k q => cases hj; exact ⟨_, _, .invoke k q, .invoke k r, nofun⟩
      | _ => cases hj
    | type t =>
      cases i with
      | new c =>
        cases t with
        | object d => cases hj; exact ⟨_, _, .new c, .new d, nofun⟩
        | _ => cases hj
      | newRefArray u => cases hj; exact ⟨_, _, .newRefArray u, .newRefArray t, nofun⟩
      | newMultiArray u k =>
        cases hj
        exact ⟨_, _, .newMultiArray u k, .newMultiArray t k, nofun⟩
      | checkCast u => cases hj; exact ⟨_, _, .checkCast u, .checkCast t, nofun⟩
      | instanceOf u => cases hj; exact ⟨_, _, .instanceOf u, .instanceOf t, nofun⟩
      | _ => cases hj
    | target l => cases hj
  | _ => cases o <;> cases h

/-- A constant takes the place of one of the same width. -/
theorem withOperand?_constant {k l : Literal} (hn : n.literal? = some k) (hw : k.width = l.width) :
    n.withOperand? (.literal l) = some (.insn (.push l)) := by
  cases n with
  | insn i =>
    have hi : i.literal? = some k := hn
    simp only [withOperand?, Instruction.withOperand?, hi, hw, ↓reduceIte]
    rfl
  | _ => cases hn

theorem effect_of_literal {l : Literal} (hn : n.literal? = some l) : n.effect = l.width := by
  cases n with
  | insn i => rw [effect, slots, Instruction.literal?_slots hn]; rfl
  | _ => cases hn

/-- An operand can be replaced by just those that fit. -/
theorem withOperand?_isSome : (∃ m, n.withOperand? o = some m) ↔ n.Accepts o := by
  constructor
  · rintro ⟨m, hm⟩
    obtain ⟨former, s, hn, hm, -⟩ := withOperand?_splits hm
    exact ⟨former, s, m, hn, hm⟩
  · rintro ⟨former, s, m, hn, hm⟩
    cases hn with
    | constant hl hw =>
      cases hm with
      | constant hl' hw' => exact ⟨_, withOperand?_constant hl (hw.trans hw'.symm)⟩
    | jump hl hu =>
      cases hm with
      | jump hl' hu' =>
        exact ⟨_, if_pos (congrArg List.length hl)⟩
    | _ => cases hm; exact ⟨_, rfl⟩

end Node

namespace Arena

/-- A node has got another operand. The rest of it and all other nodes are as they were. -/
structure SetsOperand (a a' : Arena) (id : NodeId) (o : Operand) (old new : Node) : Prop where
  nodes : ∀ j, a'.node? j = if j = id then some new else a.node? j
  order : a'.order = a.order
  positions : ∀ j, a'.position? j = a.position? j
  category : new.category = old.category
  splits : ∃ former s, old.Splits former s ∧ new.Splits o s
  whole : ∀ m former s, old.Splits former s → Node.Splits m o s → (∀ l, o ≠ .literal l) → m = new
  literal : ∀ l, o = .literal l → new = .insn (.push l) ∧ new.literal? = some l ∧
    ∃ former, old.literal? = some former ∧ former.width = l.width
  edits : a'.edits = a.edits.push ⟨some id, [id], [], new.effect, old.effect⟩
  neutral : (∀ f, o ≠ .field f) → (∀ r, o ≠ .method r) → new.effect = old.effect
  version : a'.version = a.version + 1
  rest : a'.labelNodes = a.labelNodes ∧ a'.nextLabel = a.nextLabel ∧ a'.tryBlocks = a.tryBlocks ∧
    a'.locals = a.locals

/-- How a change of an operand ends: it is done where the operand fits, and else nothing happens. -/
inductive OperandChange (a : Arena) (id : NodeId) (o : Operand) :
    Except ClassError Unit × Arena → Prop
  | done {a' : Arena} {old new : Node} : a.node? id = some old → old.Accepts o →
      SetsOperand a a' id o old new → OperandChange a id o (.ok (), a')
  | misfit {old : Node} : a.node? id = some old → ¬ old.Accepts o →
      OperandChange a id o (.error (.operandMismatch id), a)
  | missing : a.node? id = none → OperandChange a id o (.error (.missingNode id), a)

variable {a : Arena} {id : NodeId} {o : Operand} {old new : Node}

theorem updated_sets (hold : a.node? id = some old) (hnew : old.withOperand? o = some new) :
    a.SetsOperand (a.updated id old new) id o old new := by
  obtain ⟨former, s, hs, hs', hform⟩ := Node.withOperand?_splits hnew
  refine ⟨node?_updated hold, rfl, fun _ => rfl, hs.category hs', ⟨former, s, hs, hs'⟩, ?_, ?_, rfl,
    fun hf hm => ?_, rfl, rfl, rfl, rfl, rfl⟩
  · intro m former' s' hold' hm ho
    obtain ⟨-, rfl⟩ := hold'.unique hs
    exact hm.ext hs' ho
  · rintro l rfl
    exact ⟨hform l rfl, hs.literal hs'⟩
  · unfold Node.effect
    rw [hs.slots hs' hf hm]

/-- A change of an operand puts it into the node and touches nothing else, or leaves all as it is. -/
theorem replaceOperand_ends (a : Arena) (id : NodeId) (o : Operand) :
    a.OperandChange id o (replaceOperand id o a) := by
  cases hold : a.node? id with
  | none =>
    have hrun : replaceOperand id o a = (.error (.missingNode id), a) := by
      unfold replaceOperand
      rw [run_bind, run_node, hold]
    rw [hrun]
    exact .missing hold
  | some old =>
    rw [run_replaceOperand hold]
    cases hnew : old.withOperand? o with
    | none =>
      refine .misfit hold fun hfits => ?_
      obtain ⟨new, h⟩ := Node.withOperand?_isSome.mpr hfits
      rw [hnew] at h
      cases h
    | some new =>
      exact .done hold (Node.withOperand?_isSome.mp ⟨new, hnew⟩) (updated_sets hold hnew)

/-- A switch without cases is a jump to its default. -/
example : (Node.branch (.lookupSwitch ⟨0⟩ [])).withOperand? (.target ⟨1⟩) =
    some (.branch (.lookupSwitch ⟨1⟩ [])) := by decide

end Arena

end ClassGraft
