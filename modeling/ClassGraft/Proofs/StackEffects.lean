import ClassGraft.Proofs.StackWidths

namespace ClassGraft

/-- A computation that leaves a stack of a given width at least wherever it succeeds. -/
def Leaves {α : Type} (m : StackM α) (n : Nat) : Prop :=
  ∀ ts a us, m ts = .ok (a, us) → n ≤ stackWidth us

namespace Leaves

variable {α β : Type} {m : StackM α} {f : α → StackM β} {Q : α → Int → Prop} {n : Nat}

theorem zero (m : StackM α) : Leaves m 0 := fun _ _ us _ => Nat.zero_le (stackWidth us)

theorem fault (e : VerifyFault) : Leaves (StackM.fault e : StackM α) n := by
  intro ts a us he
  cases he

/-- What comes last decides, where it is known which values come first. -/
theorem after (hm : Shifts m Q) (hf : ∀ a d, Q a d → Leaves (f a) n) : Leaves (m >>= f) n := by
  intro ts b us he
  obtain ⟨⟨a, vs⟩, ha, hb⟩ := except_bind_ok.mp he
  exact hf a _ (hm ts a vs ha) vs b us hb

theorem last (hf : ∀ a, Leaves (f a) n) : Leaves (m >>= f) n := by
  intro ts b us he
  obtain ⟨⟨a, vs⟩, -, hb⟩ := except_bind_ok.mp he
  exact hf a vs b us hb

theorem ite {p : Prop} [Decidable p] {m m' : StackM α} (hm : p → Leaves m n)
    (hm' : ¬ p → Leaves m' n) : Leaves (if p then m else m') n := by
  split
  next h => exact hm h
  next h => exact hm' h

theorem pushAll {ts : TypeStack} (h : n ≤ stackWidth ts) : Leaves (pushAll ts) n := by
  intro us _ vs he
  cases he
  rw [stackWidth_append]
  omega

theorem pushType {t : VerifyType} (h : t.width = n) : Leaves (StackM.pushType t) n := by
  intro us _ vs he
  cases he
  rw [stackWidth_cons]
  omega

theorem stackOp (op : StackOp) : Leaves op.run op.slots.pushed := by
  cases op with
  | pop | pop2 => exact .zero _
  | dup =>
    refine .after .popNarrow fun a d h => .pushAll ?_
    simp [h, StackOp.slots]
  | dupX1 =>
    refine .after .popNarrow fun a d h => .after .popNarrow fun b e k => .pushAll ?_
    simp [h, k, StackOp.slots]
  | dupX2 =>
    refine .after .popNarrow fun a d h => .after .popPair fun bs e k => .pushAll ?_
    simp [h, k, StackOp.slots]
  | dup2 =>
    refine .after .popPair fun as d h => .pushAll ?_
    simp [h, StackOp.slots]
  | dup2X1 =>
    refine .last fun a => .after .popNarrow fun b e k => .ite (fun hw => .pushAll ?_) fun hw => ?_
    · simp [k, SlotType.width_wide hw, StackOp.slots]
    · refine .after .popNarrow fun c x l => .pushAll ?_
      simp [k, l, SlotType.width_narrow hw, StackOp.slots]
  | dup2X2 =>
    refine .after .popPair fun as d h => .after .popPair fun bs e k => .pushAll ?_
    simp [h, k, StackOp.slots]
  | swap =>
    refine .after .popNarrow fun a d h => .after .popNarrow fun b e k => .pushAll ?_
    simp [h, k, StackOp.slots]

theorem pushResult (m : MethodType) : Leaves (Frame.pushResult m) m.resultSlots := by
  unfold Frame.pushResult MethodType.resultSlots
  split
  next t ht =>
    rw [ht, Option.map_some, Option.getD_some, ← VerifyType.width_ofField]
    exact .pushType rfl
  next ht =>
    rw [ht]
    exact .zero _

theorem arrayLoad (k : ElementKind) : Leaves (Instruction.arrayLoad k).run k.width := by
  refine .last fun _ => .last fun a => ?_
  split
  next t ht => exact .pushType (ElementKind.width_verifyType? ht)
  next hk =>
    rw [ElementKind.width_ref hk]
    split
    next t ht => exact .pushType (elementType?_width ht)
    next => exact .fault _

theorem field (a : FieldAccess) (r : FieldRef) :
    Leaves (Instruction.field a r).run (a.slots r.type).pushed := by
  have hw := VerifyType.width_ofField r.type
  cases a with
  | getStatic => exact .pushType hw
  | putStatic | putField => exact .zero _
  | getField => exact .last fun _ => .pushType hw

end Leaves

namespace Frame

variable {f f' : Frame}

theorem leaves_onStack_ {m : StackM Unit} {n : Nat} (hm : Leaves m n) (h : f.onStack_ m = .ok f') :
    n ≤ f'.width := by
  obtain ⟨⟨_, g⟩, hg, rfl⟩ := except_map_ok h
  unfold Frame.onStack at hg
  split at hg
  next hs => cases hg; exact hm _ _ _ hs
  next => cases hg

theorem leaves_invoke {c : BinaryName} {k : InvokeKind} {m : MethodRef}
    (h : f.invoke c k m = .ok f') : m.type.resultSlots ≤ f'.width := by
  obtain ⟨g, -, h⟩ := except_bind_ok.mp h
  split at h
  next =>
    -- a constructor gives nothing back
    obtain ⟨hr, -⟩ := width_construct h
    simp [MethodType.resultSlots, hr]
  next =>
    dsimp only at h
    split at h
    · exact leaves_onStack_ (.last fun _ => .pushResult _) h
    · exact leaves_onStack_ (.pushResult _) h

theorem leaves_step {c : BinaryName} {site : Option Label} {i : Instruction}
    (h : f.step c site i = .ok f') : i.slots.pushed ≤ f'.width := by
  have run {m : StackM Unit} (h : f.onStack_ m = .ok f') (hm : Leaves m i.slots.pushed) :
      i.slots.pushed ≤ f'.width := leaves_onStack_ hm h
  cases i with
  | nop | store | arrayStore | increment | monitorEnter | monitorExit => exact Nat.zero_le _
  | constNull | constInt | bipush | sipush | constLong | constFloat | constDouble =>
    exact run h (.pushType rfl)
  | ldc l => exact run h (.pushType (Literal.width_verifyType l))
  | load k slot =>
    have := width_load h
    simp only [Instruction.slots]
    omega
  | arrayLoad k => exact run h (.arrayLoad k)
  | stack op => exact run h (.stackOp op)
  | arithmetic op k =>
    have hk := NumberKind.width_verifyType k
    cases op <;> exact run h (.last fun _ => .pushType hk)
  | shift op long | bitwise op long =>
    cases long <;> exact run h (.last fun _ => .pushType rfl)
  | convert k => cases k <;> exact run h (.last fun _ => .pushType rfl)
  | field a r => exact run h (.field a r)
  | invoke k m => exact leaves_invoke h
  | invokeDynamic s => exact run h (.last fun _ => .pushResult _)
  | new d =>
    cases site with
    | none => cases h
    | some l =>
      cases h
      exact Nat.le_add_right 1 _
  | compareLong | compareFloat | compareDouble | newArray | newRefArray | newMultiArray | arrayLength
  | checkCast | instanceOf => exact run h (.last fun _ => .pushType rfl)

theorem leaves_branch {L : Type} {br : Branch L} (h : f.branch br = .ok f') :
    br.slots.pushed ≤ f'.width := by
  cases br with
  | jsr | jsrWide => exact leaves_onStack_ (m := StackM.pushType .top) (.pushType rfl) h
  | leave k => cases k <;> exact Nat.zero_le _
  | _ => exact Nat.zero_le _

theorem ne_athrow_of_goes {L : Type} {br : Branch L} (h : br.targets ≠ [] ∨ br.fallsThrough = true) :
    br ≠ .athrow := by
  rintro rfl
  rcases h with h | h
  · exact h rfl
  · cases h

/-- Where the types on the stack allow an instruction, or a branch that leads anywhere in its method,
the slots that it is said to pop are there, and they are replaced by as many as it is said to push. -/
theorem slots_agree :
    (∀ (f f' : Frame) (c : BinaryName) (site : Option Label) (i : Instruction),
      f.step c site i = .ok f' →
        i.slots.popped ≤ f.width ∧ f'.width = f.width - i.slots.popped + i.slots.pushed) ∧
    (∀ (f f' : Frame) (br : Branch Label), br.targets ≠ [] ∨ br.fallsThrough = true →
      f.branch br = .ok f' →
        br.slots.popped ≤ f.width ∧ f'.width = f.width - br.slots.popped + br.slots.pushed) := by
  constructor
  · intro f f' c site i h
    have hleft := leaves_step h
    have hchange := width_step h
    omega
  · intro f f' br hgoes h
    have hleft := leaves_branch h
    have hchange := width_branch (ne_athrow_of_goes hgoes) h
    omega

/-- A long is copied over an integer, then a reference is compared with null. -/
theorem slots_agree_copied :
    (Frame.step ⟨[], [.long, .integer]⟩ BinaryName.object none (.stack .dup2X1) =
        .ok ⟨[], [.long, .integer, .long]⟩ ∧
      3 ≤ Frame.width ⟨[], [.long, .integer]⟩ ∧
      Frame.width ⟨[], [.long, .integer, .long]⟩ = Frame.width ⟨[], [.long, .integer]⟩ - 3 + 5) ∧
    (Frame.branch ⟨[], [.null, .integer]⟩ (.ifNull .eq (Label.mk 0)) = .ok ⟨[], [.integer]⟩ ∧
      1 ≤ Frame.width ⟨[], [.null, .integer]⟩ ∧
      Frame.width ⟨[], [.integer]⟩ = Frame.width ⟨[], [.null, .integer]⟩ - 1 + 0) :=
  ⟨⟨rfl, slots_agree.1 _ _ BinaryName.object none (.stack .dup2X1) rfl⟩,
    ⟨rfl, slots_agree.2 _ _ (.ifNull .eq (Label.mk 0)) (.inr rfl) rfl⟩⟩

end Frame

end ClassGraft
