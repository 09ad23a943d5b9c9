import ClassGraft.Code.Node
import ClassGraft.Proofs.FrameMerging

namespace ClassGraft

open StackM

/-- The slots that the values on a stack take. -/
def stackWidth : TypeStack → Nat
  | [] => 0
  | t :: ts => t.width + stackWidth ts

@[simp] theorem stackWidth_nil : stackWidth [] = 0 := rfl

@[simp] theorem stackWidth_cons (t : VerifyType) (ts : TypeStack) :
    stackWidth (t :: ts) = t.width + stackWidth ts := rfl

@[simp] theorem stackWidth_append (ts us : TypeStack) :
    stackWidth (ts ++ us) = stackWidth ts + stackWidth us := by
  induction ts with
  | nil => exact (Nat.zero_add _).symm
  | cons t ts ih => rw [List.cons_append, stackWidth_cons, ih, stackWidth_cons, Nat.add_assoc]

theorem stackWidth_reverse (ts : TypeStack) : stackWidth ts.reverse = stackWidth ts := by
  induction ts with
  | nil => rfl
  | cons t ts ih =>
    rw [List.reverse_cons, stackWidth_append, ih, stackWidth_cons, stackWidth_cons, stackWidth_nil,
      Nat.add_zero, Nat.add_comm]

theorem stackWidth_replicate (n : Nat) (t : VerifyType) :
    stackWidth (List.replicate n t) = n * t.width := by
  induction n with
  | zero => exact (Nat.zero_mul _).symm
  | succ n ih => rw [List.replicate_succ, stackWidth_cons, ih, Nat.succ_mul, Nat.add_comm]

namespace SlotType

variable {C U : Type} {t : SlotType C U}

theorem width_narrow (h : ¬ t.isWide = true) : t.width = 1 := by
  cases t <;> first | rfl | exact absurd rfl h

theorem width_wide (h : t.isWide = true) : t.width = 2 := of_decide_eq_true h

theorem width_reference (h : t.isReference = true) : t.width = 1 := by
  cases t <;> first | rfl | cases h

end SlotType

theorem VerifyType.width_ofField (t : FieldType) : (VerifyType.ofField t).width = t.width := by
  rcases t with b | _
  · cases b <;> rfl
  · rfl

theorem ValueKind.width_verifyType? {k : ValueKind} {t : VerifyType} (h : k.verifyType? = some t) :
    t.width = k.width := by
  cases k <;> cases h <;> rfl

theorem ValueKind.width_ref {k : ValueKind} (h : k.verifyType? = none) : k.width = 1 := by
  cases k <;> first | rfl | cases h

theorem ElementKind.width_verifyType? {k : ElementKind} {t : VerifyType}
    (h : k.verifyType? = some t) : t.width = k.width := by
  cases k <;> cases h <;> rfl

theorem ElementKind.width_ref {k : ElementKind} (h : k.verifyType? = none) : k.width = 1 := by
  cases k <;> first | rfl | cases h

theorem NumberKind.width_verifyType (k : NumberKind) : k.verifyType.width = k.width := by
  cases k <;> rfl

theorem Literal.width_verifyType (l : Literal) : l.verifyType.width = l.width := by
  cases l with
  | dynamic _ t => exact VerifyType.width_ofField t
  | _ => rfl

theorem elementType?_width {a t : VerifyType} (h : elementType? a = some t) : t.width = 1 := by
  unfold elementType? at h
  split at h <;> cases h <;> rfl

theorem stackWidth_argumentTypes (m : MethodType) :
    stackWidth (Frame.argumentTypes m) = MethodType.slotsOf m.parameters := by
  unfold Frame.argumentTypes
  rw [stackWidth_reverse]
  induction m.parameters with
  | nil => rfl
  | cons t ts ih => rw [List.map_cons, stackWidth_cons, VerifyType.width_ofField, ih]; rfl

/-- Wherever a computation succeeds, its result fits the change of the width of the stack. -/
def Shifts {α : Type} (m : StackM α) (Q : α → Int → Prop) : Prop :=
  ∀ ts a us, m ts = .ok (a, us) → Q a ((stackWidth us : Int) - stackWidth ts)

/-- A computation that changes the width of the stack by a given amount wherever it succeeds. -/
abbrev ShiftsBy {α : Type} (m : StackM α) (e : Int) : Prop := Shifts m fun _ d => d = e

namespace Shifts

variable {α β : Type} {m : StackM α} {Q R : α → Int → Prop} {f : α → StackM β} {d e : Int}

theorem imp (h : Shifts m Q) (hq : ∀ a d, Q a d → R a d) : Shifts m R :=
  fun ts a us he => hq a _ (h ts a us he)

theorem pure {a : α} (h : Q a 0) : Shifts (Pure.pure a) Q := by
  intro ts a us he
  cases he
  rwa [Int.sub_self]

theorem done : ShiftsBy (Pure.pure () : StackM Unit) 0 := .pure rfl

theorem fault (e : VerifyFault) : Shifts (StackM.fault e) Q := by
  intro ts a us he
  cases he

theorem bind {S : β → Int → Prop} (hm : Shifts m Q)
    (hf : ∀ a d, Q a d → Shifts (f a) fun b e => S b (d + e)) : Shifts (m >>= f) S := by
  intro ts b us he
  obtain ⟨⟨a, vs⟩, ha, hb⟩ := except_bind_ok.mp he
  have hsum : (stackWidth us : Int) - stackWidth ts =
      stackWidth vs - stackWidth ts + (stackWidth us - stackWidth vs) := by omega
  rw [hsum]
  exact hf a _ (hm ts a vs ha) vs b us hb

theorem seq (hm : ShiftsBy m d) (hf : ∀ a, ShiftsBy (f a) e) : ShiftsBy (m >>= f) (d + e) :=
  hm.bind fun a _ hd => (hf a).imp fun _ _ he => by rw [hd, he]

theorem ite {p : Prop} [Decidable p] {m n : StackM α} (hm : p → Shifts m Q) (hn : ¬ p → Shifts n Q) :
    Shifts (if p then m else n) Q := by
  split
  next h => exact hm h
  next h => exact hn h

theorem popAny : Shifts popAny fun t d => d = -(t.width : Int) := by
  intro ts t us he
  cases ts with
  | nil => cases he
  | cons u ts =>
    cases he
    rw [stackWidth_cons]
    omega

theorem pushAll (ts : TypeStack) : ShiftsBy (pushAll ts) (stackWidth ts) := by
  intro us _ vs he
  cases he
  rw [stackWidth_append]
  omega

theorem pushType (t : VerifyType) : ShiftsBy (pushType t) t.width := by
  intro us _ vs he
  cases he
  rw [stackWidth_cons]
  omega

theorem popNarrow : Shifts popNarrow fun t d => t.width = 1 ∧ d = -1 := by
  refine .bind popAny fun t d hd => .ite (fun _ => .fault _) fun hw => .pure ?_
  have := SlotType.width_narrow hw
  omega

theorem popNarrow_by : ShiftsBy StackM.popNarrow (-1) := popNarrow.imp fun _ _ h => h.2

theorem popReference : ShiftsBy popReference (-1) := by
  refine .bind popAny fun t d hd => .ite (fun hr => .pure ?_) fun _ => .fault _
  have := SlotType.width_reference hr
  omega

theorem popReference_ : ShiftsBy (do let _ ← StackM.popReference) (-1) := popReference.seq fun _ => .done

theorem popType (t : VerifyType) : ShiftsBy (popType t) (-(t.width : Int)) := by
  refine .bind popAny fun u d hd => .ite (fun ht => ?_) fun _ => ?_
  · refine .ite (fun hu => .pure ?_) fun _ => .fault _
    have := SlotType.width_reference ht
    have := SlotType.width_reference hu
    omega
  · refine .ite (fun hu => .pure ?_) fun _ => .fault _
    rw [← hu]
    omega

theorem popTypes (ts : List VerifyType) : ShiftsBy (popTypes ts) (-(stackWidth ts : Int)) := by
  induction ts with
  | nil => exact .done
  | cons t ts ih =>
    refine (seq (popType t) fun _ => ih).imp fun _ d hd => ?_
    rw [hd, stackWidth_cons]
    omega

theorem popPair : Shifts popPair fun ts d => stackWidth ts = 2 ∧ d = -2 := by
  refine .bind popAny fun a d hd => .ite (fun hw => .pure ?_) fun hw => ?_
  · have := SlotType.width_wide hw
    simp only [stackWidth_cons, stackWidth_nil]
    omega
  · refine .bind popNarrow fun b d' hb => .pure ?_
    have := SlotType.width_narrow hw
    simp only [stackWidth_cons, stackWidth_nil]
    omega

theorem popPair_by : ShiftsBy ClassGraft.popPair (-2) := popPair.imp fun _ _ h => h.2

/-- The slots of what a stack operation pops and pushes, where a wide value counts as two narrow ones. -/
theorem stackOp (op : StackOp) : ShiftsBy op.run ((op.slots.pushed : Int) - op.slots.popped) := by
  cases op with
  | pop => exact popNarrow_by.seq fun _ => .done
  | pop2 => exact popPair_by.seq fun _ => .done
  | dup => exact .bind popNarrow fun a d h => (pushAll _).imp fun _ e he => by simp [he, h, StackOp.slots]
  | dupX1 =>
    refine .bind popNarrow fun a d h => .bind popNarrow fun b e k => (pushAll _).imp fun _ x hx => ?_
    simp [hx, h, k, StackOp.slots]
  | dupX2 =>
    refine .bind popNarrow fun a d h => .bind popPair fun bs e k => (pushAll _).imp fun _ x hx => ?_
    simp [hx, h, k, StackOp.slots]
  | dup2 =>
    refine .bind popPair fun as d h => (pushAll _).imp fun _ e he => ?_
    simp [he, h, StackOp.slots]
  | dup2X1 =>
    refine .bind popAny fun a d h => .bind popNarrow fun b e k => .ite (fun hw => ?_) fun hw => ?_
    · have ha := SlotType.width_wide hw
      refine (pushAll _).imp fun _ x hx => ?_
      simp [hx, h, k, ha, StackOp.slots]
    · have ha := SlotType.width_narrow hw
      refine .bind popNarrow fun c y l => (pushAll _).imp fun _ x hx => ?_
      simp [hx, h, k, l, ha, StackOp.slots]
  | dup2X2 =>
    refine .bind popPair fun as d h => .bind popPair fun bs e k => (pushAll _).imp fun _ x hx => ?_
    simp [hx, h, k, StackOp.slots]
  | swap =>
    refine .bind popNarrow fun a d h => .bind popNarrow fun b e k => (pushAll _).imp fun _ x hx => ?_
    simp [hx, h, k, StackOp.slots]

theorem pushResult (m : MethodType) : ShiftsBy (Frame.pushResult m) m.resultSlots := by
  unfold Frame.pushResult MethodType.resultSlots
  split
  next t ht =>
    rw [ht, Option.map_some, Option.getD_some, ← VerifyType.width_ofField]
    exact pushType _
  next ht =>
    rw [ht]
    exact done

theorem arrayLoad (k : ElementKind) :
    ShiftsBy (Instruction.arrayLoad k).run (-1 + (-1 + (k.width : Int))) := by
  refine (popType _).seq fun _ => popReference.seq fun a => ?_
  split
  next t ht =>
    rw [← ElementKind.width_verifyType? ht]
    exact pushType t
  next hk =>
    rw [ElementKind.width_ref hk]
    split
    next t ht =>
      rw [← elementType?_width ht]
      exact pushType t
    next => exact fault _

theorem arrayStore (k : ElementKind) :
    ShiftsBy (Instruction.arrayStore k).run (-(k.width : Int) + (-1 + -1)) := by
  have hrest : ShiftsBy (do StackM.popType .integer; let _ ← StackM.popReference) (-1 + -1) :=
    (popType _).seq fun _ => popReference_
  simp only [Instruction.run]
  split
  next t ht =>
    rw [← ElementKind.width_verifyType? ht]
    exact (popType t).seq fun _ => hrest
  next hk =>
    rw [ElementKind.width_ref hk]
    exact popReference.seq fun _ => hrest

theorem of_eq (h : ShiftsBy m d) (he : d = e) : ShiftsBy m e := he ▸ h

theorem field (a : FieldAccess) (r : FieldRef) : ShiftsBy (Instruction.field a r).run
    (((a.slots r.type).pushed : Int) - (a.slots r.type).popped) := by
  have hw := VerifyType.width_ofField r.type
  cases a with
  | getStatic => exact (pushType _).of_eq (by simp only [FieldAccess.slots]; omega)
  | putStatic => exact (popType _).of_eq (by simp only [FieldAccess.slots]; omega)
  | getField =>
    refine (popReference.seq fun _ => pushType _).of_eq ?_
    simp only [FieldAccess.slots]
    omega
  | putField =>
    refine ((popType _).seq fun _ => popReference_).of_eq ?_
    simp only [FieldAccess.slots]
    omega

end Shifts

namespace Frame

variable {f g f' : Frame} {e : Int}

/-- The width of the stack of a frame. -/
def width (f : Frame) : Nat := stackWidth f.stack

theorem width_onStack {α : Type} {m : StackM α} {Q : α → Int → Prop} {a : α} (hm : Shifts m Q)
    (h : f.onStack m = .ok (a, f')) : Q a ((f'.width : Int) - f.width) := by
  unfold Frame.onStack at h
  split at h
  next hs => cases h; exact hm _ _ _ hs
  next => cases h

theorem width_onStack_ {m : StackM Unit} (hm : ShiftsBy m e) (h : f.onStack_ m = .ok f') :
    (f'.width : Int) = f.width + e := by
  obtain ⟨⟨_, g⟩, hg, rfl⟩ := except_map_ok h
  have : (g.width : Int) - f.width = e := width_onStack hm hg
  dsimp only
  omega

theorem width_load {k : ValueKind} {slot : UInt16} (h : f.load k slot = .ok f') :
    f'.width = f.width + k.width := by
  obtain ⟨t, -, h⟩ := except_bind_ok.mp h
  obtain ⟨hfits, rfl⟩ := guard_ok h
  have ht : t.width = k.width := by
    split at hfits
    next u hu => rw [of_decide_eq_true hfits, ValueKind.width_verifyType? hu]
    next hu => rw [SlotType.width_reference hfits, ValueKind.width_ref hu]
  simp only [width, stackWidth_cons, ht]
  omega

theorem width_store {k : ValueKind} {slot : UInt16} (h : f.store k slot = .ok f') :
    f'.width + k.width = f.width := by
  obtain ⟨⟨t, g⟩, hg, h⟩ := except_bind_ok.mp h
  obtain ⟨hfits, rfl⟩ := guard_ok h
  have ht : t.width = k.width := by
    split at hfits
    next u hu => rw [of_decide_eq_true hfits, ValueKind.width_verifyType? hu]
    next hu =>
      rw [ValueKind.width_ref hu]
      rcases Bool.or_eq_true_iff.mp hfits with hr | hr
      · exact SlotType.width_reference hr
      · cases t <;> first | rfl | cases hr
  have := width_onStack Shifts.popAny hg
  rw [ht] at this
  simp only [width] at this ⊢
  omega

theorem stackWidth_replaceType {old new : VerifyType} (h : new.width = old.width) (ts : TypeStack) :
    stackWidth (replaceType old new ts) = stackWidth ts := by
  induction ts with
  | nil => rfl
  | cons t ts ih =>
    unfold replaceType at ih ⊢
    rw [List.map_cons, stackWidth_cons, stackWidth_cons, ih]
    split
    next ht => rw [h, ht]
    next => rfl

theorem width_construct {c : BinaryName} {m : MethodRef} (h : f.construct c m = .ok f') :
    m.type.result = none ∧ f'.width + 1 = f.width := by
  obtain ⟨receiver, made, g, hg, hmade, hresult, rfl⟩ := construct_ok h
  obtain ⟨hr, hm⟩ : receiver.width = 1 ∧ made.width = 1 := by cases hmade <;> exact ⟨rfl, rfl⟩
  have hwidth := width_onStack Shifts.popAny hg
  have hw : Frame.width ⟨replaceType receiver made g.locals, replaceType receiver made g.stack⟩ =
      g.width := stackWidth_replaceType (hm.trans hr.symm) g.stack
  refine ⟨hresult, ?_⟩
  rw [hw]
  omega

theorem width_invoke {c : BinaryName} {k : InvokeKind} {m : MethodRef}
    (h : f.invoke c k m = .ok f') :
    (f'.width : Int) = f.width + (((Instruction.invoke k m).slots.pushed : Int) -
      (Instruction.invoke k m).slots.popped) := by
  unfold Frame.invoke at h
  obtain ⟨g, hg, h⟩ := except_bind_ok.mp h
  have hargs := width_onStack_ (Shifts.popTypes _) hg
  rw [stackWidth_argumentTypes] at hargs
  simp only [Instruction.slots, MethodType.parameterSlots]
  split at h
  next hk =>
    have hk : k = .special := (by simpa using hk : k = .special ∧ _).1
    obtain ⟨hr, hw⟩ := width_construct h
    simp only [hk, MethodType.resultSlots, hr, ne_eq, reduceCtorEq, not_false_eq_true, decide_true,
      if_true, Option.map_none, Option.getD_none]
    omega
  next =>
    dsimp only at h
    split at h
    next hk =>
      have := width_onStack_ (Shifts.popReference.seq fun _ => Shifts.pushResult _) h
      rw [decide_eq_true hk, if_pos rfl]
      omega
    next hk =>
      have := width_onStack_ (Shifts.pushResult _) h
      rw [decide_eq_false hk, if_neg Bool.false_ne_true]
      omega

/-- An instruction changes the width of the stack by its effect. -/
theorem width_step {c : BinaryName} {site : Option Label} {i : Instruction}
    (h : f.step c site i = .ok f') :
    (f'.width : Int) = f.width + ((i.slots.pushed : Int) - i.slots.popped) := by
  have run {m : StackM Unit} {e : Int} (hm : ShiftsBy m e) (h : f.onStack_ m = .ok f')
      (he : e = (i.slots.pushed : Int) - i.slots.popped) :
      (f'.width : Int) = f.width + ((i.slots.pushed : Int) - i.slots.popped) :=
    he ▸ width_onStack_ hm h
  cases i with
  | nop => exact run .done h rfl
  | constNull | constInt | bipush | sipush | constLong | constFloat | constDouble =>
    exact run (.pushType _) h rfl
  | ldc l =>
    refine run (.pushType _) h ?_
    simp [Instruction.slots, Literal.width_verifyType]
  | load k slot =>
    have := width_load h
    simp only [Instruction.slots]
    omega
  | store k slot =>
    have := width_store h
    simp only [Instruction.slots]
    omega
  | arrayLoad k =>
    refine run (.arrayLoad k) h ?_
    simp only [Instruction.slots]
    omega
  | arrayStore k =>
    refine run (.arrayStore k) h ?_
    simp only [Instruction.slots]
    omega
  | stack op => exact run (.stackOp op) h rfl
  | arithmetic op k =>
    have hk := NumberKind.width_verifyType k
    cases op with
    | neg =>
      refine run ((Shifts.popType _).seq fun _ => .pushType _) h ?_
      simp only [Instruction.slots, hk]
      omega
    | _ =>
      refine run ((Shifts.popTypes _).seq fun _ => .pushType _) h ?_
      simp only [Instruction.slots, stackWidth_cons, stackWidth_nil, hk]
      omega
  | shift op long | bitwise op long =>
    refine run ((Shifts.popTypes _).seq fun _ => .pushType _) h ?_
    cases long <;> rfl
  | increment slot n =>
    obtain ⟨t, -, h⟩ := except_bind_ok.mp h
    obtain ⟨-, rfl⟩ := guard_ok h
    exact (Int.add_zero _).symm
  | convert k =>
    refine run ((Shifts.popType _).seq fun _ => .pushType _) h ?_
    cases k <;> rfl
  | compareLong | compareFloat | compareDouble =>
    exact run ((Shifts.popTypes _).seq fun _ => .pushType _) h rfl
  | field a r => exact run (.field a r) h rfl
  | invoke k m => exact width_invoke h
  | invokeDynamic s =>
    refine run ((Shifts.popTypes _).seq fun _ => .pushResult _) h ?_
    simp only [stackWidth_argumentTypes, Instruction.slots,
      MethodType.parameterSlots, Bool.false_eq_true, if_false]
    omega
  | new d =>
    cases site with
    | none => cases h
    | some l =>
      cases h
      simp only [width, stackWidth_cons, SlotType.width, Instruction.slots]
      omega
  | newArray | newRefArray => exact run ((Shifts.popType _).seq fun _ => .pushType _) h rfl
  | newMultiArray t n =>
    refine run ((Shifts.popTypes _).seq fun _ => .pushType _) h ?_
    rw [stackWidth_replicate]
    simp only [Instruction.slots, SlotType.width]
    omega
  | arrayLength | checkCast | instanceOf =>
    exact run (Shifts.popReference.seq fun _ => .pushType _) h rfl
  | monitorEnter | monitorExit => exact run .popReference_ h rfl

/-- A branch that goes anywhere changes the width of the stack by its effect. -/
theorem width_branch {L : Type} {br : Branch L} (hgoes : br ≠ .athrow) (h : f.branch br = .ok f') :
    (f'.width : Int) = f.width + ((br.slots.pushed : Int) - br.slots.popped) := by
  refine width_onStack_ ?_ h
  cases br with
  | ifZero | tableSwitch | lookupSwitch => exact .popType _
  | ifInt => exact .popTypes _
  | ifRef => exact Shifts.popReference.seq fun _ => .popReference_
  | ifNull => exact .popReference_
  | goto | gotoWide | ret => exact .done
  | jsr | jsrWide => exact .pushType _
  | leave k =>
    cases k with
    | none => exact .done
    | some k =>
      have hk : -(k.width : Int) = ((Branch.leave (some k) : Branch L).slots.pushed : Int) -
          (Branch.leave (some k) : Branch L).slots.popped := by
        simp [Branch.slots]
      rw [← hk]
      dsimp only
      split
      next t ht =>
        rw [← ValueKind.width_verifyType? ht]
        exact .popType t
      next ht =>
        rw [ValueKind.width_ref ht]
        exact .popReference_
  | athrow => exact absurd rfl hgoes

theorem mergeTypes_width {a b c : VerifyType} (h : mergeTypes a b = some c) :
    c.width = a.width ∧ c.width = b.width := by
  unfold mergeTypes at h
  split at h
  next hab => cases h; exact ⟨rfl, congrArg _ hab⟩
  next => split at h <;> cases h <;> exact ⟨rfl, rfl⟩

theorem mergeStacks_width {as bs cs : List VerifyType} (h : mergeStacks as bs = some cs) :
    stackWidth cs = stackWidth as ∧ stackWidth cs = stackWidth bs := by
  induction as generalizing bs cs with
  | nil =>
    cases bs with
    | nil => cases h; exact ⟨rfl, rfl⟩
    | cons b bs => cases h
  | cons a as ih =>
    cases bs with
    | nil => cases h
    | cons b bs =>
      obtain ⟨c, hc, h⟩ := Option.bind_eq_some_iff.mp h
      obtain ⟨ds, hds, h⟩ := Option.bind_eq_some_iff.mp h
      cases h
      obtain ⟨ha, hb⟩ := mergeTypes_width hc
      obtain ⟨has, hbs⟩ := ih hds
      simp only [stackWidth_cons]
      omega

/-- Frames that can be merged are equally wide. -/
theorem width_merge {m : Frame} (h : f.merge g = .ok m) : m.width = f.width ∧ m.width = g.width :=
  mergeStacks_width (merge_ok.mp h).2

end Frame

end ClassGraft
