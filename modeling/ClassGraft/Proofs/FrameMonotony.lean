import ClassGraft.Proofs.FrameOrder

namespace ClassGraft

open VerifyType

namespace VerifyType.Above

variable {t u : VerifyType}

/-- What can be known of elements, of what can be known of arrays. -/
theorem elements {a b : VerifyType} (h : a.Above b) (ht : elementType? a = some t)
    (hu : elementType? b = some u) : t.Above u := by
  have hobject {c : RefType} {v : VerifyType} (hv : elementType? (.object c) = some v) :
      ∃ d, v = .object d := by
    cases c with
    | object n => cases hv; exact ⟨_, rfl⟩
    | objectArray extra n => cases extra <;> cases hv <;> exact ⟨_, rfl⟩
    | primitiveArray extra e => cases extra <;> cases hv; exact ⟨_, rfl⟩
  cases h with
  | same =>
    cases Option.some.inj (ht.symm.trans hu)
    exact .same t
  | null c =>
    obtain ⟨d, rfl⟩ := hobject ht
    cases hu
    exact .null d
  | object c =>
    obtain ⟨d, rfl⟩ := hobject hu
    cases ht
    exact .object d

end VerifyType.Above

/-- Two computations on stacks, the first one on the stack above, leave such stacks and give such
results if both succeed. -/
def Ascends {α : Type} (m n : StackM α) (R : α → α → Prop) : Prop :=
  ∀ xs fs a b us vs, StackAbove xs fs → m xs = .ok (a, us) → n fs = .ok (b, vs) →
    R a b ∧ StackAbove us vs

namespace Ascends

variable {α β : Type} {m n : StackM α} {R : α → α → Prop}

theorem pure {a b : α} (h : R a b) : Ascends (Pure.pure a) (Pure.pure b) R := by
  intro xs fs a' b' us vs hs ha hb
  cases ha
  cases hb
  exact ⟨h, hs⟩

theorem done : Ascends (Pure.pure () : StackM Unit) (Pure.pure ()) fun _ _ => True := .pure trivial

theorem bind {f g : α → StackM β} {S : β → β → Prop} (hm : Ascends m n R)
    (hf : ∀ a b, R a b → Ascends (f a) (g b) S) : Ascends (m >>= f) (n >>= g) S := by
  intro xs fs a b us vs hs ha hb
  obtain ⟨⟨c, ps⟩, hc, ha⟩ := except_bind_ok.mp ha
  obtain ⟨⟨d, qs⟩, hd, hb⟩ := except_bind_ok.mp hb
  obtain ⟨hr, hpq⟩ := hm xs fs c d ps qs hs hc hd
  exact hf c d hr ps qs a b us vs hpq ha hb

/-- Both succeed only where both tests hold. -/
theorem guarded {p q : Prop} [Decidable p] [Decidable q] {e e' : VerifyFault}
    (h : p → q → Ascends m n R) :
    Ascends (if p then m else StackM.fault e) (if q then n else StackM.fault e') R := by
  intro xs fs a b us vs hs ha hb
  split at ha
  next hp =>
    split at hb
    next hq => exact h hp hq xs fs a b us vs hs ha hb
    next => cases hb
  next => cases ha

theorem ite {p q : Prop} [Decidable p] [Decidable q] {m' n' : StackM α} (hpq : p ↔ q)
    (hm : p → Ascends m m' R) (hn : ¬ p → Ascends n n' R) :
    Ascends (if p then m else n) (if q then m' else n') R := by
  by_cases hp : p
  · rw [if_pos hp, if_pos (hpq.mp hp)]
    exact hm hp
  · rw [if_neg hp, if_neg (mt hpq.mpr hp)]
    exact hn hp

theorem fault_left (e : VerifyFault) : Ascends (StackM.fault e) n R := by
  intro xs fs a b us vs _ ha
  cases ha

theorem fault_right (e : VerifyFault) : Ascends m (StackM.fault e) R := by
  intro xs fs a b us vs _ _ hb
  cases hb

theorem popAny : Ascends StackM.popAny StackM.popAny Above := by
  intro xs fs a b us vs hs ha hb
  cases hs with
  | nil => cases ha
  | cons h hs =>
    cases ha
    cases hb
    exact ⟨h, hs⟩

theorem pushAll {ts us : TypeStack} (h : StackAbove ts us) :
    Ascends (pushAll ts) (ClassGraft.pushAll us) fun _ _ => True := by
  intro xs fs a b ps qs hs ha hb
  cases ha
  cases hb
  exact ⟨trivial, List.rel_append h hs⟩

theorem pushType {t u : VerifyType} (h : t.Above u) :
    Ascends (StackM.pushType t) (StackM.pushType u) fun _ _ => True :=
  pushAll (.cons h .nil)

theorem popReference : Ascends StackM.popReference StackM.popReference Above :=
  .bind popAny fun _ _ h => .guarded fun _ _ => .pure h

theorem popReference_ : Ascends (do let _ ← StackM.popReference) (do let _ ← StackM.popReference)
    fun _ _ => True :=
  .bind popReference fun _ _ _ => .done

theorem popNarrow : Ascends StackM.popNarrow StackM.popNarrow Above := by
  refine .bind popAny fun a b h => .ite ?_ (fun _ => .fault_left _) fun _ => .pure h
  rw [h.isWide]

theorem popType (t : VerifyType) :
    Ascends (StackM.popType t) (StackM.popType t) fun _ _ => True :=
  .bind popAny fun _ _ _ => .ite .rfl (fun _ => .guarded fun _ _ => .done)
    fun _ => .guarded fun _ _ => .done

theorem popTypes (ts : List VerifyType) :
    Ascends (StackM.popTypes ts) (StackM.popTypes ts) fun _ _ => True := by
  induction ts with
  | nil => exact .done
  | cons t ts ih => exact .bind (popType t) fun _ _ _ => ih

theorem popPair : Ascends popPair ClassGraft.popPair StackAbove := by
  refine .bind popAny fun a b h => .ite (by rw [h.isWide]) (fun _ => .pure (.cons h .nil)) fun _ => ?_
  exact .bind popNarrow fun c d h' => .pure (.cons h (.cons h' .nil))

theorem stackOp (op : StackOp) : Ascends op.run op.run fun _ _ => True := by
  cases op with
  | pop => exact .bind popNarrow fun _ _ _ => .done
  | pop2 => exact .bind popPair fun _ _ _ => .done
  | dup => exact .bind popNarrow fun _ _ ha => pushAll (.cons ha (.cons ha .nil))
  | dupX1 =>
    exact .bind popNarrow fun _ _ ha => .bind popNarrow fun _ _ hb =>
      pushAll (.cons ha (.cons hb (.cons ha .nil)))
  | dupX2 =>
    exact .bind popNarrow fun _ _ ha => .bind popPair fun _ _ hbs =>
      pushAll (List.rel_append (.cons ha hbs) (.cons ha .nil))
  | dup2 => exact .bind popPair fun _ _ has => pushAll (List.rel_append has has)
  | dup2X1 =>
    refine .bind popAny fun a _ ha => .bind popNarrow fun _ _ hb => .ite (by rw [ha.isWide])
      (fun _ => pushAll (.cons ha (.cons hb (.cons ha .nil)))) fun _ => .bind popNarrow fun _ _ hc => ?_
    exact pushAll (.cons ha (.cons hb (.cons hc (.cons ha (.cons hb .nil)))))
  | dup2X2 =>
    exact .bind popPair fun _ _ has => .bind popPair fun _ _ hbs =>
      pushAll (List.rel_append (List.rel_append has hbs) has)
  | swap =>
    exact .bind popNarrow fun _ _ ha => .bind popNarrow fun _ _ hb => pushAll (.cons hb (.cons ha .nil))

theorem pushResult (m : MethodType) :
    Ascends (Frame.pushResult m) (Frame.pushResult m) fun _ _ => True := by
  unfold Frame.pushResult
  split
  next t _ => exact pushType (.same _)
  next => exact .done

/-- What an instruction pushes depends on what it popped only by the elements of an array. -/
theorem instruction (i : Instruction) : Ascends i.run i.run fun _ _ => True := by
  have push (t : VerifyType) : Ascends (StackM.pushType t) (StackM.pushType t) fun _ _ => True :=
    pushType (.same t)
  cases i with
  | constNull | constInt | bipush | sipush | constLong | constFloat | constDouble | ldc => exact push _
  | arrayLoad k =>
    refine .bind (popType _) fun _ _ _ => .bind popReference fun a b h => ?_
    cases k.verifyType? with
    | some t => exact push t
    | none =>
      dsimp only
      cases ha : elementType? a with
      | none => exact .fault_left _
      | some t =>
        cases hb : elementType? b with
        | none => exact .fault_right _
        | some u => exact pushType (h.elements ha hb)
  | arrayStore k =>
    have htail : Ascends (do StackM.popType .integer; let _ ← StackM.popReference)
        (do StackM.popType .integer; let _ ← StackM.popReference) fun _ _ => True :=
      .bind (popType _) fun _ _ _ => popReference_
    simp only [Instruction.run]
    split
    next => exact .bind (popType _) fun _ _ _ => htail
    next => exact .bind popReference fun _ _ _ => htail
  | stack op => exact stackOp op
  | arithmetic op k =>
    cases op with
    | neg => exact .bind (popType _) fun _ _ _ => push _
    | _ => exact .bind (popTypes _) fun _ _ _ => push _
  | shift | bitwise | compareLong | compareFloat | compareDouble | newMultiArray =>
    exact .bind (popTypes _) fun _ _ _ => push _
  | convert | newArray | newRefArray => exact .bind (popType _) fun _ _ _ => push _
  | field a r =>
    cases a with
    | getStatic => exact push _
    | putStatic => exact popType _
    | getField => exact .bind popReference fun _ _ _ => push _
    | putField => exact .bind (popType _) fun _ _ _ => popReference_
  | invokeDynamic c => exact .bind (popTypes _) fun _ _ _ => pushResult _
  | arrayLength | checkCast | instanceOf => exact .bind popReference fun _ _ _ => push _
  | monitorEnter | monitorExit => exact popReference_
  | nop | load | store | increment | invoke | new => exact .done

end Ascends

theorem slotOf_set {ts : List VerifyType} {j : Nat} (hj : j < ts.length) (t : VerifyType) (i : Nat) :
    slotOf (ts.set j t) i = if i = j then t else slotOf ts i := by
  unfold slotOf
  rw [List.getElem?_set]
  by_cases he : j = i
  · rw [if_pos he, if_pos hj, if_pos he.symm, Option.getD_some]
  · rw [if_neg he, if_neg (Ne.symm he)]

/-- A type with its second half. -/
theorem slotOf_overwrite {ts : List VerifyType} {slot : Nat} {t : VerifyType}
    (hlen : slot + t.width ≤ ts.length) (i : Nat) :
    slotOf ((if t.isWide then ts.set (slot + 1) .top else ts).set slot t) i =
      if i = slot then t else if t.isWide = true ∧ i = slot + 1 then .top else slotOf ts i := by
  have hpos : 0 < t.width := by cases t <;> simp [SlotType.width]
  by_cases hw : t.isWide = true
  · have htwo : t.width = 2 := by simpa [SlotType.isWide] using hw
    rw [if_pos hw, slotOf_set (by rw [List.length_set]; omega), slotOf_set (by omega)]
    simp only [hw, true_and]
  · rw [if_neg hw, slotOf_set (by omega)]
    simp only [hw, Bool.false_eq_true, false_and, if_false]

/-- The wide local whose second half will be lost. -/
theorem slotOf_ruin {ts : List VerifyType} {p : Nat} (hp : p < ts.length) (i : Nat) :
    slotOf (if (ts[p]?.map SlotType.isWide).getD false then ts.set p .top else ts) i =
      if i = p ∧ (slotOf ts p).isWide = true then .top else slotOf ts i := by
  have hwide : (ts[p]?.map SlotType.isWide).getD false = (slotOf ts p).isWide := by
    rw [slotOf, List.getElem?_eq_getElem hp]
    rfl
  rw [hwide]
  by_cases hw : (slotOf ts p).isWide = true
  · rw [if_pos hw, slotOf_set hp]
    simp only [hw, and_true]
  · rw [if_neg hw, if_neg fun h => hw h.2]

/-- What is in the slots after one has been overwritten. -/
theorem slotOf_setLocal (ts : List VerifyType) (slot : Nat) (t : VerifyType) (i : Nat) :
    slotOf (setLocal ts slot t) i =
      if i = slot then t
      else if t.isWide = true ∧ i = slot + 1 then .top
      else if i + 1 = slot ∧ (slotOf ts i).isWide = true then .top
      else slotOf ts i := by
  have hroom (j : Nat) := slotOf_append_tops ts (slot + t.width - ts.length) j
  have hlen : slot + t.width ≤
      (ts ++ List.replicate (slot + t.width - ts.length) SlotType.top).length := by
    rw [List.length_append, List.length_replicate]
    omega
  have hpos : 0 < t.width := by cases t <;> simp [SlotType.width]
  unfold setLocal
  dsimp only
  generalize ts ++ List.replicate (slot + t.width - ts.length) SlotType.top = room at hroom hlen
  cases slot with
  | zero =>
    dsimp only
    rw [slotOf_overwrite hlen, hroom]
    simp
  | succ p =>
    have hp : p < room.length := by omega
    dsimp only
    rw [slotOf_overwrite (by split <;> simpa using hlen), slotOf_ruin hp, hroom, hroom]
    by_cases hi : i = p
    · subst hi
      simp only [true_and]
    · simp only [hi, Nat.add_right_cancel_iff, false_and]

theorem length_setLocal (ts : List VerifyType) (slot : Nat) (t : VerifyType) :
    (setLocal ts slot t).length = max ts.length (slot + t.width) := by
  have hroom : (ts ++ List.replicate (slot + t.width - ts.length) SlotType.top).length =
      max ts.length (slot + t.width) := by
    rw [List.length_append, List.length_replicate]
    omega
  unfold setLocal
  dsimp only
  rw [← hroom, List.length_set]
  generalize ts ++ List.replicate (slot + t.width - ts.length) SlotType.top = room
  cases slot <;> dsimp only <;> repeat' split
  all_goals simp only [List.length_set]

theorem slotOf_map (ts : List VerifyType) {r : VerifyType → VerifyType} (htop : r .top = .top) (i : Nat) :
    slotOf (ts.map r) i = r (slotOf ts i) := by
  unfold slotOf
  rw [List.getElem?_map]
  cases ts[i]? with
  | none => exact htop.symm
  | some t => rfl

namespace Frame

variable {x f x' f' : Frame}

namespace Above

/-- Frames with other stacks. -/
theorem onto (h : x.Above f) {us vs : List VerifyType} (hs : StackAbove us vs) :
    Frame.Above ⟨x.locals, us⟩ ⟨f.locals, vs⟩ :=
  ⟨h.slots, h.halves, hs⟩

theorem onStack {α : Type} {m n : StackM α} {R : α → α → Prop} {a b : α} (h : x.Above f)
    (hm : Ascends m n R) (hx : x.onStack m = .ok (a, x')) (hf : f.onStack n = .ok (b, f')) :
    R a b ∧ x'.Above f' := by
  unfold Frame.onStack at hx hf
  split at hx
  next us hus =>
    split at hf
    next vs hvs =>
      cases hx
      cases hf
      obtain ⟨hr, hs⟩ := hm _ _ _ _ _ _ h.stack hus hvs
      exact ⟨hr, h.onto hs⟩
    next => cases hf
  next => cases hx

theorem onStack_ {m n : StackM Unit} {R : Unit → Unit → Prop} (h : x.Above f) (hm : Ascends m n R)
    (hx : x.onStack_ m = .ok x') (hf : f.onStack_ n = .ok f') : x'.Above f' := by
  unfold Frame.onStack_ at hx hf
  obtain ⟨⟨_, y⟩, hy, rfl⟩ := except_map_ok hx
  obtain ⟨⟨_, g⟩, hg, rfl⟩ := except_map_ok hf
  exact (h.onStack hm hy hg).2

/-- A local that is read is above the other one, unless it is unusable. -/
theorem getLocal {slot : UInt16} {t u : VerifyType} (h : x.Above f)
    (ht : ClassGraft.getLocal x.locals slot = .ok t) (hu : ClassGraft.getLocal f.locals slot = .ok u) :
    t.Shades u := by
  have hslot {ts : List VerifyType} {v : VerifyType} (hv : ClassGraft.getLocal ts slot = .ok v) :
      slotOf ts slot.toNat = v := by
    unfold ClassGraft.getLocal at hv
    split at hv
    next hs => rw [slotOf, hs, Option.getD_some, Except.ok.inj hv]
    next => cases hv
  rw [← hslot ht, ← hslot hu]
  exact h.slots _

theorem load {k : ValueKind} {slot : UInt16} (h : x.Above f) (hx : x.load k slot = .ok x')
    (hf : f.load k slot = .ok f') : x'.Above f' := by
  obtain ⟨t, ht, hx⟩ := except_bind_ok.mp hx
  obtain ⟨u, hu, hf⟩ := except_bind_ok.mp hf
  obtain ⟨hfits, rfl⟩ := guard_ok hx
  obtain ⟨-, rfl⟩ := guard_ok hf
  refine h.onto (.cons ((h.getLocal ht hu).resolve_left ?_) h.stack)
  rintro rfl
  cases k <;> cases hfits

theorem setLocal {t u : VerifyType} (h : x.Above f) (ht : t.Above u) (slot : Nat) :
    Frame.Above ⟨setLocal x.locals slot t, x.stack⟩ ⟨ClassGraft.setLocal f.locals slot u, f.stack⟩ where
  slots i := by
    rw [slotOf_setLocal, slotOf_setLocal, ht.isWide]
    split
    next => exact .inr ht
    next =>
      split
      next => exact .refl _
      next =>
        split
        next => exact .inl rfl
        next hx =>
          split
          next hf =>
            -- the wide local of the second frame is unusable in the first one already
            rcases h.slots i with htop | habove
            · exact .inl htop
            · exact absurd ⟨hf.1, habove.isWide ▸ hf.2⟩ hx
          next => exact h.slots i
  halves i hw hi := by
    have hwidth : u.width = t.width := by cases ht <;> rfl
    have hpos : 0 < t.width := by cases t <;> simp [SlotType.width]
    rw [length_setLocal] at hi ⊢
    rw [slotOf_setLocal] at hw
    split at hw
    next he =>
      have htwo : t.width = 2 := by simpa [SlotType.isWide] using hw
      omega
    next hne =>
      split at hw
      next => cases hw
      next =>
        split at hw
        next => cases hw
        next =>
          rcases Nat.lt_or_ge (i + 1) (slot + t.width) with hlt | hge
          · omega
          · have := h.halves i hw (by omega)
            omega
  stack := h.stack

theorem store {k : ValueKind} {slot : UInt16} (h : x.Above f) (hx : x.store k slot = .ok x')
    (hf : f.store k slot = .ok f') : x'.Above f' := by
  obtain ⟨⟨t, y⟩, hy, hx⟩ := except_bind_ok.mp hx
  obtain ⟨⟨u, g⟩, hg, hf⟩ := except_bind_ok.mp hf
  obtain ⟨-, rfl⟩ := guard_ok hx
  obtain ⟨-, rfl⟩ := guard_ok hf
  obtain ⟨ht, hyg⟩ := h.onStack .popAny hy hg
  exact hyg.setLocal ht _

/-- Nothing else is above or below an object that is not constructed. -/
theorem replaceType {receiver made : VerifyType} (h : x.Above f) (hr : receiver ≠ .top)
    (halone : ∀ t u : VerifyType, t.Above u → (t = receiver ↔ u = receiver))
    (hmade : made.isWide = false) :
    Frame.Above ⟨replaceType receiver made x.locals, replaceType receiver made x.stack⟩
      ⟨ClassGraft.replaceType receiver made f.locals, ClassGraft.replaceType receiver made f.stack⟩ := by
  have hkept {t u : VerifyType} (ht : t.Above u) :
      (if t = receiver then made else t).Above (if u = receiver then made else u) := by
    by_cases he : t = receiver
    · rw [if_pos he, if_pos ((halone t u ht).mp he)]
      exact .same _
    · rw [if_neg he, if_neg (mt (halone t u ht).mpr he)]
      exact ht
  have htop : (if (.top : VerifyType) = receiver then made else .top) = .top := if_neg hr.symm
  have hslot (ts : List VerifyType) (i : Nat) : slotOf (ClassGraft.replaceType receiver made ts) i =
      if slotOf ts i = receiver then made else slotOf ts i :=
    slotOf_map ts (r := fun t => if t = receiver then made else t) htop i
  refine ⟨fun i => ?_, fun i hw hi => ?_, ?_⟩
  · rw [hslot, hslot]
    rcases h.slots i with hx | hx
    · rw [hx]
      exact .inl htop
    · exact .inr (hkept hx)
  · rw [hslot] at hw
    simp only [ClassGraft.replaceType, List.length_map] at hi ⊢
    refine h.halves i ?_ hi
    split at hw
    next => rw [hmade] at hw; cases hw
    next => exact hw
  · exact List.rel_map (fun _ _ ht => hkept ht) h.stack

theorem construct {c : BinaryName} {m : MethodRef} (h : x.Above f) (hx : x.construct c m = .ok x')
    (hf : f.construct c m = .ok f') : x'.Above f' := by
  obtain ⟨t, made, y, hy, ht, -, rfl⟩ := construct_ok hx
  obtain ⟨u, made', g, hg, hu, -, rfl⟩ := construct_ok hf
  obtain ⟨htu, hyg⟩ := h.onStack .popAny hy hg
  cases ht <;> cases htu <;> cases hu <;>
    exact hyg.replaceType nofun (fun _ _ ha => by cases ha <;> simp) rfl

theorem invoke {c : BinaryName} {k : InvokeKind} {m : MethodRef} (h : x.Above f)
    (hx : x.invoke c k m = .ok x') (hf : f.invoke c k m = .ok f') : x'.Above f' := by
  unfold Frame.invoke at hx hf
  obtain ⟨y, hy, hx⟩ := except_bind_ok.mp hx
  obtain ⟨g, hg, hf⟩ := except_bind_ok.mp hf
  have hyg := h.onStack_ (.popTypes _) hy hg
  split at hx
  next hspecial =>
    rw [if_pos hspecial] at hf
    exact hyg.construct hx hf
  next hspecial =>
    rw [if_neg hspecial] at hf
    refine hyg.onStack_ (R := fun _ _ => True) ?_ hx hf
    exact .ite .rfl (fun _ => .bind .popReference fun _ _ _ => .pushResult _) fun _ => .pushResult _

/-- Behind an instruction that both frames allow, the frames are in the same order. -/
theorem step {c : BinaryName} {site : Option Label} {i : Instruction} (h : x.Above f)
    (hx : x.step c site i = .ok x') (hf : f.step c site i = .ok f') : x'.Above f' := by
  cases i with
  | load k slot => exact h.load hx hf
  | store k slot => exact h.store hx hf
  | increment slot n =>
    obtain ⟨t, -, hx⟩ := except_bind_ok.mp hx
    obtain ⟨u, -, hf⟩ := except_bind_ok.mp hf
    obtain ⟨-, rfl⟩ := guard_ok hx
    obtain ⟨-, rfl⟩ := guard_ok hf
    exact h
  | invoke k m => exact h.invoke hx hf
  | new c' =>
    cases site with
    | none => cases hx
    | some l =>
      cases hx
      cases hf
      exact h.onto (.cons (.same _) h.stack)
  | _ => exact h.onStack_ (.instruction _) hx hf

theorem branch {L : Type} {br : Branch L} (h : x.Above f) (hx : x.branch br = .ok x')
    (hf : f.branch br = .ok f') : x'.Above f' := by
  refine h.onStack_ (R := fun _ _ => True) ?_ hx hf
  cases br with
  | ifZero | tableSwitch | lookupSwitch => exact .popType _
  | ifInt => exact .popTypes _
  | ifRef => exact .bind .popReference fun _ _ _ => .popReference_
  | ifNull => exact .popReference_
  | goto | gotoWide | ret => exact .done
  | jsr | jsrWide => exact .pushType (.same _)
  | leave k =>
    cases k with
    | none => exact .done
    | some k =>
      dsimp only
      split
      · exact .popType _
      · exact .popReference_
  | athrow =>
    refine .bind .popReference fun t u ht => ?_
    intro xs fs a b us vs _ ha hb
    cases ha
    cases hb
    exact ⟨trivial, .cons ht .nil⟩

/-- What handlers are entered with is kept as locals are. -/
theorem caught (h : x.Above f) (t : VerifyType) : Frame.Above ⟨x.locals, [t]⟩ ⟨f.locals, [t]⟩ :=
  h.onto (.cons (.same t) .nil)

end Above

end Frame

end ClassGraft
