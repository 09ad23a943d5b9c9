import ClassGraft.Proofs.FrameMerging

namespace ClassGraft

open StackM

variable {P : NewSite → Prop}

/-- If the type is that of an object not constructed yet, then of one made at a site of some kind. -/
def Sited (P : NewSite → Prop) : VerifyType → Prop
  | .uninitialized u => P u
  | _ => True

instance [DecidablePred P] : DecidablePred (Sited P)
  | .uninitialized u => inferInstanceAs (Decidable (P u))
  | .top | .integer | .float | .double | .long | .null | .uninitializedThis | .object _ =>
    .isTrue trivial

theorem Sited.mono {P Q : NewSite → Prop} {t : VerifyType} (h : Sited P t) (hpq : ∀ u, P u → Q u) :
    Sited Q t := by
  cases t with
  | uninitialized u => exact hpq u h
  | _ => trivial

theorem Sited.ofField (t : FieldType) : Sited P (.ofField t) := by
  rcases t with (_ | _) | _ <;> trivial

theorem Sited.elementVerifyType? {k : ElementKind} {t : VerifyType} (h : k.verifyType? = some t) :
    Sited P t := by
  cases k <;> cases h <;> trivial

theorem Sited.literal (l : Literal) : Sited P l.verifyType := by
  cases l with
  | dynamic _ t => exact .ofField t
  | _ => trivial

theorem Sited.element {a t : VerifyType} (h : elementType? a = some t) : Sited P t := by
  unfold elementType? at h
  split at h <;> cases h <;> trivial

/-- A computation on stacks of types that are sited leaves such a stack, and gives a fitting result. -/
def Safe {α : Type} (P : NewSite → Prop) (m : StackM α) (Q : α → Prop) : Prop :=
  ∀ ts a us, (∀ t ∈ ts, Sited P t) → m ts = .ok (a, us) → Q a ∧ ∀ t ∈ us, Sited P t

namespace Safe

variable {α β : Type} {m : StackM α} {Q : α → Prop} {ts : TypeStack}

theorem pure {a : α} (h : Q a) : Safe P (Pure.pure a) Q := by
  intro ts a us hts he
  cases he
  exact ⟨h, hts⟩

theorem done : Safe P (Pure.pure () : StackM Unit) fun _ => True := .pure trivial

theorem bind {f : α → StackM β} {S : β → Prop} (hm : Safe P m Q) (hf : ∀ a, Q a → Safe P (f a) S) :
    Safe P (m >>= f) S := by
  intro ts b us hts he
  obtain ⟨⟨a, vs⟩, ha, hb⟩ := except_bind_ok.mp he
  obtain ⟨hq, hvs⟩ := hm ts a vs hts ha
  exact hf a hq vs b us hvs hb

theorem fault (e : VerifyFault) : Safe P (StackM.fault e) Q := by
  intro ts a us _ he
  cases he

theorem ite {p : Prop} [Decidable p] {m n : StackM α} (hm : Safe P m Q) (hn : Safe P n Q) :
    Safe P (if p then m else n) Q := by
  split
  · exact hm
  · exact hn

theorem popAny : Safe P popAny (Sited P) := by
  intro ts a us hts he
  cases ts with
  | nil => cases he
  | cons t ts =>
    cases he
    exact List.forall_mem_cons.mp hts

theorem pushAll (h : ∀ t ∈ ts, Sited P t) : Safe P (pushAll ts) fun _ => True := by
  intro us a vs hus he
  cases he
  exact ⟨trivial, fun t ht => (List.mem_append.mp ht).elim (h t) (hus t)⟩

theorem pushType {t : VerifyType} (h : Sited P t) : Safe P (pushType t) fun _ => True := by
  have hone : ∀ u ∈ [t], Sited P u := fun u hu => by rwa [List.mem_singleton.mp hu]
  exact pushAll hone

theorem popReference : Safe P popReference (Sited P) :=
  .bind popAny fun _ ht => .ite (.pure ht) (.fault _)

theorem popNarrow : Safe P popNarrow (Sited P) :=
  .bind popAny fun _ ht => .ite (.fault _) (.pure ht)

theorem popType (t : VerifyType) : Safe P (popType t) fun _ => True :=
  .bind popAny fun _ _ => .ite (.ite .done (.fault _)) (.ite .done (.fault _))

theorem popTypes (ts : List VerifyType) : Safe P (popTypes ts) fun _ => True := by
  induction ts with
  | nil => exact .done
  | cons t ts ih => exact .bind (popType t) fun _ _ => ih

theorem popReference_ : Safe P (do let _ ← StackM.popReference) fun _ => True :=
  .bind popReference fun _ _ => .done

theorem popPair : Safe P popPair fun ts => ∀ t ∈ ts, Sited P t := by
  refine .bind popAny fun a ha => .ite (.pure ?_) (.bind popNarrow fun b hb => .pure ?_)
  · simpa using ha
  · simpa using ⟨ha, hb⟩

theorem stackOp (op : StackOp) : Safe P op.run fun _ => True := by
  cases op with
  | pop => exact .bind popNarrow fun _ _ => .done
  | pop2 => exact .bind popPair fun _ _ => .done
  | dup => exact .bind popNarrow fun a ha => pushAll (by simpa using ha)
  | dupX1 =>
    refine .bind popNarrow fun a ha => .bind popNarrow fun b hb => pushAll ?_
    simpa using ⟨ha, hb, ha⟩
  | dupX2 =>
    refine .bind popNarrow fun a ha => .bind popPair fun bs hbs => pushAll fun t ht => ?_
    simp only [List.cons_append, List.mem_cons, List.mem_append, List.not_mem_nil, or_false] at ht
    rcases ht with rfl | ht | rfl
    · exact ha
    · exact hbs t ht
    · exact ha
  | dup2 =>
    refine .bind popPair fun as has => pushAll fun t ht => ?_
    exact (List.mem_append.mp ht).elim (has t) (has t)
  | dup2X1 =>
    refine .bind popAny fun a ha => .bind popNarrow fun b hb => .ite (pushAll ?_)
      (.bind popNarrow fun c hc => pushAll ?_)
    · simpa using ⟨ha, hb, ha⟩
    · simpa using ⟨ha, hb, hc, ha, hb⟩
  | dup2X2 =>
    refine .bind popPair fun as has => .bind popPair fun bs hbs => pushAll fun t ht => ?_
    rcases List.mem_append.mp ht with ht | ht
    · exact (List.mem_append.mp ht).elim (has t) (hbs t)
    · exact has t ht
  | swap =>
    refine .bind popNarrow fun a ha => .bind popNarrow fun b hb => pushAll ?_
    simpa using ⟨hb, ha⟩

theorem pushResult (m : MethodType) : Safe P (Frame.pushResult m) fun _ => True := by
  unfold Frame.pushResult
  split
  next t _ => exact pushType (.ofField t)
  next => exact .done

theorem wholeType (long : Bool) : Sited P (wholeType long) := by cases long <;> trivial

/-- An instruction pops types, and pushes what it popped or types without a site. -/
theorem instruction (i : Instruction) : Safe P i.run fun _ => True := by
  cases i with
  | constNull | constInt | bipush | sipush | constLong | constFloat | constDouble =>
    exact pushType trivial
  | ldc l => exact pushType (.literal l)
  | arrayLoad k =>
    refine .bind (popType _) fun _ _ => .bind popReference fun a _ => ?_
    split
    next t ht => exact pushType (.elementVerifyType? ht)
    next =>
      split
      next t ht => exact pushType (.element ht)
      next => exact .fault _
  | arrayStore k =>
    have htail : Safe P (do StackM.popType .integer; let _ ← StackM.popReference) fun _ => True :=
      .bind (popType _) fun _ _ => popReference_
    simp only [Instruction.run]
    split
    next => exact .bind (popType _) fun _ _ => htail
    next => exact .bind popReference fun _ _ => htail
  | stack op => exact stackOp op
  | arithmetic op k =>
    have hk : Sited P k.verifyType := by cases k <;> trivial
    cases op with
    | neg => exact .bind (popType _) fun _ _ => pushType hk
    | _ => exact .bind (popTypes _) fun _ _ => pushType hk
  | shift _ long | bitwise _ long =>
    exact .bind (popTypes _) fun _ _ => pushType (wholeType long)
  | convert c =>
    refine .bind (popType _) fun _ _ => pushType ?_
    cases c <;> trivial
  | compareLong | compareFloat | compareDouble =>
    exact .bind (popTypes _) fun _ _ => pushType trivial
  | field a r =>
    cases a with
    | getStatic => exact pushType (.ofField _)
    | putStatic => exact popType _
    | getField => exact .bind popReference fun _ _ => pushType (.ofField _)
    | putField => exact .bind (popType _) fun _ _ => popReference_
  | invokeDynamic c => exact .bind (popTypes _) fun _ _ => pushResult _
  | newArray | newRefArray => exact .bind (popType _) fun _ _ => pushType trivial
  | newMultiArray => exact .bind (popTypes _) fun _ _ => pushType trivial
  | arrayLength | checkCast | instanceOf => exact .bind popReference fun _ _ => pushType trivial
  | monitorEnter | monitorExit => exact popReference_
  | nop | load | store | increment | invoke | new => exact .done

end Safe

namespace Frame

/-- All objects in a frame that are not constructed yet were made at sites of some kind. -/
structure Sited (P : NewSite → Prop) (f : Frame) : Prop where
  locals : ∀ t ∈ f.locals, ClassGraft.Sited P t
  stack : ∀ t ∈ f.stack, ClassGraft.Sited P t

instance [DecidablePred P] (f : Frame) : Decidable (f.Sited P) :=
  decidable_of_iff ((∀ t ∈ f.locals, ClassGraft.Sited P t) ∧ ∀ t ∈ f.stack, ClassGraft.Sited P t)
    ⟨fun h => ⟨h.1, h.2⟩, fun h => ⟨h.locals, h.stack⟩⟩

variable {f g f' : Frame}

theorem Sited.mono {P Q : NewSite → Prop} {f : Frame} (h : f.Sited P)
    (hpq : ∀ u, P u → Q u) : f.Sited Q :=
  ⟨fun t ht => (h.locals t ht).mono hpq, fun t ht => (h.stack t ht).mono hpq⟩

theorem sited_iff {P : NewSite → Prop} {f : Frame} :
    f.Sited P ↔ ∀ u, SlotType.uninitialized u ∈ f.locals ++ f.stack → P u := by
  constructor
  · intro h u hu
    rcases List.mem_append.mp hu with hu | hu
    · exact h.locals _ hu
    · exact h.stack _ hu
  · intro h
    refine ⟨fun t ht => ?_, fun t ht => ?_⟩
    · cases t with
      | uninitialized u => exact h u (List.mem_append_left _ ht)
      | _ => trivial
    · cases t with
      | uninitialized u => exact h u (List.mem_append_right _ ht)
      | _ => trivial

theorem Sited.onStack {α : Type} {m : StackM α} {Q : α → Prop} {a : α} (hf : f.Sited P)
    (hm : Safe P m Q) (h : f.onStack m = .ok (a, f')) : Q a ∧ f'.Sited P := by
  unfold Frame.onStack at h
  split at h
  next hs =>
    cases h
    obtain ⟨ha, hstack⟩ := hm _ _ _ hf.stack hs
    exact ⟨ha, hf.locals, hstack⟩
  next => cases h

theorem Sited.onStack_ {m : StackM Unit} (hf : f.Sited P) (hm : Safe P m fun _ => True)
    (h : f.onStack_ m = .ok f') : f'.Sited P := by
  obtain ⟨⟨_, g⟩, hg, rfl⟩ := except_map_ok h
  exact (hf.onStack hm hg).2

theorem Sited.load {k : ValueKind} {slot : UInt16} (hf : f.Sited P)
    (h : f.load k slot = .ok f') : f'.Sited P := by
  obtain ⟨t, ht, h⟩ := except_bind_ok.mp h
  obtain ⟨-, rfl⟩ := guard_ok h
  unfold getLocal at ht
  split at ht
  next hget =>
    cases ht
    exact ⟨hf.locals, List.forall_mem_cons.mpr ⟨hf.locals _ (List.mem_of_getElem? hget), hf.stack⟩⟩
  next => cases ht

theorem sited_setLocal {ts : List VerifyType} {t : VerifyType} (hts : ∀ u ∈ ts, ClassGraft.Sited P u)
    (ht : ClassGraft.Sited P t) (slot : Nat) : ∀ u ∈ setLocal ts slot t, ClassGraft.Sited P u := by
  have hset {ts : List VerifyType} {t : VerifyType} (i : Nat) (hts : ∀ u ∈ ts, ClassGraft.Sited P u)
      (ht : ClassGraft.Sited P t) : ∀ u ∈ ts.set i t, ClassGraft.Sited P u := fun u hu =>
    (List.mem_or_eq_of_mem_set hu).elim (hts u) fun he => by rwa [he]
  have hroom (n : Nat) : ∀ u ∈ ts ++ List.replicate n .top, ClassGraft.Sited P u := by
    intro u hu
    rcases List.mem_append.mp hu with hu | hu
    · exact hts u hu
    · rw [List.eq_of_mem_replicate hu]
      trivial
  unfold setLocal
  dsimp only
  refine hset _ ?_ ht
  split
  · refine hset _ ?_ trivial
    split
    · exact hroom _
    · split
      · exact hset _ (hroom _) trivial
      · exact hroom _
  · split
    · exact hroom _
    · split
      · exact hset _ (hroom _) trivial
      · exact hroom _

theorem Sited.store {k : ValueKind} {slot : UInt16} (hf : f.Sited P)
    (h : f.store k slot = .ok f') : f'.Sited P := by
  obtain ⟨⟨t, g⟩, hg, h⟩ := except_bind_ok.mp h
  obtain ⟨-, rfl⟩ := guard_ok h
  obtain ⟨ht, hg⟩ := hf.onStack Safe.popAny hg
  exact ⟨sited_setLocal hg.locals ht _, hg.stack⟩

theorem Sited.replaceType {receiver made : VerifyType} (hf : f.Sited P)
    (hm : ClassGraft.Sited P made) :
    Frame.Sited P ⟨replaceType receiver made f.locals, replaceType receiver made f.stack⟩ := by
  have hreplace {ts : List VerifyType} (hts : ∀ t ∈ ts, ClassGraft.Sited P t) :
      ∀ t ∈ ClassGraft.replaceType receiver made ts, ClassGraft.Sited P t := by
    intro t ht
    obtain ⟨u, hu, rfl⟩ := List.mem_map.mp ht
    split
    · exact hm
    · exact hts u hu
  exact ⟨hreplace hf.locals, hreplace hf.stack⟩

theorem Sited.construct {c : BinaryName} {m : MethodRef} (hf : f.Sited P)
    (h : f.construct c m = .ok f') : f'.Sited P := by
  obtain ⟨receiver, made, g, hg, hmade, -, rfl⟩ := construct_ok h
  have hg' := (hf.onStack Safe.popAny hg).2
  cases hmade <;> exact hg'.replaceType trivial

theorem Sited.invoke {c : BinaryName} {k : InvokeKind} {m : MethodRef} (hf : f.Sited P)
    (h : f.invoke c k m = .ok f') : f'.Sited P := by
  unfold Frame.invoke at h
  obtain ⟨g, hg, h⟩ := except_bind_ok.mp h
  have hg := hf.onStack_ (Safe.popTypes _) hg
  split at h
  · exact hg.construct h
  · refine hg.onStack_ ?_ h
    dsimp only
    split
    · exact .bind Safe.popReference fun _ _ => Safe.pushResult _
    · exact Safe.pushResult _

/-- Only a `new` makes an object that is not constructed yet, at the site before it. -/
theorem Sited.step {c : BinaryName} {site : Option Label} {i : Instruction} (hf : f.Sited P)
    (hnew : ∀ d l, i = .new d → site = some l → P ⟨d, l⟩) (h : f.step c site i = .ok f') :
    f'.Sited P := by
  cases i with
  | load k slot => exact hf.load h
  | store k slot => exact hf.store h
  | increment slot n =>
    obtain ⟨t, -, h⟩ := except_bind_ok.mp h
    split at h
    · cases h
      exact hf
    · cases h
  | invoke k m => exact hf.invoke h
  | new d =>
    cases site with
    | none => cases h
    | some l =>
      cases h
      exact ⟨hf.locals, List.forall_mem_cons.mpr ⟨hnew d l rfl rfl, hf.stack⟩⟩
  | _ => exact hf.onStack_ (Safe.instruction _) h

theorem Sited.branch {L : Type} {br : Branch L} (hf : f.Sited P) (h : f.branch br = .ok f') :
    f'.Sited P := by
  refine hf.onStack_ ?_ h
  cases br with
  | ifZero | tableSwitch | lookupSwitch => exact Safe.popType _
  | ifInt => exact Safe.popTypes _
  | ifRef => exact .bind Safe.popReference fun _ _ => Safe.popReference_
  | ifNull => exact Safe.popReference_
  | goto | gotoWide | ret => exact .done
  | jsr | jsrWide => exact Safe.pushType trivial
  | leave k =>
    cases k with
    | none => exact .done
    | some k =>
      dsimp only
      split
      · exact Safe.popType _
      · exact Safe.popReference_
  | athrow =>
    refine .bind Safe.popReference fun t ht => ?_
    intro ts a us _ he
    cases he
    exact ⟨trivial, fun u hu => by rwa [List.mem_singleton.mp hu]⟩

theorem mem_trimReversed {ts : List VerifyType} {t : VerifyType} (h : t ∈ trimReversed ts) :
    t ∈ ts := by
  fun_induction trimReversed ts with
  | case1 => exact h
  | case2 => exact absurd h List.not_mem_nil
  | case3 => exact h
  | case4 _ _ _ _ _ ih => exact List.mem_cons_of_mem _ (ih h)
  | case5 => exact h

theorem sited_trimLocals {ts : List VerifyType} (h : ∀ t ∈ ts, ClassGraft.Sited P t) :
    ∀ t ∈ trimLocals ts, ClassGraft.Sited P t := fun t ht =>
  h t (List.mem_reverse.mp (mem_trimReversed (List.mem_reverse.mp ht)))

theorem Sited.trim (hf : f.Sited P) : Frame.Sited P f.trim := ⟨sited_trimLocals hf.locals, hf.stack⟩

theorem sited_mergeTypes {a b c : VerifyType} (ha : ClassGraft.Sited P a)
    (h : mergeTypes a b = some c) : ClassGraft.Sited P c := by
  unfold mergeTypes at h
  split at h
  · cases h
    exact ha
  · split at h <;> cases h <;> trivial

theorem sited_mergeLocals {as bs : List VerifyType} (h : ∀ t ∈ as, ClassGraft.Sited P t) :
    ∀ t ∈ mergeLocals as bs, ClassGraft.Sited P t := by
  have htops (ts : List VerifyType) : ∀ t ∈ ts.map fun _ => (.top : VerifyType),
      ClassGraft.Sited P t := by
    intro t ht
    obtain ⟨_, -, rfl⟩ := List.mem_map.mp ht
    trivial
  induction as generalizing bs with
  | nil => exact htops bs
  | cons a as ih =>
    cases bs with
    | nil => exact htops (a :: as)
    | cons b bs =>
      obtain ⟨ha, has⟩ := List.forall_mem_cons.mp h
      refine List.forall_mem_cons.mpr ⟨?_, ih has⟩
      cases hm : mergeTypes a b with
      | none => trivial
      | some c => exact sited_mergeTypes ha hm

theorem sited_mergeStacks {as bs cs : List VerifyType} (h : ∀ t ∈ as, ClassGraft.Sited P t)
    (hm : mergeStacks as bs = some cs) : ∀ t ∈ cs, ClassGraft.Sited P t := by
  induction as generalizing bs cs with
  | nil =>
    cases bs with
    | nil => cases hm; exact h
    | cons b bs => cases hm
  | cons a as ih =>
    cases bs with
    | nil => cases hm
    | cons b bs =>
      obtain ⟨ha, has⟩ := List.forall_mem_cons.mp h
      obtain ⟨c, hc, hm⟩ := Option.bind_eq_some_iff.mp hm
      obtain ⟨ds, hds, hm⟩ := Option.bind_eq_some_iff.mp hm
      cases hm
      exact List.forall_mem_cons.mpr ⟨sited_mergeTypes ha hc, ih has hds⟩

theorem Sited.merge {m : Frame} (hf : f.Sited P) (h : f.merge g = .ok m) : m.Sited P := by
  obtain ⟨hlocals, hstack⟩ := merge_ok.mp h
  refine ⟨?_, sited_mergeStacks hf.stack hstack⟩
  rw [hlocals]
  exact sited_trimLocals (sited_mergeLocals hf.locals)

theorem mem_packLocals {C U : Type} {ts : List (SlotType C U)} {t : SlotType C U}
    (h : t ∈ packLocals ts) : t ∈ ts := by
  fun_induction packLocals ts with
  | case1 => exact h
  | case2 => exact h
  | case3 t' hw u ts ih =>
    rcases List.mem_cons.mp h with rfl | h
    · exact List.mem_cons_self
    · exact List.mem_cons_of_mem _ (List.mem_cons_of_mem _ (ih h))
  | case4 t' ts hw ih =>
    rcases List.mem_cons.mp h with rfl | h
    · exact List.mem_cons_self
    · exact List.mem_cons_of_mem _ (ih h)

theorem sited_spreadLocals {ts : List VerifyType} (h : ∀ t ∈ ts, ClassGraft.Sited P t) :
    ∀ t ∈ spreadLocals ts, ClassGraft.Sited P t := by
  induction ts with
  | nil => exact h
  | cons t ts ih =>
    obtain ⟨ht, hts⟩ := List.forall_mem_cons.mp h
    unfold spreadLocals
    split
    · exact List.forall_mem_cons.mpr ⟨ht, List.forall_mem_cons.mpr ⟨trivial, ih hts⟩⟩
    · exact List.forall_mem_cons.mpr ⟨ht, ih hts⟩

theorem Sited.entry (owner : BinaryName) (isStatic isConstructor : Bool) (type : MethodType) :
    Frame.Sited P (Frame.entry owner isStatic isConstructor type) := by
  refine ⟨sited_spreadLocals fun t ht => ?_, fun t ht => absurd ht List.not_mem_nil⟩
  rcases List.mem_append.mp ht with ht | ht
  · split at ht
    · cases ht
    · split at ht
      · rw [List.mem_singleton.mp ht]
        trivial
      · rw [List.mem_singleton.mp ht]
        trivial
  · obtain ⟨u, -, rfl⟩ := List.mem_map.mp ht
    exact .ofField u

end Frame

end ClassGraft
