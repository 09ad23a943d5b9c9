import ClassGraft.Proofs.CodeTables
import ClassGraft.Proofs.StackMapBytes
import ClassGraft.Proofs.TypeOrigins

namespace ClassGraft

theorem packLocals_wide {C U : Type} {t : SlotType C U} (h : t.isWide = true) (u : SlotType C U)
    (ts : List (SlotType C U)) : packLocals (t :: u :: ts) = t :: packLocals ts := by
  simp only [packLocals, h, if_true]

theorem packLocals_narrow {C U : Type} {t : SlotType C U} (h : t.isWide = false)
    (ts : List (SlotType C U)) : packLocals (t :: ts) = t :: packLocals ts := by
  cases ts <;> simp [packLocals, h]

theorem packLocals_spreadLocals {C U : Type} (ts : List (SlotType C U)) :
    packLocals (spreadLocals ts) = ts := by
  induction ts with
  | nil => rfl
  | cons t ts ih =>
    unfold spreadLocals
    split
    next hw => rw [packLocals_wide hw, ih]
    next hw => rw [packLocals_narrow (by simpa using hw), ih]

theorem packLocals_length_le {C U : Type} (ts : List (SlotType C U)) :
    (packLocals ts).length ≤ ts.length := by
  fun_induction packLocals ts with
  | case1 => exact Nat.le_refl _
  | case2 => exact Nat.le_refl _
  | case3 t hw u ts ih =>
    simp only [List.length_cons]
    omega
  | case4 t ts hw ih =>
    simp only [List.length_cons]
    omega

theorem packLocals_map {C U C' U' : Type} {f : SlotType C U → SlotType C' U'}
    (hf : ∀ t, (f t).isWide = t.isWide) (ts : List (SlotType C U)) :
    packLocals (ts.map f) = (packLocals ts).map f := by
  fun_induction packLocals ts with
  | case1 => rfl
  | case2 t hw => rw [List.map_cons, List.map_nil, packLocals, if_pos ((hf t).trans hw)]
  | case3 t hw u ts ih =>
    rw [List.map_cons, List.map_cons, packLocals_wide ((hf t).trans hw), ih, List.map_cons]
  | case4 t ts hw ih =>
    rw [List.map_cons, packLocals_narrow ((hf t).trans (by simpa using hw)), ih, List.map_cons]

/-- What is so for slots one by one is so for values, if types of one width go together. -/
theorem forall₂_packLocals {C U C' U' : Type} {R : SlotType C U → SlotType C' U' → Prop}
    (hR : ∀ t u, R t u → u.isWide = t.isWide) {ts : List (SlotType C U)} {us : List (SlotType C' U')}
    (h : List.Forall₂ R ts us) : List.Forall₂ R (packLocals ts) (packLocals us) := by
  fun_induction packLocals ts generalizing us with
  | case1 => cases h; exact .nil
  | case2 t hw =>
    cases h with
    | cons ht h =>
      cases h
      rw [packLocals, if_pos ((hR _ _ ht).trans hw)]
      exact .cons ht .nil
  | case3 t hw u ts ih =>
    cases h with
    | cons ht h =>
      cases h with
      | cons _ h =>
        rw [packLocals_wide ((hR _ _ ht).trans hw)]
        exact .cons ht (ih h)
  | case4 t ts hw ih =>
    cases h with
    | cons ht h =>
      rw [packLocals_narrow ((hR _ _ ht).trans (by simpa using hw))]
      exact .cons ht (ih h)

theorem spreadLocals_map {C U C' U' : Type} {f : SlotType C U → SlotType C' U'}
    (hf : ∀ t, (f t).isWide = t.isWide) (htop : f .top = .top) (ts : List (SlotType C U)) :
    spreadLocals (ts.map f) = (spreadLocals ts).map f := by
  induction ts with
  | nil => rfl
  | cons t ts ih =>
    rw [List.map_cons, spreadLocals, spreadLocals, hf, ih]
    split
    · rw [List.map_cons, List.map_cons, htop]
    · rw [List.map_cons]

theorem VerifyType.view_isWide (f : Label → Option Nat) (t : VerifyType) :
    (t.view f).isWide = t.isWide := by cases t <;> rfl

theorem Frame.view_packed (f : Label → Option Nat) (g : Frame) :
    (g.view f).packed = g.packed.map (VerifyType.view f) :=
  packLocals_map (VerifyType.view_isWide f) g.locals

/-- Behind the wide values of a list there are second halves when they are spread. -/
theorem spreadLocals_top {C U : Type} (ts : List (SlotType C U)) (i : Nat) (t : SlotType C U)
    (ht : (spreadLocals ts)[i]? = some t) (hw : t.isWide = true) :
    (spreadLocals ts)[i + 1]? = some .top := by
  fun_induction spreadLocals ts generalizing i with
  | case1 => cases ht
  | case2 u us _ ih =>
    match i with
    | 0 => rfl
    | 1 => cases ht; cases hw
    | i + 2 => exact ih i ht
  | case3 u us hnarrow ih =>
    cases i with
    | zero => cases ht; exact absurd hw hnarrow
    | succ i => exact ih i ht

/-- Nothing is lost when locals are packed whose wide values have their second halves. -/
theorem spreadLocals_packLocals {C U : Type} {ts : List (SlotType C U)}
    (h : ∀ i t, ts[i]? = some t → t.isWide = true → ts[i + 1]? = some .top) :
    spreadLocals (packLocals ts) = ts := by
  fun_induction packLocals ts with
  | case1 => rfl
  | case2 t hw => cases h 0 t rfl hw
  | case3 t hw u ts ih =>
    cases Option.some.inj (h 0 t rfl hw)
    rw [spreadLocals, if_pos hw, ih fun i => h (i + 2)]
  | case4 t ts hw ih => rw [spreadLocals, if_neg hw, ih fun i => h (i + 1)]

theorem Padded.spreadLocals_packLocals {ts : List VerifyType} (h : Padded ts) :
    spreadLocals (packLocals ts) = ts := ClassGraft.spreadLocals_packLocals h

theorem padded_spreadLocals (ts : List VerifyType) : Padded (spreadLocals ts) := spreadLocals_top ts

variable {place : Label → Except ClassError Nat} {q : Pool} {l : Listing} {plan : LabelPlan}

/-- What is written for a type. -/
inductive TypeWritten (place : Label → Except ClassError Nat) (q : Pool) : VerifyType → RawType → Prop
  | top : TypeWritten place q .top .top
  | integer : TypeWritten place q .integer .integer
  | float : TypeWritten place q .float .float
  | double : TypeWritten place q .double .double
  | long : TypeWritten place q .long .long
  | null : TypeWritten place q .null .null
  | uninitializedThis : TypeWritten place q .uninitializedThis .uninitializedThis
  | object {c : RefType} {i : UInt16} : q.classType i = .ok c →
      TypeWritten place q (.object c) (.object i)
  | uninitialized {u : NewSite} {o : Nat} : place u.label = .ok o →
      TypeWritten place q (.uninitialized u) (.uninitialized o.toUInt16)

/-- The label of a site lies at a `new` of its class. -/
def Stands (place : Label → Except ClassError Nat) (l : Listing) (u : NewSite) : Prop :=
  ∃ o, place u.label = .ok o ∧ o ≤ 65535 ∧ l.at? o = some (.inl (.new u.type))

namespace TypeWritten

variable {t : VerifyType} {r : RawType} {ts : List VerifyType} {rs : List RawType}

theorem isWide (h : TypeWritten place q t r) : r.isWide = t.isWide := by cases h <;> rfl

theorem packed (h : List.Forall₂ (TypeWritten place q) ts rs) :
    List.Forall₂ (TypeWritten place q) (packLocals ts) (packLocals rs) :=
  forall₂_packLocals (fun _ _ => isWide) h

theorem resolve (h : TypeWritten place q t r) (ht : Sited (Stands place l) t) :
    ∃ v, l.resolve q plan r = .ok v := by
  cases h with
  | object hc => exact ⟨_, by rw [Listing.resolve, SlotType.mapM, hc]; rfl⟩
  | @uninitialized u o ho =>
    obtain ⟨o', ho', hle, hat⟩ := ht
    cases Except.ok.inj (ho.symm.trans ho')
    refine ⟨.uninitialized ⟨u.type, plan.label o⟩, ?_⟩
    rw [Listing.resolve, SlotType.mapM, Pool.toNat_toUInt16 hle, hat]
    rfl
  | _ => exact ⟨_, rfl⟩

theorem resolve_each (h : List.Forall₂ (TypeWritten place q) ts rs)
    (ht : ∀ t ∈ ts, Sited (Stands place l) t) : ∀ r ∈ rs, ∃ v, l.resolve q plan r = .ok v := by
  induction h with
  | nil => exact fun r hr => absurd hr List.not_mem_nil
  | cons hr _ ih =>
    obtain ⟨ht, hts⟩ := List.forall_mem_cons.mp ht
    exact List.forall_mem_cons.mpr ⟨hr.resolve ht, ih hts⟩

end TypeWritten

/-- What is written for a frame. -/
structure Frame.Written (place : Label → Except ClassError Nat) (q : Pool) (f : Frame)
    (r : RawFrame) : Prop where
  locals : List.Forall₂ (TypeWritten place q) f.locals r.locals
  stack : List.Forall₂ (TypeWritten place q) f.stack r.stack

theorem Frame.toRaw_yields (f : Frame) : Pool.Yields (f.toRaw place) fun q r => f.Written place q r := by
  have hraw (t : VerifyType) : Pool.Yields (t.mapM Pool.internClass fun site => do
      return (← place site.label).toUInt16 : PoolM RawType) fun q r => TypeWritten place q t r := by
    cases t with
    | object c =>
      exact (Pool.internClass_yields c).map fun q i _ h => .object (Pool.classType_ok h.1)
    | uninitialized u =>
      have ho : Pool.Yields (do return (← place u.label).toUInt16 : PoolM UInt16)
          fun q r => TypeWritten place q (.uninitialized u) (.uninitialized r) :=
        .bind (.lift (place u.label)) fun o => .pure fun _ h => .uninitialized h
      exact ho.map fun _ _ _ h => h
    | top => exact .pure fun _ => .top
    | integer => exact .pure fun _ => .integer
    | float => exact .pure fun _ => .float
    | double => exact .pure fun _ => .double
    | long => exact .pure fun _ => .long
    | null => exact .pure fun _ => .null
    | uninitializedThis => exact .pure fun _ => .uninitializedThis
  have hlist (ts : List VerifyType) : Pool.Yields (ts.mapM fun t => (t.mapM Pool.internClass
      fun site => do return (← place site.label).toUInt16 : PoolM RawType))
      fun q => List.Forall₂ (TypeWritten place q) ts :=
    .mapM fun t _ => hraw t
  refine .bind (hlist _) fun ls => .bind (hlist _) fun ss => .pure fun q hs hl => ⟨hl, ?_⟩
  rw [← List.reverse_reverse ss] at hs
  exact List.forall₂_reverse_iff.mp hs

/-- What is written for frames at offsets. A frame that is repeated is left out. -/
inductive FramesWritten (place : Label → Except ClassError Nat) (q : Pool) :
    Nat → RawFrame → List (Nat × Frame) → List StackMapFrame → Prop
  | nil {base : Nat} {before : RawFrame} : FramesWritten place q base before [] []
  | again {base offset : Nat} {before : RawFrame} {f : Frame} {fs : List (Nat × Frame)}
      {xs : List StackMapFrame} : f.Written place q before → offset < base →
      FramesWritten place q base before fs xs →
      FramesWritten place q base before ((offset, f) :: fs) xs
  | entry {base offset : Nat} {before r : RawFrame} {f : Frame} {fs : List (Nat × Frame)}
      {xs : List StackMapFrame} : f.Written place q r → base ≤ offset →
      FramesWritten place q (offset + 1) r fs xs → FramesWritten place q base before
        ((offset, f) :: fs) (r.entry (offset - base).toUInt16 before :: xs)

theorem encodeFrames_yields (fs : List (Nat × Frame)) (base : Nat) (before : RawFrame) :
    Pool.Yields (encodeFrames place base before fs)
      fun q xs => FramesWritten place q base before fs xs := by
  induction fs generalizing base before with
  | nil => exact .pure fun _ => .nil
  | cons e fs ih =>
    rw [encodeFrames]
    refine .bind e.2.toRaw_yields fun r => ?_
    split
    next hlt =>
      split
      next heq => exact (ih base before).imp fun _ _ _ h hr => .again (heq ▸ hr) hlt h
      next => exact .throw _
    next hlt => exact (ih _ r).map fun _ _ _ h hr => .entry hr (Nat.le_of_not_lt hlt) h

namespace RawFrame

variable {f before : RawFrame} {d : UInt16}

/-- The shortest entry behind a frame: the cases in which it is chosen. -/
theorem entry_cases (f : RawFrame) (d : UInt16) (before : RawFrame) :
    f.stack = [] ∧ f.packed = before.packed ∧ f.entry d before = .same d ∨
    (∃ item, f.stack = [item] ∧ f.packed = before.packed ∧ f.entry d before = .sameOne d item) ∨
    (∃ n, f.stack = [] ∧ f.packed.length + n = before.packed.length ∧ 0 < n ∧ n < 4 ∧
      f.packed = before.packed.take f.packed.length ∧ f.entry d before = .chop d n.toUInt8) ∨
    (∃ ts, f.stack = [] ∧ f.packed = before.packed ++ ts ∧ 0 < ts.length ∧ ts.length < 4 ∧
      f.entry d before = .append d ts) ∨ f.entry d before = f.full d := by
  unfold entry
  dsimp only
  split
  next hs =>
    split
    next he => exact .inl ⟨hs, he, rfl⟩
    next hne =>
      split
      next hc =>
        obtain ⟨htake, hfew⟩ := hc
        have hle : f.packed.length ≤ before.packed.length := by
          have := congrArg List.length htake
          rw [List.length_take] at this
          omega
        have hpos : f.packed.length ≠ before.packed.length := fun he => hne (by
          rw [htake, he, List.take_length])
        exact .inr (.inr (.inl ⟨before.packed.length - f.packed.length, hs, by omega, by omega,
          hfew, htake, rfl⟩))
      next =>
        split
        next ha =>
          obtain ⟨htake, hfew⟩ := ha
          have happend : f.packed = before.packed ++ f.packed.drop before.packed.length := by
            conv_lhs => rw [← List.take_append_drop before.packed.length f.packed, ← htake]
          have hpos : f.packed.length ≠ before.packed.length := fun he => hne (by
            rw [htake, ← he, List.take_length])
          have hlen := congrArg List.length happend
          rw [List.length_append] at hlen
          have hdrop : (f.packed.drop before.packed.length).length =
            f.packed.length - before.packed.length := List.length_drop
          exact .inr (.inr (.inr (.inl ⟨_, hs, happend, by omega, by omega, rfl⟩)))
        next => exact .inr (.inr (.inr (.inr rfl)))
  next item hs =>
    split
    next he => exact .inr (.inl ⟨item, hs, he, rfl⟩)
    next => exact .inr (.inr (.inr (.inr rfl)))
  next => exact .inr (.inr (.inr (.inr rfl)))

theorem entry_delta (f : RawFrame) (d : UInt16) (before : RawFrame) : (f.entry d before).delta = d := by
  rcases entry_cases f d before with ⟨-, -, he⟩ | ⟨_, -, -, he⟩ | ⟨_, -, -, -, -, -, he⟩ |
    ⟨_, -, -, -, -, he⟩ | he <;> rw [he] <;> rfl

theorem entry_fits (hp : f.packed.length ≤ 65535) (hs : f.stack.length ≤ 65535) :
    (f.entry d before).Fits := by
  rcases entry_cases f d before with ⟨-, -, he⟩ | ⟨_, -, -, he⟩ | ⟨n, -, -, hpos, hlt, -, he⟩ |
    ⟨ts, -, -, hpos, hlt, he⟩ | he
  · rw [he]
    trivial
  · rw [he]
    trivial
  · rw [he]
    obtain rfl | rfl | rfl : n = 1 ∨ n = 2 ∨ n = 3 := by omega
    · exact .inl rfl
    · exact .inr (.inl rfl)
    · exact .inr (.inr rfl)
  · rw [he]
    exact ⟨hpos, hlt⟩
  · rw [he]
    exact ⟨hp, by rwa [List.length_reverse]⟩

end RawFrame

/-- A frame is read as it is written if it has the values that the types of the raw frame stand for. -/
structure Frame.Reads (R : RawType → VerifyType → Prop) (r : RawFrame) (g : Frame) : Prop where
  packed : List.Forall₂ R r.packed g.packed
  stack : List.Forall₂ R r.stack g.stack

theorem packed_ofPacked (ls ss : List VerifyType) : (FrameOf.ofPacked ls ss).packed = ls :=
  packLocals_spreadLocals ls

section Differences

variable {resolve : RawType → Except ClassError VerifyType} {R : RawType → VerifyType → Prop}

theorem resolve_all (hR : ∀ t v, resolve t = .ok v → R t v) {ts : List RawType}
    (h : ∀ t ∈ ts, ∃ v, resolve t = .ok v) :
    ∃ vs, ts.mapM resolve = .ok vs ∧ List.Forall₂ R ts vs := by
  obtain ⟨vs, hvs, -⟩ := mapM_total h
  exact ⟨vs, hvs, (mapM_ok_iff.mp hvs).imp hR⟩

/-- The entry for a frame is read as that frame behind one that was read as the frame before. -/
theorem Frame.next_entry {g : Frame} {f before : RawFrame} {d : UInt16}
    (hR : ∀ t v, resolve t = .ok v → R t v) (hg : List.Forall₂ R before.packed g.packed)
    (hl : ∀ t ∈ f.locals, ∃ v, resolve t = .ok v) (hs : ∀ t ∈ f.stack, ∃ v, resolve t = .ok v) :
    ∃ g', g.next (f.entry d before) resolve = .ok g' ∧ g'.Reads R f := by
  have hp : ∀ t ∈ f.packed, ∃ v, resolve t = .ok v := fun t ht => hl t (mem_packLocals ht)
  have hnil (hst : f.stack = []) : List.Forall₂ R f.stack [] := hst ▸ .nil
  rcases RawFrame.entry_cases f d before with ⟨hst, heq, he⟩ | ⟨item, hst, heq, he⟩ |
    ⟨n, hst, hsum, hpos, hlt, htake, he⟩ | ⟨ts, hst, heq, -, -, he⟩ | he
  · rw [he]
    exact ⟨{ g with stack := [] }, rfl, heq ▸ hg, hnil hst⟩
  · rw [he]
    obtain ⟨v, hv⟩ := hs item (by rw [hst]; exact List.mem_cons_self)
    refine ⟨{ g with stack := [v] }, by simp only [Frame.next, hv]; rfl, heq ▸ hg, ?_⟩
    rw [hst]
    exact .cons (hR _ _ hv) .nil
  · rw [he]
    have hn : n.toUInt8.toNat = n := by
      rw [Nat.toUInt8_eq, UInt8.toNat_ofNat']
      omega
    have hlen : before.packed.length = g.packed.length := hg.length_eq
    refine ⟨_, by simp only [Frame.next, hn]; rw [if_neg (by omega)]; rfl, ?_, hnil hst⟩
    rw [packed_ofPacked, htake, show g.packed.length - n = f.packed.length by omega]
    exact List.forall₂_take _ hg
  · rw [he]
    rw [heq] at hp
    obtain ⟨vs, hvs, hts⟩ := resolve_all hR fun t ht => hp t (List.mem_append_right _ ht)
    refine ⟨_, by simp only [Frame.next, hvs]; rfl, ?_, hnil hst⟩
    rw [packed_ofPacked, heq]
    exact List.rel_append hg hts
  · rw [he]
    obtain ⟨vs, hvs, hls⟩ := resolve_all hR hp
    obtain ⟨ws, hws, hss⟩ := resolve_all hR fun t ht => hs t (List.mem_reverse.mp ht)
    refine ⟨_, by simp only [RawFrame.full, Frame.next, hvs, hws]; rfl, ?_, ?_⟩
    · rw [packed_ofPacked]
      exact hls
    · rw [← List.reverse_reverse f.stack]
      exact List.forall₂_reverse_iff.mpr hss

end Differences

/-- Every frame that is written is read at its offset, and no other one is. -/
structure FramesRead (place : Label → Except ClassError Nat) (q : Pool)
    (R : RawType → VerifyType → Prop) (base : Nat) (fs gs : List (Nat × Frame)) : Prop where
  written : ∀ e ∈ gs, base ≤ e.1 ∧ ∃ f r, (e.1, f) ∈ fs ∧ f.Written place q r ∧ e.2.Reads R r
  read : ∀ e ∈ fs, base ≤ e.1 → ∃ g r, (e.1, g) ∈ gs ∧ e.2.Written place q r ∧ g.Reads R r

namespace FramesRead

variable {R : RawType → VerifyType → Prop} {base offset : Nat} {fs gs : List (Nat × Frame)}
  {f g : Frame} {r : RawFrame}

/-- A frame that is repeated is not written again. -/
theorem again (h : FramesRead place q R base fs gs) (hlt : offset < base) :
    FramesRead place q R base ((offset, f) :: fs) gs where
  written e he := by
    obtain ⟨hle, f', r, hmem, hparts⟩ := h.written e he
    exact ⟨hle, f', r, List.mem_cons_of_mem _ hmem, hparts⟩
  read := List.forall_mem_cons.mpr ⟨fun hle => absurd hle (Nat.not_le_of_lt hlt), h.read⟩

/-- One more frame is written, and what repeats it comes right behind. -/
theorem cons (h : FramesRead place q R (offset + 1) fs gs) (hw : f.Written place q r)
    (hg : g.Reads R r) (hle : base ≤ offset)
    (hsame : ∀ e ∈ fs, e.1 < offset + 1 → e.1 = offset ∧ e.2.Written place q r) :
    FramesRead place q R base ((offset, f) :: fs) ((offset, g) :: gs) := by
  have hhead : (offset, g) ∈ (offset, g) :: gs := List.mem_cons_self
  constructor
  · refine List.forall_mem_cons.mpr ⟨⟨hle, f, r, List.mem_cons_self, hw, hg⟩, fun e he => ?_⟩
    obtain ⟨hlater, f', r', hmem, hparts⟩ := h.written e he
    exact ⟨by omega, f', r', List.mem_cons_of_mem _ hmem, hparts⟩
  · refine List.forall_mem_cons.mpr ⟨fun _ => ⟨g, r, hhead, hw, hg⟩, fun e he _ => ?_⟩
    by_cases hlater : offset + 1 ≤ e.1
    · obtain ⟨g', r', hmem, hparts⟩ := h.read e he hlater
      exact ⟨g', r', List.mem_cons_of_mem _ hmem, hparts⟩
    · obtain ⟨heq, hw'⟩ := hsame e he (Nat.lt_of_not_le hlater)
      exact ⟨g, r, heq ▸ hhead, hw', hg⟩

end FramesRead

namespace FramesWritten

variable {base stop : Nat} {before : RawFrame} {fs : List (Nat × Frame)} {xs : List StackMapFrame}

theorem fits (h : FramesWritten place q base before fs xs)
    (hf : ∀ e ∈ fs, e.2.packed.length ≤ 65535 ∧ e.2.stack.length ≤ 65535) : ∀ x ∈ xs, x.Fits := by
  induction h with
  | nil => exact fun x hx => absurd hx List.not_mem_nil
  | again _ _ _ ih => exact ih fun e he => hf e (List.mem_cons_of_mem _ he)
  | entry hr _ _ ih =>
    obtain ⟨⟨hl, hs⟩, hrest⟩ := List.forall_mem_cons.mp hf
    refine List.forall_mem_cons.mpr ⟨RawFrame.entry_fits ?_ ?_, ih hrest⟩
    · exact (TypeWritten.packed hr.locals).length_eq ▸ hl
    · rwa [← hr.stack.length_eq]

/-- There are no more entries than offsets for them. -/
theorem length_le (h : FramesWritten place q base before fs xs) (hf : ∀ e ∈ fs, e.1 < stop) :
    xs = [] ∨ base + xs.length ≤ stop := by
  induction h with
  | nil => exact .inl rfl
  | again _ _ _ ih => exact ih fun e he => hf e (List.mem_cons_of_mem _ he)
  | entry _ hle _ ih =>
    obtain ⟨hlt, hrest⟩ := List.forall_mem_cons.mp hf
    right
    rw [List.length_cons]
    rcases ih hrest with rfl | hlen
    · dsimp only at hlt
      rw [List.length_nil]
      omega
    · omega

/-- A frame at an offset that is passed is the one before. -/
theorem repeated (h : FramesWritten place q base before fs xs)
    (hs : (fs.map Prod.fst).Pairwise (· ≤ ·)) : ∀ e ∈ fs, e.1 < base → e.2.Written place q before := by
  induction h with
  | nil => exact fun e he => absurd he List.not_mem_nil
  | again hw _ _ ih =>
    exact List.forall_mem_cons.mpr ⟨fun _ => hw, ih (List.pairwise_cons.mp hs).2⟩
  | @entry base offset before r f fs xs _ hle _ _ =>
    have hlow : ∀ e ∈ (offset, f) :: fs, offset ≤ e.1 := List.forall_mem_cons.mpr
      ⟨Nat.le_refl _, fun e he => (List.pairwise_cons.mp hs).1 e.1 (List.mem_map_of_mem he)⟩
    intro e he hlt
    have := hlow e he
    omega

/-- What was written for frames is read, if their sites stand at a `new` each. -/
theorem declared (h : FramesWritten place q base before fs xs) {g : Frame}
    {R : RawType → VerifyType → Prop} (hR : ∀ t v, l.resolve q plan t = .ok v → R t v)
    (hg : List.Forall₂ R before.packed g.packed) (hs : (fs.map Prod.fst).Pairwise (· ≤ ·))
    (hf : ∀ e ∈ fs, l.isStart e.1 = true ∧ e.1 ≤ 65535 ∧ e.2.Sited (Stands place l)) :
    ∃ gs, l.declaredFrames (l.resolve q plan) base g xs = .ok gs ∧
      FramesRead place q R base fs gs := by
  induction h generalizing g with
  | nil => exact ⟨[], rfl, nofun, nofun⟩
  | again _ hlt _ ih =>
    obtain ⟨gs, hgs, hread⟩ := ih hg (List.pairwise_cons.mp hs).2
      fun e he => hf e (List.mem_cons_of_mem _ he)
    exact ⟨gs, hgs, hread.again hlt⟩
  | @entry base offset before r f fs xs hr hle hfs ih =>
    obtain ⟨⟨hstart, hsmall, hsited⟩, hrest⟩ := List.forall_mem_cons.mp hf
    dsimp only at hstart hsmall hsited
    obtain ⟨hlow, hs⟩ := List.pairwise_cons.mp hs
    have hlocals : ∀ t ∈ r.locals, ∃ v, l.resolve q plan t = .ok v :=
      TypeWritten.resolve_each hr.locals hsited.locals
    have hstack : ∀ t ∈ r.stack, ∃ v, l.resolve q plan t = .ok v :=
      TypeWritten.resolve_each hr.stack hsited.stack
    obtain ⟨g', hnext, hreads⟩ :=
      Frame.next_entry (d := (offset - base).toUInt16) hR hg hlocals hstack
    obtain ⟨gs, hgs, hread⟩ := ih hreads.packed hs hrest
    have hoffset : base + (r.entry (offset - base).toUInt16 before).delta.toNat = offset := by
      rw [RawFrame.entry_delta, Pool.toNat_toUInt16 (by omega)]
      omega
    refine ⟨(offset, g') :: gs, ?_, hread.cons hr hreads hle fun e he hlt => ?_⟩
    · simp only [Listing.declaredFrames, hoffset, hstart, hnext, hgs, bind, Except.bind]
      rfl
    · have hoff : offset ≤ e.1 := hlow e.1 (List.mem_map_of_mem he)
      exact ⟨by omega, hfs.repeated hs e he hlt⟩

end FramesWritten

namespace DebugTables

theorem add_frames {d : DebugTables} {xs : List StackMapFrame} {as : List Attribute}
    (h : HoldsTable q .stackMapTable xs xs as) (hn : xs.length ≤ 65535) (hf : ∀ x ∈ xs, x.Fits) :
    as.foldlM (add q l) d = .ok { d with frames := if xs = [] then d.frames else some xs } := by
  refine add_table h (.counted xs (fun x hx => .stackMapFrame (hf x hx)) hn) (fun hx => ?_)
    fun a hname hd hne => ?_
  · rw [if_pos hx]
  · simp only [add, hname, hd, AttributeKind.name_inj, reduceCtorEq, bind, Except.bind, ↓reduceIte,
      if_neg hne]
    rfl

/-- All that was written about lines, local variables and frames is read. -/
theorem ofAttributes_ok {lines : List LineEntry} {plain signed : List LocalEntry}
    {frames : List StackMapFrame} {as bs cs ds : List Attribute}
    (ha : HoldsTable q .lineNumberTable lines lines as)
    (hb : HoldsTable q .localVariableTable plain plain bs)
    (hc : HoldsTable q .localVariableTypeTable signed signed cs)
    (hd : HoldsTable q .stackMapTable frames frames ds) (hlines : lines.length ≤ 65535)
    (hplain : plain.length ≤ 65535) (hsigned : signed.length ≤ 65535)
    (hframes : frames.length ≤ 65535) (hstart : ∀ e ∈ lines, l.isStart e.start.toNat = true)
    (hrange : ∀ v ∈ plain ++ signed, InRange l v) (hfits : ∀ x ∈ frames, x.Fits) :
    ofAttributes q l (as ++ bs ++ cs ++ ds) =
      .ok ⟨lines, plain.map (fun v => (v, false)) ++ signed.map (fun v => (v, true)),
        if frames = [] then none else some frames⟩ := by
  have h1 : as.foldlM (add q l) ⟨[], [], none⟩ = .ok ⟨lines, [], none⟩ :=
    add_lines ha hlines hstart
  have h2 : bs.foldlM (add q l) ⟨lines, [], none⟩ =
      .ok ⟨lines, plain.map fun v => (v, false), none⟩ :=
    add_plain hb hplain fun v hv => hrange v (List.mem_append_left _ hv)
  have h3 := add_signed (d := ⟨lines, plain.map fun v => (v, false), none⟩) hc hsigned
    fun v hv => hrange v (List.mem_append_right _ hv)
  have h4 := add_frames (l := l) (d := ⟨lines, plain.map (fun v => (v, false)) ++
    signed.map (fun v => (v, true)), none⟩) hd hframes hfits
  rw [ofAttributes, List.foldlM_append, List.foldlM_append, List.foldlM_append, h1]
  simp only [bind, Except.bind, h2, h3, h4]

end DebugTables

end ClassGraft
