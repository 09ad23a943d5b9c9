import ClassGraft.Proofs.TypeOrder

namespace ClassGraft

/-- A stack is above another one if its types are. -/
abbrev StackAbove : List VerifyType → List VerifyType → Prop := List.Forall₂ VerifyType.Above

theorem StackAbove.refl (ts : List VerifyType) : StackAbove ts ts := by
  induction ts with
  | nil => exact .nil
  | cons t ts ih => exact .cons (.same t) ih

theorem StackAbove.trans {ss ts us : List VerifyType} (h : StackAbove ss ts) (k : StackAbove ts us) :
    StackAbove ss us := by
  induction h generalizing us with
  | nil => exact k
  | cons ht _ ih =>
    cases k with
    | cons hu k => exact .cons (ht.trans hu) (ih k)

theorem StackAbove.antisymm {ss ts : List VerifyType} (h : StackAbove ss ts) (k : StackAbove ts ss) :
    ss = ts := by
  induction h with
  | nil => rfl
  | cons ht _ ih =>
    cases k with
    | cons hs k => rw [ht.antisymm hs, ih k]

theorem mergeStacks_cons {a b : VerifyType} {as bs cs : List VerifyType} :
    mergeStacks (a :: as) (b :: bs) = some cs ↔
      ∃ d ds, mergeTypes a b = some d ∧ mergeStacks as bs = some ds ∧ cs = d :: ds := by
  simp only [mergeStacks, Option.bind_eq_bind, Option.bind_eq_some_iff, Option.pure_def,
    Option.some.injEq]
  constructor
  · rintro ⟨d, hd, ds, hds, rfl⟩
    exact ⟨d, ds, hd, hds, rfl⟩
  · rintro ⟨d, ds, hd, hds, rfl⟩
    exact ⟨d, hd, ds, hds, rfl⟩

theorem mergeStacks_least {as bs cs : List VerifyType} (h : mergeStacks as bs = some cs)
    (ts : List VerifyType) : StackAbove ts cs ↔ StackAbove ts as ∧ StackAbove ts bs := by
  induction as generalizing bs cs ts with
  | nil =>
    cases bs with
    | nil => cases h; exact ⟨fun h => ⟨h, h⟩, And.left⟩
    | cons b bs => cases h
  | cons a as ih =>
    cases bs with
    | nil => cases h
    | cons b bs =>
      obtain ⟨c, cs, hc, hcs, rfl⟩ := mergeStacks_cons.mp h
      cases ts with
      | nil => exact ⟨nofun, nofun⟩
      | cons t ts =>
        rw [StackAbove, List.forall₂_cons, List.forall₂_cons, List.forall₂_cons]
        exact (and_congr (VerifyType.mergeTypes_least hc t) (ih hcs ts)).trans and_and_and_comm

theorem mergeStacks_of_above {as bs ts : List VerifyType} (ha : StackAbove ts as)
    (hb : StackAbove ts bs) : ∃ cs, mergeStacks as bs = some cs := by
  induction ha generalizing bs with
  | nil => cases hb; exact ⟨[], rfl⟩
  | cons hta _ ih =>
    cases hb with
    | cons htb hb =>
      obtain ⟨c, hc⟩ := VerifyType.mergeTypes_of_above hta htb
      obtain ⟨cs, hcs⟩ := ih hb
      exact ⟨c :: cs, mergeStacks_cons.mpr ⟨c, cs, hc, hcs, rfl⟩⟩

theorem mergeLocals_length (as bs : List VerifyType) :
    (mergeLocals as bs).length = max as.length bs.length := by
  fun_induction mergeLocals as bs with
  | case1 => simp
  | case2 => simp
  | case3 a as b bs ih => simp [ih]

namespace Frame

/-- Does a frame tell nothing that another one does not tell? Where a wide local lacks its second half,
it lacks it in the other one too. -/
structure Above (x f : Frame) : Prop where
  slots : ∀ i, (slotOf x.locals i).Shades (slotOf f.locals i)
  halves : ∀ i, (slotOf x.locals i).isWide = true → i + 1 < f.locals.length → i + 1 < x.locals.length
  stack : StackAbove x.stack f.stack

/-- Does merging a frame into another one only trim that? -/
def Covers (x f : Frame) : Prop := x.merge f = .ok x.trim

variable {f g h m x y : Frame}

namespace Above

theorem refl (f : Frame) : f.Above f := ⟨fun _ => .refl _, fun _ _ h => h, .refl _⟩

theorem trans (h : x.Above y) (k : y.Above f) : x.Above f where
  slots i := (h.slots i).trans (k.slots i)
  halves i hw hi := by
    have hy := (h.slots i).of_isWide hw
    exact h.halves i hw (k.halves i (hy ▸ hw) hi)
  stack := h.stack.trans k.stack

theorem trim (f : Frame) : f.Above f.trim ∧ Frame.Above f.trim f := by
  have hslots (i : Nat) : slotOf f.trim.locals i = slotOf f.locals i := slotOf_trimLocals f.locals i
  refine ⟨⟨fun i => hslots i ▸ .refl _, fun i hw hi => (trimLocals_half hw).mp hi, .refl _⟩,
    ⟨fun i => hslots i ▸ .refl _, fun i hw hi => (trimLocals_half (hslots i ▸ hw)).mpr hi, .refl _⟩⟩

theorem antisymm (h : x.Above y) (k : y.Above x) : x.trim = y.trim := by
  have hslots (i : Nat) := (h.slots i).antisymm (k.slots i)
  have hlocals : trimLocals x.locals = trimLocals y.locals :=
    trimLocals_eq_iff.mpr ⟨hslots, fun i hw => ⟨k.halves i (hslots i ▸ hw), h.halves i hw⟩⟩
  have hstack := h.stack.antisymm k.stack
  unfold FrameOf.trim
  rw [hlocals, hstack]

end Above

theorem trim_trim (f : Frame) : f.trim.trim = f.trim := by
  unfold FrameOf.trim
  rw [trimLocals_trimLocals]

theorem merge_trim (hm : f.merge g = .ok m) : m.trim = m := by
  unfold FrameOf.trim
  rw [(merge_ok.mp hm).1, trimLocals_trimLocals, ← (merge_ok.mp hm).1]

/-- The merged frame is the least one above both. -/
theorem merge_least (hm : f.merge g = .ok m) (x : Frame) : x.Above m ↔ x.Above f ∧ x.Above g := by
  obtain ⟨hl, hs⟩ := merge_ok.mp hm
  have hslots (i : Nat) : slotOf m.locals i = joinTypes (slotOf f.locals i) (slotOf g.locals i) := by
    rw [hl, slotOf_trimLocals, slotOf_mergeLocals]
  have hhalf (i : Nat) (hw : (slotOf m.locals i).isWide = true) :
      i + 1 < m.locals.length ↔ i + 1 < f.locals.length ∨ i + 1 < g.locals.length := by
    rw [hl, slotOf_trimLocals] at hw
    rw [hl, trimLocals_half hw, mergeLocals_length]
    omega
  constructor
  · intro h
    have hall (i : Nat) := (VerifyType.joinTypes_least _ _ _).mp (hslots i ▸ h.slots i)
    have hstack := (mergeStacks_least hs _).mp h.stack
    have hm {i : Nat} (hw : (slotOf x.locals i).isWide = true) : (slotOf m.locals i).isWide = true :=
      (h.slots i).of_isWide hw ▸ hw
    exact ⟨⟨fun i => (hall i).1, fun i hw hi => h.halves i hw ((hhalf i (hm hw)).mpr (.inl hi)), hstack.1⟩,
      ⟨fun i => (hall i).2, fun i hw hi => h.halves i hw ((hhalf i (hm hw)).mpr (.inr hi)), hstack.2⟩⟩
  · rintro ⟨hf, hg⟩
    have hall (i : Nat) : (slotOf x.locals i).Shades (slotOf m.locals i) := by
      rw [hslots]
      exact (VerifyType.joinTypes_least _ _ _).mpr ⟨hf.slots i, hg.slots i⟩
    refine ⟨hall, fun i hw hi => ?_, (mergeStacks_least hs _).mpr ⟨hf.stack, hg.stack⟩⟩
    rcases (hhalf i ((hall i).of_isWide hw ▸ hw)).mp hi with hi | hi
    · exact hf.halves i hw hi
    · exact hg.halves i hw hi

theorem merge_of_above (hf : x.Above f) (hg : x.Above g) : ∃ m, f.merge g = .ok m := by
  obtain ⟨stack, hs⟩ := mergeStacks_of_above hf.stack hg.stack
  exact ⟨⟨trimLocals (mergeLocals f.locals g.locals), stack⟩, merge_ok.mpr ⟨rfl, hs⟩⟩

/-- Merging succeeds with a frame just if that is trimmed and the least one above both. -/
theorem merge_iff : f.merge g = .ok m ↔ m.trim = m ∧ ∀ x : Frame, x.Above m ↔ x.Above f ∧ x.Above g := by
  constructor
  · intro hm
    exact ⟨merge_trim hm, merge_least hm⟩
  · rintro ⟨ht, hleast⟩
    obtain ⟨hf, hg⟩ := (hleast m).mp (.refl m)
    obtain ⟨k, hk⟩ := merge_of_above hf hg
    have hkm := (hleast k).mpr ((merge_least hk k).mp (.refl k))
    have hmk := (merge_least hk m).mpr ⟨hf, hg⟩
    rw [hk, ← merge_trim hk, hkm.antisymm hmk, ht]

theorem covers_iff : x.Covers f ↔ x.Above f := by
  rw [Covers, merge_iff]
  have ht := Above.trim x
  constructor
  · rintro ⟨-, hleast⟩
    exact ((hleast x).mp ht.1).2
  · intro h
    exact ⟨trim_trim x, fun y => ⟨fun hy => ⟨hy.trans ht.2, (hy.trans ht.2).trans h⟩,
      fun hy => hy.1.trans ht.1⟩⟩

theorem absorbs_iff : x.Absorbs f ↔ x.trim = x ∧ x.Above f := by
  rw [← covers_iff]
  constructor
  · intro h
    have ht := merge_trim h
    exact ⟨ht, h.trans (congrArg Except.ok ht.symm)⟩
  · rintro ⟨ht, h⟩
    exact h.trans (congrArg Except.ok ht)

/-- A trimmed frame absorbs what it was trimmed from. -/
theorem trim_absorbs (f : Frame) : Absorbs f.trim f := absorbs_iff.mpr ⟨trim_trim f, (Above.trim f).2⟩

theorem merge_absorbs_right (hm : f.merge g = .ok m) : m.Absorbs g :=
  absorbs_iff.mpr ⟨merge_trim hm, ((merge_least hm m).mp (.refl m)).2⟩

theorem merge_absorbs_old (hm : f.merge g = .ok m) (ha : f.Absorbs h) : m.Absorbs h :=
  absorbs_iff.mpr ⟨merge_trim hm, ((merge_least hm m).mp (.refl m)).1.trans (absorbs_iff.mp ha).2⟩

/-- There is only one way to fail. -/
theorem merge_error {e : VerifyFault} (he : f.merge g = .error e) : e = .incompatible := by
  unfold merge at he
  split at he
  next => cases he
  next => cases he; rfl

/-- Two mergings of two frames and a third one, however they are grouped. -/
theorem merge_twice_iff : (do (← f.merge g).merge h) = .ok m ↔
    m.trim = m ∧ ∀ x : Frame, x.Above m ↔ (x.Above f ∧ x.Above g) ∧ x.Above h := by
  constructor
  · intro he
    obtain ⟨k, hk, hm⟩ := except_bind_ok.mp he
    refine ⟨merge_trim hm, fun x => ?_⟩
    rw [merge_least hm, merge_least hk]
  · rintro ⟨ht, hleast⟩
    obtain ⟨⟨hf, hg⟩, -⟩ := (hleast m).mp (.refl m)
    obtain ⟨k, hk⟩ := merge_of_above hf hg
    refine except_bind_ok.mpr ⟨k, hk, merge_iff.mpr ⟨ht, fun x => ?_⟩⟩
    rw [hleast, merge_least hk]

theorem merge_twice_error {e : VerifyFault} (he : (do (← f.merge g).merge h) = .error e) :
    e = .incompatible := by
  cases hk : f.merge g with
  | error e' =>
    rw [hk] at he
    cases he
    exact merge_error hk
  | ok k =>
    rw [hk] at he
    exact merge_error he

/-- Computations that fail in one way only are known by their results. -/
theorem eq_of_ok_iff {p q : Except VerifyFault Frame} (hp : ∀ e, p = .error e → e = .incompatible)
    (hq : ∀ e, q = .error e → e = .incompatible) (h : ∀ m, p = .ok m ↔ q = .ok m) : p = q := by
  cases p with
  | ok m => exact ((h m).mp rfl).symm
  | error e =>
    cases q with
    | ok m => cases (h m).mpr rfl
    | error e' => rw [hp e rfl, hq e' rfl]

theorem merge_comm (f g : Frame) : f.merge g = g.merge f := by
  refine eq_of_ok_iff (fun _ => merge_error) (fun _ => merge_error) fun m => ?_
  simp only [merge_iff, and_comm]

theorem merge_assoc (f g h : Frame) :
    (do f.merge (← g.merge h)) = (do (← f.merge g).merge h) := by
  have hcomm : (do f.merge (← g.merge h)) = (do (← g.merge h).merge f) := by simp only [merge_comm f]
  rw [hcomm]
  refine eq_of_ok_iff (fun _ => merge_twice_error) (fun _ => merge_twice_error) fun m => ?_
  rw [merge_twice_iff, merge_twice_iff]
  refine and_congr_right fun _ => forall_congr' fun x => ?_
  have hsides : (x.Above g ∧ x.Above h) ∧ x.Above f ↔ (x.Above f ∧ x.Above g) ∧ x.Above h := by tauto
  rw [hsides]

/-- Merging is a partial join: the order of the frames does not matter, not even for whether they can be
merged, a frame merged with itself is trimmed, and what was merged in changes nothing any more. -/
theorem merge_semilattice (f g h : Frame) :
    f.merge g = g.merge f ∧
      (do f.merge (← g.merge h)) = (do (← f.merge g).merge h) ∧
      f.merge f = .ok f.trim ∧
      ∀ m, f.merge g = .ok m →
        (f.Padded → g.Padded → m.Padded) ∧ m.merge f = .ok m ∧ m.merge g = .ok m := by
  refine ⟨merge_comm f g, merge_assoc f g h, covers_iff.mpr (.refl f), fun m hm => ?_⟩
  obtain ⟨hf, hg⟩ := (merge_least hm m).mp (.refl m)
  have hself := merge_trim hm
  refine ⟨fun hfp hgp => hfp.merge hgp hm, ?_, ?_⟩
  · rw [covers_iff.mpr hf, hself]
  · rw [covers_iff.mpr hg, hself]

namespace Joined

/-- A string behind a `long`, and the same string on the stack. -/
def first : Frame := ⟨[.long, .top, VerifyType.ofClass .string], [VerifyType.ofClass .string]⟩

def second : Frame := ⟨[.long, .top, .null, .integer], [VerifyType.ofClass .classType]⟩

def third : Frame := ⟨[.long, .top], [.null]⟩

/-- The first two, where nothing is known of the object on the stack. -/
def both : Frame := ⟨[.long, .top, VerifyType.ofClass .string], [VerifyType.ofClass .object]⟩

theorem merged_again : first.Padded ∧ second.Padded ∧ first.merge second = .ok both ∧
    (first.merge second = second.merge first ∧
      (do first.merge (← second.merge third)) = (do (← first.merge second).merge third) ∧
      first.merge first = .ok first.trim) ∧
    both.Padded ∧ both.merge first = .ok both ∧ both.merge second = .ok both := by
  have hm : first.merge second = .ok both := by decide
  have hf : first.Padded := by decide
  have hg : second.Padded := by decide
  obtain ⟨hcomm, hassoc, hself, hback⟩ := merge_semilattice first second third
  obtain ⟨hpadded, hfirst, hsecond⟩ := hback both hm
  exact ⟨hf, hg, hm, ⟨hcomm, hassoc, hself⟩, hpadded hf hg, hfirst, hsecond⟩

end Joined

end Frame

end ClassGraft
