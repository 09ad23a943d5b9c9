import ClassGraft.Frame.Weight
import ClassGraft.Proofs.Outcomes

namespace ClassGraft

/-- Is every wide local followed by its unusable second half? -/
def Padded (ts : List VerifyType) : Prop :=
  ∀ i t, ts[i]? = some t → t.isWide = true → ts[i + 1]? = some .top

/-- The type in a slot, where what lies behind the end is unusable. -/
def slotOf (ts : List VerifyType) (i : Nat) : VerifyType := ts[i]?.getD .top

/-- The type of a slot that holds one type or the other. -/
def joinTypes (a b : VerifyType) : VerifyType := (mergeTypes a b).getD .top

theorem joinTypes_top_left (x : VerifyType) : joinTypes .top x = .top := by
  unfold joinTypes mergeTypes
  split <;> rfl

theorem joinTypes_top_right (x : VerifyType) : joinTypes x .top = .top := by
  cases x <;> rfl

/-- Only equal types join to a wide one. -/
theorem joinTypes_wide {a b : VerifyType} (h : (joinTypes a b).isWide = true) :
    a = joinTypes a b ∧ b = joinTypes a b := by
  unfold joinTypes at *
  cases hm : mergeTypes a b with
  | none => rw [hm] at h; cases h
  | some c =>
    rw [hm] at h
    unfold mergeTypes at hm
    split at hm
    next hab => cases hm; exact ⟨rfl, hab.symm⟩
    next =>
      split at hm
      all_goals cases hm
      all_goals cases h

theorem mergeLocals_get (as bs : List VerifyType) (i : Nat) :
    (mergeLocals as bs)[i]? =
      if i < max as.length bs.length then some (joinTypes (slotOf as i) (slotOf bs i)) else none := by
  fun_induction mergeLocals as bs generalizing i with
  | case1 bs =>
    rw [List.getElem?_map]
    by_cases h : i < bs.length
    · simp [h, slotOf, joinTypes_top_left]
    · simp [h]
  | case2 as =>
    rw [List.getElem?_map]
    by_cases h : i < as.length
    · simp [h, slotOf, joinTypes_top_right]
    · simp [h]
  | case3 a as b bs ih =>
    cases i with
    | zero => simp [slotOf, joinTypes]
    | succ i =>
      rw [List.getElem?_cons_succ, ih]
      simp [slotOf]

theorem slotOf_mergeLocals (as bs : List VerifyType) (i : Nat) :
    slotOf (mergeLocals as bs) i = joinTypes (slotOf as i) (slotOf bs i) := by
  rw [slotOf, mergeLocals_get]
  split
  next => rfl
  next h =>
    have ha : slotOf as i = .top := by simp [slotOf, show as.length ≤ i by omega]
    rw [ha, joinTypes_top_left]
    rfl

theorem Padded.of_append {ts us : List VerifyType} (h : Padded (ts ++ us))
    (hl : ∀ t, ts.getLast? = some t → t.isWide = false) : Padded ts := by
  intro i t hi hw
  have hlt : i < ts.length := (List.getElem?_eq_some_iff.mp hi).1
  have hnext := h i t (by rw [List.getElem?_append_left hlt]; exact hi) hw
  by_cases hi' : i + 1 < ts.length
  · rwa [List.getElem?_append_left hi'] at hnext
  · have hlast : ts.getLast? = some t := by
      rw [List.getLast?_eq_getElem?, show ts.length - 1 = i by omega]
      exact hi
    rw [hl t hlast] at hw
    cases hw

theorem Padded.append_tops {ts : List VerifyType} (h : Padded ts) (n : Nat) :
    Padded (ts ++ List.replicate n .top) := by
  intro i t hi hw
  by_cases hlt : i < ts.length
  · rw [List.getElem?_append_left hlt] at hi
    have hnext := h i t hi hw
    rwa [List.getElem?_append_left (List.getElem?_eq_some_iff.mp hnext).1]
  · rw [List.getElem?_append_right (by omega), List.getElem?_replicate] at hi
    split at hi
    next => cases hi; cases hw
    next => cases hi

theorem top_of_isTop {t : VerifyType} (h : t.isTop = true) : t = .top := by
  cases t with
  | top => rfl
  | _ => cases h

theorem trimReversed_append (ts : List VerifyType) :
    ∃ n, ts = List.replicate n .top ++ trimReversed ts ∧
      (Padded ts.reverse → Padded (trimReversed ts).reverse) := by
  fun_induction trimReversed ts with
  | case1 => exact ⟨0, rfl, id⟩
  | case2 t ht =>
    refine ⟨1, by rw [top_of_isTop ht]; rfl, fun _ i u hi => ?_⟩
    simp at hi
  | case3 t ht u us hw => exact ⟨0, rfl, id⟩
  | case4 t ht u us hw ih =>
    obtain ⟨n, he, hp⟩ := ih
    refine ⟨n + 1, by rw [top_of_isTop ht, List.replicate_succ, List.cons_append, ← he], fun h => hp ?_⟩
    rw [List.reverse_cons] at h
    refine h.of_append fun v hv => ?_
    rw [List.getLast?_reverse, List.head?_cons] at hv
    cases hv
    simpa using hw
  | case5 t ts ht => exact ⟨0, rfl, id⟩

theorem trimLocals_append (ts : List VerifyType) :
    ∃ n, ts = trimLocals ts ++ List.replicate n .top := by
  obtain ⟨n, he, -⟩ := trimReversed_append ts.reverse
  refine ⟨n, ?_⟩
  have hr := congrArg List.reverse he
  rwa [List.reverse_reverse, List.reverse_append, List.reverse_replicate] at hr

theorem Padded.trimLocals {ts : List VerifyType} (h : Padded ts) : Padded (trimLocals ts) := by
  obtain ⟨-, -, hp⟩ := trimReversed_append ts.reverse
  exact hp (by rwa [List.reverse_reverse])

theorem slotOf_append_tops (ts : List VerifyType) (n i : Nat) :
    slotOf (ts ++ List.replicate n .top) i = slotOf ts i := by
  unfold slotOf
  by_cases h : i < ts.length
  · rw [List.getElem?_append_left h]
  · rw [List.getElem?_append_right (by omega), List.getElem?_replicate,
      List.getElem?_eq_none (by omega)]
    split <;> rfl

theorem slotOf_trimLocals (ts : List VerifyType) (i : Nat) :
    slotOf (trimLocals ts) i = slotOf ts i := by
  obtain ⟨n, he⟩ := trimLocals_append ts
  rw [← slotOf_append_tops _ n, ← he]

theorem Padded.mergeLocals {as bs : List VerifyType} (ha : Padded as) (hb : Padded bs) :
    Padded (mergeLocals as bs) := by
  intro i t hi hw
  rw [mergeLocals_get] at hi
  split at hi
  next hlt =>
    have ht := Option.some.inj hi
    rw [← ht] at hw
    obtain ⟨hat, hbt⟩ := joinTypes_wide hw
    rw [ht] at hat hbt hw
    have get {cs : List VerifyType} (hc : slotOf cs i = t) : cs[i]? = some t := by
      unfold slotOf at hc
      cases hg : cs[i]? with
      | none => rw [hg] at hc; rw [← hc] at hw; cases hw
      | some u => rw [hg] at hc; exact congrArg some hc
    have ha' := ha i t (get hat) hw
    have hb' := hb i t (get hbt) hw
    have hle := (List.getElem?_eq_some_iff.mp ha').1
    rw [mergeLocals_get, if_pos (by omega), slotOf, slotOf, ha', hb']
    rfl
  next => cases hi

namespace Frame

def Padded (f : Frame) : Prop := ClassGraft.Padded f.locals

/-- Does merging a frame into another one leave that as it is? -/
def Absorbs (f g : Frame) : Prop := f.merge g = .ok f

variable {f g m : Frame}

theorem merge_ok : f.merge g = .ok m ↔
    m.locals = trimLocals (mergeLocals f.locals g.locals) ∧
      mergeStacks f.stack g.stack = some m.stack := by
  unfold merge
  split
  next stack hs =>
    rw [hs]
    constructor
    · intro he
      cases he
      exact ⟨rfl, rfl⟩
    · rintro ⟨hl, hst⟩
      rw [← hl, Option.some.inj hst]
  next hs => simp [hs]

theorem Padded.merge (hf : f.Padded) (hg : g.Padded) (hm : f.merge g = .ok m) : m.Padded := by
  unfold Frame.Padded
  rw [(merge_ok.mp hm).1]
  exact (hf.mergeLocals hg).trimLocals

theorem Padded.trim (hf : f.Padded) : Frame.Padded f.trim := ClassGraft.Padded.trimLocals hf

end Frame

theorem Padded.set_top {ts : List VerifyType} (h : Padded ts) (j : Nat) :
    Padded (ts.set j .top) := by
  intro i t hi hw
  rw [List.getElem?_set] at hi ⊢
  by_cases hj : j = i
  · rw [if_pos hj] at hi
    split at hi
    next => cases hi; cases hw
    next => cases hi
  · rw [if_neg hj] at hi
    have hnext := h i t hi hw
    split
    next hji =>
      rw [← hji] at hnext
      rw [if_pos (List.getElem?_eq_some_iff.mp hnext).1]
    next => exact hnext

/-- A type can be put into a slot whose neighbours allow it. -/
theorem Padded.set {ts : List VerifyType} (h : Padded ts) {j : Nat} {t : VerifyType}
    (hbefore : ∀ p u, j = p + 1 → ts[p]? = some u → u.isWide = false)
    (hbehind : t.isWide = true → ts[j + 1]? = some .top) : Padded (ts.set j t) := by
  intro i u hi hw
  rw [List.getElem?_set] at hi
  rw [List.getElem?_set_ne (show j ≠ i + 1 from ?_)]
  · by_cases hj : j = i
    · subst hj
      rw [if_pos rfl] at hi
      split at hi
      next => cases hi; exact hbehind hw
      next => cases hi
    · rw [if_neg hj] at hi
      exact h i u hi hw
  · intro hj
    rw [if_neg (by omega)] at hi
    rw [hbefore i u hj hi] at hw
    cases hw

theorem Padded.overwrite {ts : List VerifyType} (h : Padded ts) {slot : Nat} {t : VerifyType}
    (hlen : slot + t.width ≤ ts.length)
    (hbefore : ∀ p u, slot = p + 1 → ts[p]? = some u → u.isWide = false) :
    Padded ((if t.isWide then ts.set (slot + 1) .top else ts).set slot t) := by
  split
  next hw =>
    have hwidth : t.width = 2 := by simpa [SlotType.isWide] using hw
    refine (h.set_top (slot + 1)).set (fun p u hp hu => ?_) fun _ => ?_
    · rw [List.getElem?_set_ne (by omega)] at hu
      exact hbefore p u hp hu
    · rw [List.getElem?_set_self (by omega)]
  next hw => exact h.set hbefore fun hw' => absurd hw' hw

theorem Padded.setLocal {ts : List VerifyType} (h : Padded ts) (slot : Nat) (t : VerifyType) :
    Padded (setLocal ts slot t) := by
  unfold ClassGraft.setLocal
  have hroom := h.append_tops (slot + t.width - ts.length)
  have hlen : slot + t.width ≤ ts.length + (slot + t.width - ts.length) := by omega
  rw [← List.length_replicate (a := (.top : VerifyType)) (n := slot + t.width - ts.length),
    ← List.length_append] at hlen
  generalize ts ++ List.replicate (slot + t.width - ts.length) SlotType.top = room at hroom hlen ⊢
  cases slot with
  | zero => exact hroom.overwrite hlen fun p u hp => by cases hp
  | succ p =>
    dsimp only
    by_cases hw : (room[p]?.map SlotType.isWide).getD false = true
    · -- the wide local whose second half is overwritten becomes unusable
      rw [if_pos hw]
      refine (hroom.set_top p).overwrite (by simpa using hlen) fun q u hq hu => ?_
      cases hq
      rw [List.getElem?_set_self (by omega)] at hu
      cases hu
      rfl
    · rw [if_neg hw]
      refine hroom.overwrite hlen fun q u hq hu => ?_
      cases hq
      rw [hu] at hw
      simpa using hw

theorem Padded.map {ts : List VerifyType} (h : Padded ts) {f : VerifyType → VerifyType}
    (hf : ∀ t, (f t).isWide = true → t.isWide = true) (htop : f .top = .top) :
    Padded (ts.map f) := by
  intro i t hi hw
  rw [List.getElem?_map] at hi ⊢
  obtain ⟨u, hu, rfl⟩ := Option.map_eq_some_iff.mp hi
  rw [h i u hu (hf u hw), Option.map_some, htop]

namespace Frame

variable {f f' : Frame}

theorem onStack_locals {α : Type} {m : StackM α} {a : α} (h : f.onStack m = .ok (a, f')) :
    f'.locals = f.locals := by
  unfold onStack at h
  split at h
  next => cases h; rfl
  next => cases h

theorem onStack_keeps_locals {m : StackM Unit} (h : f.onStack_ m = .ok f') : f'.locals = f.locals := by
  unfold onStack_ at h
  obtain ⟨⟨_, g⟩, hg, rfl⟩ := except_map_ok h
  exact onStack_locals hg

theorem branch_locals {L : Type} {b : Branch L} (h : f.branch b = .ok f') :
    f'.locals = f.locals := onStack_keeps_locals h

theorem Padded.of_locals (hf : f.Padded) (h : f'.locals = f.locals) : f'.Padded := by
  unfold Frame.Padded
  rw [h]
  exact hf

theorem Padded.load {k : ValueKind} {slot : UInt16} (hf : f.Padded)
    (h : f.load k slot = .ok f') : f'.Padded := by
  obtain ⟨t, -, h⟩ := except_bind_ok.mp h
  obtain ⟨-, rfl⟩ := guard_ok h
  exact hf

theorem Padded.store {k : ValueKind} {slot : UInt16} (hf : f.Padded)
    (h : f.store k slot = .ok f') : f'.Padded := by
  obtain ⟨⟨t, g⟩, hg, h⟩ := except_bind_ok.mp h
  obtain ⟨-, rfl⟩ := guard_ok h
  have hl := onStack_locals hg
  show ClassGraft.Padded (setLocal g.locals _ _)
  rw [hl]
  exact ClassGraft.Padded.setLocal hf _ _

theorem Padded.replaceType {receiver made : VerifyType} {stack : TypeStack} (hf : f.Padded)
    (hr : receiver ≠ .top) (hm : made.isWide = false) :
    Frame.Padded ⟨replaceType receiver made f.locals, stack⟩ := by
  refine ClassGraft.Padded.map hf (fun t ht => ?_) (if_neg hr.symm)
  split at ht
  next => rw [hm] at ht; cases ht
  next => exact ht

/-- What becomes of an object that is not constructed when its constructor is called. -/
inductive Constructs (c : BinaryName) : VerifyType → VerifyType → Prop
  | this : Constructs c .uninitializedThis (.ofClass c)
  | site (s : NewSite) : Constructs c (.uninitialized s) (.ofClass s.type)

theorem construct_ok {c : BinaryName} {m : MethodRef} (h : f.construct c m = .ok f') :
    ∃ receiver made g, f.onStack StackM.popAny = .ok (receiver, g) ∧ Constructs c receiver made ∧
      m.type.result = none ∧
      f' = ⟨replaceType receiver made g.locals, replaceType receiver made g.stack⟩ := by
  obtain ⟨⟨receiver, g⟩, hg, h⟩ := except_bind_ok.mp h
  dsimp only at h
  split at h
  next =>
    split at h
    next => cases h
    next hr => exact ⟨_, _, g, hg, .this, Option.not_isSome_iff_eq_none.mp hr, (Except.ok.inj h).symm⟩
  next s =>
    split at h
    next => cases h
    next hr => exact ⟨_, _, g, hg, .site s, Option.not_isSome_iff_eq_none.mp hr, (Except.ok.inj h).symm⟩
  next => cases h

theorem Padded.construct {c : BinaryName} {m : MethodRef} (hf : f.Padded)
    (h : f.construct c m = .ok f') : f'.Padded := by
  obtain ⟨receiver, made, g, hg, hmade, -, rfl⟩ := construct_ok h
  have hg' := hf.of_locals (onStack_locals hg)
  cases hmade <;> exact hg'.replaceType nofun rfl

theorem Padded.invoke {c : BinaryName} {k : InvokeKind} {m : MethodRef} (hf : f.Padded)
    (h : f.invoke c k m = .ok f') : f'.Padded := by
  unfold Frame.invoke at h
  obtain ⟨g, hg, h⟩ := except_bind_ok.mp h
  have hg' := hf.of_locals (onStack_keeps_locals hg)
  split at h
  next => exact hg'.construct h
  next => exact hg'.of_locals (onStack_keeps_locals h)

theorem Padded.step {c : BinaryName} {site : Option Label} {i : Instruction} (hf : f.Padded)
    (h : f.step c site i = .ok f') : f'.Padded := by
  cases i with
  | load k slot => exact hf.load h
  | store k slot => exact hf.store h
  | increment slot n =>
    obtain ⟨t, -, h⟩ := except_bind_ok.mp h
    split at h
    next => cases h; exact hf
    next => cases h
  | invoke k m => exact hf.invoke h
  | new c' =>
    cases site with
    | none => cases h
    | some l => cases h; exact hf
  | _ => exact hf.of_locals (onStack_keeps_locals h)

end Frame

end ClassGraft
