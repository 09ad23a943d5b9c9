import ClassGraft.Frame.Step

namespace ClassGraft

def VerifyType.rank : VerifyType → Nat
  | .top => 0
  | .null => 3
  | .object t => if t = .object BinaryName.object then 1 else 2
  | _ => 1

theorem rank_pos {t : VerifyType} (h : t ≠ .top) : 0 < t.rank := by
  cases t <;> simp only [VerifyType.rank] <;> try omega
  · contradiction
  · split <;> omega

theorem mergeTypes_rank {a b c : VerifyType} (h : mergeTypes a b = some c) :
    c = a ∨ c.rank < a.rank := by
  unfold mergeTypes at h
  split at h
  next => exact .inl (Option.some.inj h).symm
  next =>
    split at h
    next => cases h; right; simp only [VerifyType.rank]; split <;> omega
    next => exact .inl (Option.some.inj h).symm
    next t _ _ =>
      cases h
      by_cases ht : t = .object BinaryName.object
      · exact .inl (by rw [ht]; rfl)
      · right; simp [VerifyType.ofClass, VerifyType.rank, ht]
    next => cases h

theorem mergeTop_rank (a b : VerifyType) :
    (mergeTypes a b).getD .top = a ∨ ((mergeTypes a b).getD .top).rank < a.rank := by
  cases h : mergeTypes a b with
  | some c => exact mergeTypes_rank h
  | none =>
    by_cases ha : a = .top
    · exact .inl ha.symm
    · right
      exact rank_pos ha

def ranks : List VerifyType → Nat
  | [] => 0
  | t :: ts => t.rank + ranks ts

@[simp] theorem ranks_nil : ranks [] = 0 := rfl

@[simp] theorem ranks_cons (t : VerifyType) (ts : List VerifyType) :
    ranks (t :: ts) = t.rank + ranks ts := rfl

@[simp] theorem ranks_append (ts us : List VerifyType) :
    ranks (ts ++ us) = ranks ts + ranks us := by
  induction ts with
  | nil => simp
  | cons t ts ih => simp only [List.cons_append, ranks_cons, ih]; omega

@[simp] theorem ranks_reverse (ts : List VerifyType) : ranks ts.reverse = ranks ts := by
  induction ts with
  | nil => rfl
  | cons t ts ih => simp only [List.reverse_cons, ranks_append, ranks_cons, ranks_nil, ih]; omega

@[simp] theorem ranks_tops (n : Nat) : ranks (List.replicate n .top) = 0 := by
  induction n with
  | zero => rfl
  | succ n ih => simp [List.replicate_succ, ih, VerifyType.rank]

theorem rank_top {t : VerifyType} (h : t.isTop = true) : t.rank = 0 := by
  cases t <;> simp_all [SlotType.isTop, VerifyType.rank]

theorem ranks_trimReversed (ts : List VerifyType) : ranks (trimReversed ts) = ranks ts := by
  fun_induction trimReversed ts with
  | case1 => rfl
  | case2 t h => simp [rank_top h]
  | case3 t h u us hw => rfl
  | case4 t h u us hw ih => simp [ih, rank_top h]
  | case5 t ts h => rfl

theorem ranks_trimLocals (ts : List VerifyType) : ranks (trimLocals ts) = ranks ts := by
  simp [trimLocals, ranks_trimReversed]

/-- Merged locals are as before, but for unusable slots at the end, or some type is lost. -/
theorem mergeLocals_ranks (as bs : List VerifyType) :
    (∃ n, mergeLocals as bs = as ++ List.replicate n .top) ∨
      ranks (mergeLocals as bs) < ranks as := by
  induction as generalizing bs with
  | nil => exact .inl ⟨bs.length, by simp [mergeLocals, List.map_const']⟩
  | cons a as ih =>
    cases bs with
    | nil =>
      have hm : mergeLocals (a :: as) [] = List.replicate (as.length + 1) .top := by
        simp [mergeLocals, List.map_const', List.replicate_succ]
      by_cases h0 : ranks (a :: as) = 0
      · left
        refine ⟨0, ?_⟩
        have hall : ∀ ts : List VerifyType, ranks ts = 0 → ts = List.replicate ts.length .top := by
          intro ts
          induction ts with
          | nil => intro _; rfl
          | cons t ts iht =>
            intro h
            simp only [ranks_cons] at h
            have ht : t = .top := by
              by_cases ht : t = .top
              · exact ht
              · have := rank_pos ht
                omega
            rw [List.length_cons, List.replicate_succ, ← iht (by omega), ht]
        rw [hm, List.replicate_zero, List.append_nil]
        simpa using (hall _ h0).symm
      · right
        rw [hm, ranks_tops]
        omega
    | cons b bs =>
      simp only [mergeLocals]
      rcases mergeTop_rank a b with he | hl
      · rw [he]
        rcases ih bs with ⟨n, hn⟩ | hr
        · exact .inl ⟨n, by rw [hn]; rfl⟩
        · right; simp only [ranks_cons]; omega
      · right
        rcases ih bs with ⟨n, hn⟩ | hr
        · rw [hn]; simp only [ranks_cons, ranks_append, ranks_tops]; omega
        · simp only [ranks_cons]; omega

theorem mergeStacks_ranks {as bs cs : List VerifyType} (h : mergeStacks as bs = some cs) :
    cs = as ∨ ranks cs < ranks as := by
  induction as generalizing bs cs with
  | nil =>
    cases bs with
    | nil => exact .inl (Option.some.inj h).symm
    | cons b bs => simp [mergeStacks] at h
  | cons a as ih =>
    cases bs with
    | nil => simp [mergeStacks] at h
    | cons b bs =>
      simp only [mergeStacks, Option.bind_eq_bind, Option.bind_eq_some_iff, Option.pure_def,
        Option.some.injEq] at h
      obtain ⟨c, hc, cs', hcs, rfl⟩ := h
      rcases mergeTypes_rank hc with rfl | hl <;> rcases ih hcs with rfl | hr
      · exact .inl rfl
      all_goals right; simp only [ranks_cons]; omega

/-- The locals after unusable slots have come up behind them. -/
def settle (ts : List VerifyType) : List VerifyType := trimLocals (ts ++ [.top])

theorem trimReversed_top_replicate (n : Nat) (ts : List VerifyType) :
    trimReversed (List.replicate (n + 1) .top ++ ts) = trimReversed (.top :: ts) := by
  induction n with
  | zero => rfl
  | succ n ih =>
    rw [List.replicate_succ, List.replicate_succ, List.cons_append, List.cons_append]
    rw [List.replicate_succ, List.cons_append] at ih
    rw [trimReversed]
    simp [SlotType.isTop, SlotType.isWide, SlotType.width, ih]

theorem trimLocals_tops (ts : List VerifyType) (n : Nat) :
    trimLocals (ts ++ List.replicate (n + 1) .top) = settle ts := by
  simp only [settle, trimLocals, List.reverse_append, List.reverse_replicate,
    trimReversed_top_replicate]
  rfl

theorem trimReversed_top_cons {t : VerifyType} (ts : List VerifyType) (h : t.isWide = false) :
    trimReversed (.top :: t :: ts) = trimReversed (t :: ts) := by
  rw [trimReversed]
  simp [SlotType.isTop, h]

theorem isTop_of_isWide {t : VerifyType} (h : t.isWide = true) : t.isTop = false := by
  cases t <;> simp_all [SlotType.isWide, SlotType.width, SlotType.isTop]

theorem trimReversed_wide {t : VerifyType} (ts : List VerifyType) (h : t.isWide = true) :
    trimReversed (t :: ts) = t :: ts := by
  unfold trimReversed
  simp [isTop_of_isWide h]

theorem trimReversed_top_wide {t : VerifyType} (ts : List VerifyType) (h : t.isWide = true) :
    trimReversed (.top :: t :: ts) = .top :: t :: ts := by
  rw [trimReversed]
  simp [SlotType.isTop, h]

/-- Trimming either changes nothing or does what it would with one more unusable slot. -/
theorem trimLocals_eq (ts : List VerifyType) : trimLocals ts = ts ∨ trimLocals ts = settle ts := by
  simp only [settle, trimLocals, List.reverse_append, List.reverse_singleton,
    List.singleton_append]
  cases hr : ts.reverse with
  | nil => exact .inl (by simpa [trimReversed] using hr.symm)
  | cons t rest =>
    cases hw : t.isWide with
    | true => exact .inl (by rw [trimReversed_wide rest hw, ← hr, List.reverse_reverse])
    | false => exact .inr (by rw [trimReversed_top_cons rest hw])

theorem trimReversed_settled (ts : List VerifyType) :
    trimReversed (.top :: trimReversed (.top :: ts)) = trimReversed (.top :: ts) := by
  induction ts with
  | nil => simp [trimReversed, SlotType.isTop]
  | cons t ts ih =>
    cases hw : t.isWide with
    | true =>
      rw [trimReversed_top_wide ts hw]
      have h1 : (SlotType.top : VerifyType).isWide = false := rfl
      rw [trimReversed_top_cons _ h1, trimReversed_top_wide ts hw]
    | false =>
      rw [trimReversed_top_cons ts hw]
      cases ht : t.isTop with
      | true =>
        have : t = .top := by cases t <;> simp_all [SlotType.isTop]
        rw [this, ih]
      | false =>
        have hs : trimReversed (t :: ts) = t :: ts := by unfold trimReversed; simp [ht]
        rw [hs, trimReversed_top_cons ts hw, hs]

theorem settle_settle (ts : List VerifyType) : settle (settle ts) = settle ts := by
  simp [settle, trimLocals, trimReversed_settled]

/-- Twice what the types can lose, and one more while unusable slots can still come up. -/
def Frame.weight (f : Frame) : Nat :=
  2 * ranks f.locals + (if settle f.locals = f.locals then 0 else 1) + ranks f.stack

theorem mergeLocals_weight (as bs : List VerifyType) :
    trimLocals (mergeLocals as bs) = as ∨
      2 * ranks (trimLocals (mergeLocals as bs)) +
          (if settle (trimLocals (mergeLocals as bs)) = trimLocals (mergeLocals as bs) then 0 else 1) <
        2 * ranks as + (if settle as = as then 0 else 1) := by
  rcases mergeLocals_ranks as bs with ⟨n, hn⟩ | hl
  · have hs : trimLocals (mergeLocals as bs) = as ∨
        trimLocals (mergeLocals as bs) = settle as := by
      rw [hn]
      cases n with
      | zero => simpa using trimLocals_eq as
      | succ n => exact .inr (trimLocals_tops as n)
    rcases hs with he | he
    · exact .inl he
    · by_cases hf : settle as = as
      · exact .inl (he.trans hf)
      · right
        rw [he, if_pos (settle_settle as), if_neg hf]
        have : ranks (settle as) = ranks as := by
          simp [settle, ranks_trimLocals, VerifyType.rank]
        omega
  · right
    rw [ranks_trimLocals]
    split <;> split <;> omega

/-- A merge leaves a frame as it was or takes weight from it. -/
theorem Frame.merge_weight {f g m : Frame} (h : f.merge g = .ok m) :
    m = f ∨ m.weight < f.weight := by
  unfold Frame.merge at h
  split at h
  next stack hs =>
    cases h
    have hloc := mergeLocals_weight f.locals g.locals
    have hst := mergeStacks_ranks hs
    unfold Frame.weight
    rcases hloc with hloc | hloc <;> rcases hst with hst | hst
    · exact .inl (by rw [hloc, hst])
    · right; simp only [hloc]; omega
    · right; simp only [hst]; omega
    · right; dsimp only; omega
  next => cases h

end ClassGraft
