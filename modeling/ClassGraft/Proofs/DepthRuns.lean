import ClassGraft.Proofs.DepthStates

namespace ClassGraft

namespace Body

open DepthState

variable {b : Body} {parameters : Nat}

/-- Where all labels are placed, only paths that do not agree make a computation of depths fail. -/
def Settles {α : Type} (b : Body) (Q : α → Prop) : Except ClassError α → Prop
  | .ok a => Q a
  | .error _ => b.Complete → ¬b.Balanced

theorem Decides.settles {α : Type} {Q : α → Prop} {x : Except ClassError α} (hx : Decides b Q x) :
    Settles b Q x := by
  cases x with
  | error e => exact fun hc => hx hc.closed
  | ok a => exact hx

theorem placed_targets {br : Branch Label} {ts : List Nat}
    (h : br.targets.mapM b.labelPosition = .ok ts) :
    ∀ br', Node.branch br = .branch br' → ∀ l ∈ br'.targets, ∃ r, b.labelPosition? l = some r := by
  rintro br' he l hl
  cases he
  obtain ⟨r, hr⟩ := mapM_ok_each h l hl
  exact ⟨r, labelPosition_ok.mp hr⟩

theorem mapM_labelPosition_error {ls : List Label} {e : ClassError}
    (h : ls.mapM b.labelPosition = .error e) : ∃ l ∈ ls, b.labelPosition? l = none := by
  induction ls with
  | nil => cases h
  | cons l ls ih =>
    rw [List.mapM_cons] at h
    cases hl : b.labelPosition? l with
    | none => exact ⟨l, List.mem_cons_self .., hl⟩
    | some p =>
      rw [labelPosition_ok.mpr hl] at h
      cases hm : ls.mapM b.labelPosition with
      | error e' =>
        simp only [bind, Except.bind, hm] at h
        obtain ⟨k, hk, hn⟩ := ih (hm.trans h)
        exact ⟨k, List.mem_cons_of_mem _ hk, hn⟩
      | ok ps => simp only [bind, Except.bind, hm] at h; cases h

/-- Straight flow keeps the invariant: each node that it comes to is taken from the work, and what
follows the node is put there. -/
theorem flowFrom_decides {position depth : Nat} {s : DepthState}
    (hi : Invariant b parameters (s.enter position depth)) :
    Decides b (fun s' => Invariant b parameters s' ∧ (s.enter position depth).Grows s')
      (b.flowFrom position depth s) := by
  fun_induction flowFrom b position depth s
  case case1 position s known id n he hk =>
    exact hi.leave hk
  case case2 position depth s known id n he hk hne =>
    intro _ hb
    have hr := hi.reached position depth (.inr (List.mem_cons_self ..))
    exact hne ((hb position depth hr).2.1 known (hi.reached position known (.inl hk)))
  case case3 position depth s id n he hk hlt =>
    intro _ hb
    have hr := hi.reached position depth (.inr (List.mem_cons_self ..))
    have := (hb position depth hr).2.2 n (get?_of_entry he)
    omega
  case case4 position depth s id hk br _ e hm he hfit =>
    intro hc
    have hr := hi.reached position depth (.inr (List.mem_cons_self ..))
    obtain ⟨l, hl, hn⟩ := mapM_labelPosition_error hm
    obtain ⟨q, hq⟩ := hc.targets position depth br hr (get?_of_entry he) l hl
    cases hn.symm.trans hq
  case case5 position depth s id hk br _ targets hm hcall he hfit after s1 s2 ih =>
    have hn := get?_of_entry he
    let out := (position + 1, depth) :: (targets.map fun t => (t, after)).reverse
    have hv := hi.visit out hk hn (by omega) (placed_targets hm) (by
      intro q e
      rw [flow_branch hn, List.mem_cons, mem_jumps, mapM_labelPosition hm, Prod.mk.injEq]
      simp only [hcall, true_and, Bool.true_eq_false, false_and, or_false]
      exact Or.comm)
    exact (ih hv).imp fun s' h =>
      ⟨h.1, fun q d hq => h.2 q d (covers_visit (.branch br) out hk hq)⟩
  case case6 position depth s id hk br _ targets hm hcall hf he hfit after s1 s2 ih =>
    have hn := get?_of_entry he
    let out := (position + 1, after) :: (targets.map fun t => (t, after)).reverse
    have hv := hi.visit out hk hn (by omega) (placed_targets hm) (by
      intro q e
      rw [flow_branch hn, List.mem_cons, mem_jumps, mapM_labelPosition hm, Prod.mk.injEq]
      simp only [hcall, hf, Bool.false_eq_true, false_and, false_or, true_and]
      exact Or.comm)
    exact (ih hv).imp fun s' h =>
      ⟨h.1, fun q d hq => h.2 q d (covers_visit (.branch br) out hk hq)⟩
  case case7 position depth s id hk br _ targets hm hcall hf he hfit after s1 s2 =>
    have hn := get?_of_entry he
    let out := (targets.map fun t => (t, after)).reverse
    have hv := hi.visit out hk hn (by omega) (placed_targets hm) (by
      intro q e
      rw [flow_branch hn, mem_jumps, mapM_labelPosition hm]
      simp only [hcall, hf, Bool.false_eq_true, false_and, and_false, or_false]
      exact Iff.rfl)
    exact ⟨hv, fun q d hq => covers_visit (.branch br) out hk hq⟩
  case case8 position depth s id n _ hk hfit after s1 he hb ih =>
    have hn := get?_of_entry he
    have hbr : n.branch? = none := by
      cases n with
      | branch br => exact (hb br he rfl HEq.rfl).elim
      | _ => rfl
    have hv := hi.visit [(position + 1, after)] hk hn (by omega) (fun br h => by rw [h] at hbr; cases hbr) (by
      intro q e
      rw [flow_plain hn hbr, List.mem_singleton, Prod.mk.injEq]
      exact Iff.rfl)
    exact (ih hv).imp fun s' h =>
      ⟨h.1, fun q d hq => h.2 q d (covers_visit n [(position + 1, after)] hk hq)⟩
  case case9 position depth s hk hu =>
    intro _ hb
    have hr := hi.reached position depth (.inr (List.mem_cons_self ..))
    have hlt := (hb position depth hr).1
    have hlt' : position < s.depths.size := Nat.lt_of_lt_of_eq hlt hi.size.symm
    have he : b.entries[position]? = some b.entries[position] := Array.getElem?_eq_getElem hlt
    cases hd : s.depths[position] with
    | none => exact hu _ _ (hd ▸ Array.getElem?_eq_getElem hlt') he
    | some known => exact hk _ _ _ (hd ▸ Array.getElem?_eq_getElem hlt') he

theorem drain_decides {s : DepthState} (hi : Invariant b parameters s) :
    Decides b (fun s' => Invariant b parameters s' ∧ s'.work = [] ∧ s.Grows s') (b.drain s) := by
  fun_induction drain b s
  case case1 s hw => exact ⟨hi, hw, fun q d hq => hq⟩
  case case2 s position depth work hw e he =>
    have hs : DepthState.enter { s with work } position depth = s := by
      unfold DepthState.enter
      rw [← hw]
    have hf := flowFrom_decides (hs.symm ▸ hi)
    rw [he] at hf
    exact hf
  case case3 s position depth work hw t ht _ _ ih =>
    have hs : DepthState.enter { s with work } position depth = s := by
      unfold DepthState.enter
      rw [← hw]
    have hf := flowFrom_decides (hs.symm ▸ hi)
    rw [ht, hs] at hf
    obtain ⟨hi', hg⟩ := hf
    exact (ih hi').imp fun s' ⟨hi'', hw', hg'⟩ => ⟨hi'', hw', fun q d hq => hg' q d (hg q d hq)⟩

theorem coversVisited_iff {s : DepthState} {t : TryBlock} {start stop : Nat}
    (hs : b.labelPosition? t.start = some start) (he : b.labelPosition? t.stop = some stop) :
    b.coversVisited s start stop = true ↔
      ∃ p d, s.depths[p]? = some (some d) ∧ b.Protects t p := by
  unfold coversVisited
  rw [List.any_eq_true]
  constructor
  · rintro ⟨p, hp, hv⟩
    split at hv
    next n d hn hd =>
      obtain ⟨hl, hr⟩ := List.mem_range'_1.mp hp
      exact ⟨p, d, hd, start, stop, n, hs, he, hl, by omega, hn, by simpa using hv⟩
    next => cases hv
  · rintro ⟨p, d, hd, start', stop', n, hs', he', hl, hr, hn, hp⟩
    cases Option.some.inj (hs.symm.trans hs')
    cases Option.some.inj (he.symm.trans he')
    exact ⟨p, List.mem_range'_1.mpr ⟨hl, by omega⟩, by simp [hn, hd, hp]⟩

/-- The handler of a block is known or left to do. -/
def Seeded (b : Body) (s : DepthState) (t : TryBlock) : Prop :=
  b.Bounded t ∧ ∃ h, b.labelPosition? t.handler = some h ∧ s.Covers h 1

theorem decides_labelPosition {l : Label} (hl : b.Closed → ∃ p, b.labelPosition? l = some p) :
    Decides b (fun p => b.labelPosition? l = some p) (b.labelPosition l) := by
  cases h : b.labelPosition l with
  | ok p => exact labelPosition_ok.mp h
  | error e =>
    intro hc
    obtain ⟨p, hp⟩ := hl hc
    cases h.symm.trans (labelPosition_ok.mpr hp)

/-- A state in which a handler is entered because an instruction in its range is known. -/
theorem enter_handler_invariant {s : DepthState} (hi : Invariant b parameters s) {t : TryBlock}
    (ht : t ∈ b.tryBlocks) {p d handler : Nat} (hd : s.depths[p]? = some (some d))
    (hp : b.Protects t p) (hh : b.labelPosition? t.handler = some handler) :
    Invariant b parameters (s.enter handler 1) ∧ s.Grows (s.enter handler 1) := by
  have hg : s.Grows (s.enter handler 1) := fun q d hq => hq.imp_right (List.mem_cons_of_mem _)
  refine ⟨⟨hi.size, ?_, hi.fits, fun q d q' d' hq hf => hg q' d' (hi.flows q d q' d' hq hf),
    hi.placed, hi.stackBound, hi.stackMet, hi.localsBound, hi.localsMet⟩, hg⟩
  rintro q d (hq | hq)
  · exact hi.reached q d (.inl hq)
  · rcases List.mem_cons.mp hq with hq | hq
    · obtain ⟨rfl, rfl⟩ := Prod.mk.inj hq
      exact (hi.reached p _ (.inl hd)).handle ht hp hh
    · exact hi.reached q d (.inr hq)

/-- What entering handlers leaves: blocks still wait only when no instruction in their range is known,
and the state has changed only if fewer of them wait. -/
structure Entered (b : Body) (parameters : Nat) (ts : List TryBlock) (s : DepthState)
    (r : List TryBlock × DepthState) : Prop where
  invariant : Invariant b parameters r.2
  grows : s.Grows r.2
  seeded : ∀ t ∈ ts, t ∈ r.1 ∨ Seeded b r.2 t
  waiting : ∀ t ∈ r.1, t ∈ ts ∧ ∀ p d, s.depths[p]? = some (some d) → ¬b.Protects t p
  bounded : ∀ t ∈ ts, b.Bounded t
  fewer : r.1.length < ts.length ∨ r.1.length = ts.length ∧ r.2 = s

theorem enterHandlers_decides {ts : List TryBlock} {s : DepthState}
    (hi : Invariant b parameters s) (hts : ∀ t ∈ ts, t ∈ b.tryBlocks) :
    Decides b (Entered b parameters ts s) (b.enterHandlers ts s) := by
  induction ts generalizing s with
  | nil => exact ⟨hi, fun q d hq => hq, by simp, by simp, by simp, .inr ⟨rfl, rfl⟩⟩
  | cons t ts ih =>
    have ht := hts t (List.mem_cons_self ..)
    have hts' : ∀ u ∈ ts, u ∈ b.tryBlocks := fun u hu => hts u (List.mem_cons_of_mem _ hu)
    unfold enterHandlers
    have hstart (hc : b.Closed) : ∃ p, b.labelPosition? t.start = some p :=
      let ⟨start, _, hs, _⟩ := hc.bounds t ht
      ⟨start, hs⟩
    have hstop (hc : b.Closed) : ∃ p, b.labelPosition? t.stop = some p :=
      let ⟨_, stop, _, he⟩ := hc.bounds t ht
      ⟨stop, he⟩
    refine (decides_labelPosition hstart).bind fun start hs => ?_
    refine (decides_labelPosition hstop).bind fun stop he => ?_
    have hcv := coversVisited_iff (s := s) hs he
    have hbound : b.Bounded t := ⟨start, stop, hs, he⟩
    split
    next hv =>
      obtain ⟨p, d, hd, hp⟩ := hcv.mp hv
      refine (decides_labelPosition fun hc =>
        hc.handlers t ht p d (hi.reached p d (.inl hd)) hp).bind fun handler hh => ?_
      obtain ⟨hi', hg⟩ := enter_handler_invariant hi ht hd hp hh
      refine (ih hi' hts').imp ?_
      rintro ⟨rest, s'⟩ ⟨hi'', hg', hseed, hrest, hbounds, hlen⟩
      refine ⟨hi'', fun q d hq => hg' q d (hg q d hq), ?_, ?_,
        List.forall_mem_cons.mpr ⟨hbound, hbounds⟩, ?_⟩
      · intro u hu
        rcases List.mem_cons.mp hu with rfl | hu
        · exact .inr ⟨hbound, handler, hh, hg' _ _ (.inr (List.mem_cons_self ..))⟩
        · exact hseed u hu
      · exact fun u hu => ⟨List.mem_cons_of_mem _ (hrest u hu).1, (hrest u hu).2⟩
      · left
        simp only [List.length_cons] at hlen ⊢
        omega
    next hv =>
      refine Decides.bind (ih hi hts') ?_
      rintro ⟨rest, s'⟩ ⟨hi', hg, hseed, hrest, hbounds, hlen⟩
      refine ⟨hi', hg, ?_, ?_, List.forall_mem_cons.mpr ⟨hbound, hbounds⟩, ?_⟩
      · intro u hu
        rcases List.mem_cons.mp hu with rfl | hu
        · exact .inl (List.mem_cons_self ..)
        · exact (hseed u hu).imp_left (List.mem_cons_of_mem _)
      · intro u hu
        rcases List.mem_cons.mp hu with rfl | hu
        · exact ⟨List.mem_cons_self .., fun p d hd hp => hv (hcv.mpr ⟨p, d, hd, hp⟩)⟩
        · exact ⟨List.mem_cons_of_mem _ (hrest u hu).1, (hrest u hu).2⟩
      · simpa using hlen

/-- The invariant of a state in which nothing is left to do, handlers included. -/
structure Settled (b : Body) (parameters : Nat) (s : DepthState) : Prop where
  invariant : Invariant b parameters s
  idle : s.work = []
  handlers : ∀ t ∈ b.tryBlocks, Seeded b s t ∨ ∀ p d, s.depths[p]? = some (some d) → ¬b.Protects t p
  bounded : ∀ t ∈ b.tryBlocks, b.Bounded t

theorem settleDepths_decides {pending : List TryBlock} {s : DepthState}
    (hi : Invariant b parameters s) (hp : ∀ t ∈ pending, t ∈ b.tryBlocks)
    (hseed : ∀ t ∈ b.tryBlocks, t ∈ pending ∨ Seeded b s t) :
    Decides b (fun s' => Settled b parameters s' ∧ s.Grows s') (b.settleDepths pending s) := by
  rw [settleDepths]
  refine (drain_decides hi).bind fun s1 ⟨hi1, hw1, hg1⟩ => ?_
  refine (enterHandlers_decides hi1 hp).bind fun ⟨rest, s2⟩ ⟨hi2, hg2, hseed2, hrest, hbound, hlen⟩ => ?_
  have hg : s.Grows s2 := fun q d hq => hg2 q d (hg1 q d hq)
  have hall : ∀ t ∈ b.tryBlocks, t ∈ rest ∨ Seeded b s2 t := by
    intro t ht
    rcases hseed t ht with h | ⟨hb, h, hh, hcov⟩
    · exact hseed2 t h
    · exact .inr ⟨hb, h, hh, hg h 1 hcov⟩
  dsimp only at hlen ⊢
  split
  next hlt =>
    exact (settleDepths_decides hi2 (fun t ht => hp t (hrest t ht).1) hall).imp
      fun s' ⟨hs', hg'⟩ => ⟨hs', fun q d hq => hg' q d (hg q d hq)⟩
  next hlt =>
    obtain ⟨-, rfl⟩ : rest.length = pending.length ∧ s2 = s1 := hlen.resolve_left hlt
    exact ⟨⟨hi2, hw1, fun t ht => (hall t ht).symm.imp_right fun h => (hrest t h).2,
      fun t ht => (hseed t ht).elim (hbound t) fun h => h.1⟩, hg⟩
termination_by pending.length

theorem settleDepths_settles {pending : List TryBlock} {s : DepthState}
    (hi : Invariant b parameters s) (hp : ∀ t ∈ pending, t ∈ b.tryBlocks)
    (hseed : ∀ t ∈ b.tryBlocks, t ∈ pending ∨ Seeded b s t) :
    Settles b (fun s' => Settled b parameters s' ∧ s.Grows s') (b.settleDepths pending s) :=
  (settleDepths_decides hi hp hseed).settles

/-- In a settled state all that is reached is known. -/
theorem Settled.known_iff {s : DepthState} (hs : Settled b parameters s) (h0 : s.Covers 0 0)
    (q d : Nat) : s.depths[q]? = some (some d) ↔ b.Reaches q d := by
  have hk : ∀ q d, s.Covers q d → s.depths[q]? = some (some d) := by
    rintro q d (h | h)
    · exact h
    · rw [hs.idle] at h
      cases h
  constructor
  · exact fun h => hs.invariant.reached q d (.inl h)
  · intro h
    induction h with
    | start => exact hk 0 0 h0
    | flow _ hf ih => exact hk _ _ (hs.invariant.flows _ _ _ _ ih hf)
    | @handle p d h t _ ht hp hh ih =>
      rcases hs.handlers t ht with ⟨-, h', hh', hcov⟩ | hn
      · cases Option.some.inj (hh.symm.trans hh')
        exact hk h 1 hcov
      · exact (hn p d ih hp).elim

end Body

end ClassGraft
