import ClassGraft.Proofs.FrameOrder
import ClassGraft.Proofs.TypeFlow

namespace ClassGraft

/-- When a frame has taken in another one, for frames of some kind: merging and trimming keep the kind,
and what was taken in once stays so. -/
structure Intake where
  Fit : Frame → Prop
  Takes : Frame → Frame → Prop
  trim_fit : ∀ {f}, Fit f → Fit f.trim
  trim_takes : ∀ {f}, Fit f → Takes f.trim f
  merge_fit : ∀ {f k m}, Fit f → Fit k → f.merge k = .ok m → Fit m
  merge_takes : ∀ {f k m}, Fit f → Fit k → f.merge k = .ok m → Takes m k
  merge_keeps : ∀ {f k m x}, Fit f → Fit k → Fit x → f.merge k = .ok m → Takes f x → Takes m x

/-- A frame absorbs others where wide locals have their second half. -/
def Intake.absorption : Intake where
  Fit := Frame.Padded
  Takes := Frame.Absorbs
  trim_fit := Frame.Padded.trim
  trim_takes _ := Frame.trim_absorbs _
  merge_fit := Frame.Padded.merge
  merge_takes _ _ := Frame.merge_absorbs_right
  merge_keeps _ _ _ := Frame.merge_absorbs_old

namespace FlowState

variable {I : Intake} {b : Body} {g : FlowGraph} {s t : FlowState} {a : Arrival} {p q : Nat} {f : Frame}

/-- The frame that is kept at a position. -/
def frame? (s : FlowState) (position : Nat) : Option Frame := s.reached[position]?.getD none

/-- Has an arrival been taken in? Where a frame is given, nothing has to be. -/
def Holds (I : Intake) (b : Body) (s : FlowState) (a : Arrival) : Prop :=
  ∃ known, s.frame? a.1 = some known ∧ (b.declared? a.1 = none → I.Takes known a.2)

def Tidy (I : Intake) (b : Body) (s : FlowState) : Prop :=
  ∀ p known, s.frame? p = some known → b.declared? p = none → I.Fit known

/-- What can become of a state: nothing that was taken in is lost, and where a frame changes there is
work to do. -/
structure Grows (I : Intake) (b : Body) (s t : FlowState) : Prop where
  size : t.reached.size = s.reached.size
  tidy : t.Tidy I b
  holds : ∀ a : Arrival, I.Fit a.2 → s.Holds I b a → t.Holds I b a
  work : ∀ p ∈ s.work, p ∈ t.work
  kept : ∀ p, t.frame? p = s.frame? p ∨ p ∈ t.work

theorem Grows.refl (hs : s.Tidy I b) : s.Grows I b s :=
  ⟨rfl, hs, fun _ _ h => h, fun _ h => h, fun _ => .inl rfl⟩

theorem Grows.trans {u : FlowState} (h : s.Grows I b t) (k : t.Grows I b u) : s.Grows I b u where
  size := k.size.trans h.size
  tidy := k.tidy
  holds a ha hs := k.holds a ha (h.holds a ha hs)
  work p hp := k.work p (h.work p hp)
  kept p := by
    rcases k.kept p with hk | hk
    · rcases h.kept p with hh | hh
      · exact .inl (hk.trans hh)
      · exact .inr (k.work p hh)
    · exact .inr hk

theorem mem_enqueue (p : Nat) (ps : List Nat) (q : Nat) : q ∈ enqueue p ps ↔ q = p ∨ q ∈ ps := by
  induction ps with
  | nil => simp [enqueue]
  | cons r ps ih =>
    unfold enqueue
    split
    next => simp
    next =>
      split
      next hr => simp [hr]
      next => rw [List.mem_cons, ih, List.mem_cons, or_left_comm]

theorem frame?_put (s : FlowState) (f : Frame) (hp : p < s.reached.size) (q : Nat) :
    (s.put p f).frame? q = if p = q then some f else s.frame? q := by
  unfold frame? put
  rw [Array.getElem?_setIfInBounds]
  split
  next he => rfl
  next => rfl

theorem put_grows (hs : s.Tidy I b) (hp : p < s.reached.size) (hf : b.declared? p = none → I.Fit f)
    (hold : ∀ known, s.frame? p = some known → b.declared? p = none →
      ∀ x : Frame, I.Fit x → I.Takes known x → I.Takes f x) : s.Grows I b (s.put p f) where
  size := Array.size_setIfInBounds
  tidy q known hq hd := by
    rw [frame?_put s f hp] at hq
    split at hq
    next he => cases hq; exact hf (he ▸ hd)
    next => exact hs q known hq hd
  holds a ha hold' := by
    obtain ⟨known, hk, habs⟩ := hold'
    by_cases he : p = a.1
    · subst he
      exact ⟨f, by rw [frame?_put s f hp, if_pos rfl],
        fun hd => hold known hk hd a.2 ha (habs hd)⟩
    · exact ⟨known, by rw [frame?_put s f hp, if_neg he]; exact hk, habs⟩
  work q hq := (mem_enqueue p s.work q).mpr (.inr hq)
  kept q := by
    by_cases he : p = q
    · exact .inr ((mem_enqueue p s.work q).mpr (.inl he.symm))
    · exact .inl (by rw [frame?_put s f hp, if_neg he])

theorem arrive_grows (hs : s.Tidy I b) (ha : I.Fit a.2) (h : arrive b s a = .ok t) :
    s.Grows I b t ∧ (a.1 < s.reached.size → t.Holds I b a) := by
  obtain ⟨p, f⟩ := a
  unfold arrive at h
  dsimp only at h ha
  split at h
  next hr =>
    cases h
    refine ⟨.refl hs, fun hlt => ?_⟩
    rw [Array.getElem?_eq_getElem hlt] at hr
    cases hr
  next hr =>
    have hlt : p < s.reached.size := (Array.getElem?_eq_some_iff.mp hr).1
    have hnone : s.frame? p = none := by rw [frame?, hr]; rfl
    cases h
    refine ⟨put_grows hs hlt (fun hd => ?_) fun known hk => ?_, fun _ => ?_⟩
    · rw [hd]
      exact I.trim_fit ha
    · rw [hnone] at hk
      cases hk
    · refine ⟨_, by rw [frame?_put s _ hlt, if_pos rfl], fun hd => ?_⟩
      rw [hd]
      exact I.trim_takes ha
  next known hr =>
    have hlt : p < s.reached.size := (Array.getElem?_eq_some_iff.mp hr).1
    have hknown : s.frame? p = some known := by rw [frame?, hr]; rfl
    split at h
    next hd =>
      cases h
      refine ⟨.refl hs, fun _ => ⟨known, hknown, fun hn => ?_⟩⟩
      rw [hn] at hd
      cases hd
    next hd =>
      have hpad := hs p known hknown (by simpa using hd)
      split at h
      next => cases h
      next m hm =>
        split at h
        next he =>
          cases h
          exact ⟨.refl hs, fun _ => ⟨known, hknown, fun _ => he ▸ I.merge_takes hpad ha hm⟩⟩
        next =>
          cases h
          refine ⟨put_grows hs hlt (fun _ => I.merge_fit hpad ha hm) fun k hk _ x hx habs => ?_,
            fun _ => ⟨m, by rw [frame?_put s m hlt, if_pos rfl],
              fun _ => I.merge_takes hpad ha hm⟩⟩
          rw [hknown] at hk
          cases hk
          exact I.merge_keeps hpad ha hx hm habs

theorem arrivals_grow {as : List Arrival} (hs : s.Tidy I b) (ha : ∀ a ∈ as, I.Fit a.2)
    (h : as.foldlM (arrive b) s = .ok t) :
    s.Grows I b t ∧ ∀ a ∈ as, a.1 < s.reached.size → t.Holds I b a := by
  induction as generalizing s with
  | nil => cases h; exact ⟨.refl hs, fun a ha => absurd ha List.not_mem_nil⟩
  | cons a as ih =>
    rw [List.foldlM_cons] at h
    obtain ⟨u, hu, h⟩ := except_bind_ok.mp h
    obtain ⟨hgrow, hhold⟩ := arrive_grows hs (ha a List.mem_cons_self) hu
    obtain ⟨hgrow', hhold'⟩ := ih hgrow.tidy (fun x hx => ha x (List.mem_cons_of_mem _ hx)) h
    refine ⟨hgrow.trans hgrow', fun x hx hlt => ?_⟩
    rcases List.mem_cons.mp hx with rfl | hx
    · exact hgrow'.holds _ (ha _ List.mem_cons_self) (hhold hlt)
    · exact hhold' x hx (hgrow.size ▸ hlt)

/-- Has a head been followed from the frame that it has? -/
def Done (I : Intake) (g : FlowGraph) (s : FlowState) (head : Nat) : Prop :=
  ∀ f, (g.body.declared? head).or (s.frame? head) = some f →
    ∃ out, g.follow head head f [] = (out, none) ∧ ∀ a ∈ out, s.Holds I g.body a

/-- What inference relies on: handlers lie in the body, and the frames that are given and those that
come from frames of the kind are of that kind. -/
structure Proper (I : Intake) (g : FlowGraph) : Prop where
  handlers : ∀ h ∈ g.handlers, h.head < g.body.size
  given : ∀ p f, g.body.declared? p = some f → I.Fit f
  preserves : g.Preserves I.Fit

/-- What holds while frames are inferred. -/
structure Invariant (I : Intake) (g : FlowGraph) (s : FlowState) : Prop where
  size : s.reached.size = g.body.size
  tidy : s.Tidy I g.body
  done : ∀ p f, s.frame? p = some f → p ∈ s.work ∨ s.Done I g p

/-- Nothing is recorded at first. -/
theorem empty_frame? (n p : Nat) : frame? ⟨Array.replicate n none, []⟩ p = none := by
  unfold frame?
  rw [Array.getElem?_replicate]
  split <;> rfl

/-- Inference starts with nothing but the entry. -/
theorem start_invariant {first : Nat} (ha : I.Fit f) (hfirst : first < g.body.size)
    (h : arrive g.body ⟨Array.replicate g.body.size none, []⟩ (first, f) = .ok s) :
    s.Invariant I g ∧ s.Holds I g.body (first, f) ∧ (∀ p ∈ s.work, p = first) ∧
      (g.body.declared? first = none → s.frame? first = some f.trim) := by
  have hnone (p : Nat) := empty_frame? g.body.size p
  have hsize : first < (Array.replicate g.body.size (none : Option Frame)).size := by
    rwa [Array.size_replicate]
  obtain ⟨hgrow, hhold⟩ := arrive_grows (fun p k hk => by rw [hnone] at hk; cases hk) ha h
  have hput : s = put ⟨Array.replicate g.body.size none, []⟩ first
      (if (g.body.declared? first).isSome then f else f.trim) := by
    unfold arrive at h
    simp only [Array.getElem?_replicate, hfirst, if_true] at h
    exact (Except.ok.inj h).symm
  refine ⟨⟨hgrow.size.trans Array.size_replicate, hgrow.tidy, fun p k hk => ?_⟩, hhold hsize,
    fun p hp => ?_, fun hd => ?_⟩
  · rcases hgrow.kept p with hkept | hp
    · rw [hkept, hnone] at hk
      cases hk
    · exact .inl hp
  · rw [hput] at hp
    exact ((mem_enqueue first [] p).mp hp).resolve_right List.not_mem_nil
  · rw [hput, hd, frame?_put _ _ hsize, if_pos rfl]
    rfl

theorem Proper.arrivals (hg : Proper I g) (head : Nat) (hf : I.Fit f) :
    ∀ a ∈ (g.follow head head f []).1, a.1 < g.body.size ∧ I.Fit a.2 := by
  refine hg.preserves.follow_arrivals (fun q x _ _ hq hx => ⟨hq, hx⟩)
    (fun r br l q x _ _ hl hx => ⟨?_, hx⟩) (fun h hh x hx => ⟨hg.handlers h hh, hx⟩) hf
    (Nat.le_refl _) fun a ha => absurd ha List.not_mem_nil
  obtain ⟨n, hn, -⟩ := Body.targetPosition_instruction hl
  obtain ⟨e, he, -⟩ := Option.map_eq_some_iff.mp hn
  exact (Array.getElem?_eq_some_iff.mp he).1

theorem frame_fit (hs : s.Tidy I g.body) (hg : Proper I g)
    (hf : (g.body.declared? p).or (s.frame? p) = some f) : I.Fit f := by
  cases hd : g.body.declared? p with
  | some k =>
    rw [hd] at hf
    exact Option.some.inj hf ▸ hg.given p k hd
  | none =>
    rw [hd, Option.none_or] at hf
    exact hs p f hf hd

theorem Done.mono (hd : s.Done I g p) (hg : Proper I g) (hs : s.Tidy I g.body) (hgrow : s.Grows I g.body t)
    (hkept : t.frame? p = s.frame? p) : t.Done I g p := by
  intro f hf
  rw [hkept] at hf
  obtain ⟨out, ho, hall⟩ := hd f hf
  refine ⟨out, ho, fun a ha => hgrow.holds a ?_ (hall a ha)⟩
  have := hg.arrivals p (frame_fit hs hg hf) a
  rw [ho] at this
  exact (this ha).2

/-- Following one head keeps the invariant: the head is done unless something flows back to it. -/
theorem Invariant.follow {work : List Nat} {head : Nat} {arrivals : List Arrival} (hg : Proper I g)
    (hi : s.Invariant I g) (hw : ∀ p ∈ s.work, p = head ∨ p ∈ work)
    (hf : (g.body.declared? head).or (s.frame? head) = some f)
    (hfollow : g.follow head head f [] = (arrivals, none))
    (hpad : ∀ a ∈ arrivals, a.1 < g.body.size ∧ I.Fit a.2)
    (h : arrivals.reverse.foldlM (arrive g.body) { s with work } = .ok t) :
    t.Invariant I g ∧ ({ s with work } : FlowState).Grows I g.body t := by
  obtain ⟨hgrow, hhold⟩ := arrivals_grow (s := { s with work }) hi.tidy
    (fun a ha => (hpad a (List.mem_reverse.mp ha)).2) h
  refine ⟨⟨hgrow.size.trans hi.size, hgrow.tidy, fun p k hk => ?_⟩, hgrow⟩
  rcases hgrow.kept p with hkept | hp
  · have hk' : s.frame? p = some k := hkept ▸ hk
    by_cases hph : p = head
    · subst hph
      right
      intro f' hf'
      rw [hkept] at hf'
      cases Option.some.inj (hf.symm.trans hf')
      exact ⟨arrivals, hfollow, fun a ha =>
        hhold a (List.mem_reverse.mpr ha) (by rw [hi.size]; exact (hpad a ha).1)⟩
    · rcases hi.done p k hk' with hp | hd
      · exact .inl (hgrow.work p ((hw p hp).resolve_left hph))
      · exact .inr (Done.mono (s := { s with work }) hd hg hi.tidy hgrow hkept)
  · exact .inl hp

theorem Invariant.drop {work : List Nat} {head : Nat} (hi : s.Invariant I g)
    (hw : ∀ p ∈ s.work, p = head ∨ p ∈ work)
    (hn : (g.body.declared? head).or (s.frame? head) = none) :
    ({ s with work } : FlowState).Invariant I g := by
  refine ⟨hi.size, hi.tidy, fun p f hf => ?_⟩
  rcases hi.done p f hf with hp | hd
  · rcases hw p hp with rfl | hp
    · rw [show s.frame? p = some f from hf] at hn
      simp at hn
    · exact .inl hp
  · exact .inr hd

/-- Heads are followed in any order until none is left. -/
inductive Visits (g : FlowGraph) : FlowState → FlowState → Prop
  | done {s : FlowState} : s.work = [] → Visits g s s
  | skip {s t : FlowState} {head : Nat} : head ∈ s.work →
      (g.body.declared? head).or (s.frame? head) = none →
      Visits g { s with work := s.work.erase head } t → Visits g s t
  | follow {s s' t : FlowState} {head : Nat} {f : Frame} {out : List Arrival} : head ∈ s.work →
      (g.body.declared? head).or (s.frame? head) = some f → g.follow head head f [] = (out, none) →
      out.reverse.foldlM (arrive g.body) { s with work := s.work.erase head } = .ok s' →
      Visits g s' t → Visits g s t

/-- Inference takes the lowest head each time. -/
theorem run_visits (h : s.run g = .ok t) : s.Visits g t := by
  fun_induction run g s with
  | case1 s hw => cases h; exact .done hw
  | case2 s head work hw _ hn ih =>
    refine .skip (by rw [hw]; exact List.mem_cons_self) hn ?_
    rw [hw, List.erase_cons_head]
    exact ih h
  | case3 => cases h
  | case4 => cases h
  | case5 s head work hw _ f hf arrivals s' harr _ hfollow ih =>
    refine .follow (by rw [hw]; exact List.mem_cons_self) hf hfollow ?_ (ih h)
    rw [hw, List.erase_cons_head]
    exact harr

/-- In the end all heads that were reached are done, and nothing that was taken in is lost. -/
theorem Visits.settles (hg : Proper I g) (hi : s.Invariant I g) (h : s.Visits g t) :
    t.Invariant I g ∧ t.work = [] ∧
      ∀ a : Arrival, I.Fit a.2 → s.Holds I g.body a → t.Holds I g.body a := by
  have herase {s : FlowState} {head p : Nat} (hp : p ∈ s.work) : p = head ∨ p ∈ s.work.erase head :=
    or_iff_not_imp_left.mpr fun hne => (List.mem_erase_of_ne hne).mpr hp
  induction h with
  | done hw => exact ⟨hi, hw, fun _ _ h => h⟩
  | skip _ hn _ ih => exact ih (hi.drop (fun _ => herase) hn)
  | @follow s s' t head f out _ hf hfollow harr _ ih =>
    have hpad := hg.arrivals head (frame_fit hi.tidy hg hf)
    rw [hfollow] at hpad
    obtain ⟨hi', hgrow⟩ := hi.follow hg (fun _ => herase) hf hfollow hpad harr
    obtain ⟨ht, hwork, hhold⟩ := ih hi'
    exact ⟨ht, hwork, fun a ha hs => hhold a ha (hgrow.holds a ha hs)⟩

/-- An arrival changes nothing or puts a frame at its position: its own at first, trimmed where no frame
is given, and then another one merged with it. -/
theorem arrive_put (h : arrive b s a = .ok t) :
    t = s ∨ ∃ f, a.1 < s.reached.size ∧ t = s.put a.1 f ∧
      (s.frame? a.1 = none ∧ f = (if (b.declared? a.1).isSome then a.2 else a.2.trim) ∨
        ∃ known, s.frame? a.1 = some known ∧ b.declared? a.1 = none ∧ known.merge a.2 = .ok f ∧
          f ≠ known) := by
  unfold arrive at h
  dsimp only at h
  split at h
  next => exact .inl (Except.ok.inj h).symm
  next hr =>
    exact .inr ⟨_, (Array.getElem?_eq_some_iff.mp hr).1, (Except.ok.inj h).symm,
      .inl ⟨by rw [frame?, hr]; rfl, rfl⟩⟩
  next known hr =>
    have hknown : s.frame? a.1 = some known := by rw [frame?, hr]; rfl
    split at h
    next => exact .inl (Except.ok.inj h).symm
    next hd =>
      split at h
      next => cases h
      next m hm =>
        split at h
        next => exact .inl (Except.ok.inj h).symm
        next hne =>
          exact .inr ⟨m, (Array.getElem?_eq_some_iff.mp hr).1, (Except.ok.inj h).symm,
            .inr ⟨known, hknown, Option.not_isSome_iff_eq_none.mp hd, hm, hne⟩⟩

theorem arrivals_keep {as : List Arrival} (hs : ∀ p ∈ s.work, q ≤ p) (ha : ∀ a ∈ as, q < a.1)
    (h : as.foldlM (arrive b) s = .ok t) : t.frame? q = s.frame? q ∧ ∀ p ∈ t.work, q ≤ p := by
  induction as generalizing s with
  | nil => cases h; exact ⟨rfl, hs⟩
  | cons a as ih =>
    rw [List.foldlM_cons] at h
    obtain ⟨u, hu, h⟩ := except_bind_ok.mp h
    have hlt := ha a List.mem_cons_self
    have hu' : u.frame? q = s.frame? q ∧ ∀ p ∈ u.work, q ≤ p := by
      rcases arrive_put hu with rfl | ⟨f, hsize, rfl, -⟩
      · exact ⟨rfl, hs⟩
      · refine ⟨by rw [frame?_put s f hsize, if_neg (by omega)], fun p hp => ?_⟩
        rcases (mem_enqueue a.1 s.work p).mp hp with rfl | hp
        · omega
        · exact hs p hp
    obtain ⟨hf, hw⟩ := ih hu'.2 (fun x hx => ha x (List.mem_cons_of_mem _ hx)) h
    exact ⟨hf.trans hu'.1, hw⟩

/-- The first head keeps its frame where neither jumps nor exceptions go there. -/
theorem run_keeps (hg : Proper I g) (hi : s.Invariant I g) (h : s.run g = .ok t)
    (hwork : ∀ p ∈ s.work, q ≤ p)
    (hjumps : ∀ p br l r, g.body.get? p = some (.branch br) → l ∈ br.targets →
      g.body.targetPosition l = .ok r → q < r)
    (hthrows : ∀ x ∈ g.handlers, q < x.head) : t.frame? q = s.frame? q := by
  fun_induction run g s with
  | case1 s hw => cases h; rfl
  | case2 s head work hw _ hn ih =>
    exact ih (hi.drop (by simp [hw]) hn) h fun p hp =>
      hwork p (by rw [hw]; exact List.mem_cons_of_mem _ hp)
  | case3 => cases h
  | case4 => cases h
  | case5 s head work hw _ f hf arrivals s' harr _ hfollow ih =>
    have hhead : q ≤ head := hwork head (by rw [hw]; exact List.mem_cons_self)
    have hpad := frame_fit hi.tidy hg hf
    have hlater : ∀ a ∈ arrivals, q < a.1 := by
      have := hg.preserves.follow_arrivals (P := fun a => q < a.1)
        (fun r x hne hle _ _ => show q < r by omega)
        (fun p br l r x hn hl hr _ => hjumps p br l r hn hl hr) (fun x hx _ _ => hthrows x hx)
        hpad (Nat.le_refl head) (fun a ha => absurd ha List.not_mem_nil)
      rwa [hfollow] at this
    obtain ⟨hkept, hwork'⟩ := arrivals_keep (s := { s with work })
      (fun p hp => hwork p (by rw [hw]; exact List.mem_cons_of_mem _ hp))
      (fun a ha => hlater a (List.mem_reverse.mp ha)) harr
    have hall := hg.arrivals head hpad
    rw [hfollow] at hall
    obtain ⟨hi', -⟩ := hi.follow hg (by simp [hw]) hf hfollow hall harr
    exact (ih hi' h hwork').trans hkept

/-- What all of inference keeps of the frames at their positions. -/
structure Keeps (g : FlowGraph) (K : Nat → Frame → Prop) : Prop where
  trim : ∀ p f, K p f → K p f.trim
  merge : ∀ p f k m, Frame.merge f k = .ok m → K p f → K p k → K p m
  declared : ∀ p f, g.body.declared? p = some f → K p f
  follow : ∀ p f, K p f → ∀ a ∈ (g.follow p p f []).1, K a.1 a.2

section Kept

variable {K : Nat → Frame → Prop}

theorem Keeps.arrivals {as : List Arrival} (hk : Keeps g K) (hs : ∀ p f, s.frame? p = some f → K p f)
    (ha : ∀ a ∈ as, K a.1 a.2) (h : as.foldlM (arrive b) s = .ok t) :
    ∀ p f, t.frame? p = some f → K p f := by
  induction as generalizing s with
  | nil => cases h; exact hs
  | cons a as ih =>
    rw [List.foldlM_cons] at h
    obtain ⟨u, hu, h⟩ := except_bind_ok.mp h
    obtain ⟨ha, has⟩ := List.forall_mem_cons.mp ha
    refine ih (fun p f hf => ?_) has h
    rcases arrive_put hu with rfl | ⟨k, hsize, rfl, hk'⟩
    · exact hs p f hf
    · rw [frame?_put s k hsize] at hf
      split at hf
      next he =>
        cases hf
        cases he
        rcases hk' with ⟨-, rfl⟩ | ⟨known, hknown, -, hm, -⟩
        · split
          · exact ha
          · exact hk.trim _ _ ha
        · exact hk.merge _ known a.2 _ hm (hs _ known hknown) ha
      next => exact hs p f hf

/-- What inference ends with has the property if what it starts with has it. -/
theorem Keeps.run (hk : Keeps g K) (hs : ∀ p f, s.frame? p = some f → K p f)
    (h : s.run g = .ok t) : ∀ p f, t.frame? p = some f → K p f := by
  fun_induction FlowState.run g s with
  | case1 s hw => cases h; exact hs
  | case2 s head work hw _ hn ih => exact ih hs h
  | case3 => cases h
  | case4 => cases h
  | case5 s head work hw _ f hf arrivals s' harr _ hfollow ih =>
    have hfk : K head f := by
      cases hd : g.body.declared? head with
      | some k =>
        rw [hd, Option.some_or] at hf
        exact hk.declared head f (hd.trans hf)
      | none =>
        rw [hd, Option.none_or] at hf
        exact hs head f hf
    have hall := hk.follow head f hfk
    rw [hfollow] at hall
    exact ih (hk.arrivals (s := { s with work }) hs (fun a ha => hall a (List.mem_reverse.mp ha)) harr) h

/-- A property that does not depend on positions is kept if single steps preserve it. -/
theorem keeps_of_preserves {K : Frame → Prop} (hk : g.Preserves K) (htrim : ∀ f, K f → K f.trim)
    (hmerge : ∀ f k m, Frame.merge f k = .ok m → K f → K k → K m)
    (hdeclared : ∀ p f, g.body.declared? p = some f → K f) : Keeps g fun _ => K where
  trim _ f hf := htrim f hf
  merge _ f k m hm hf hk := hmerge f k m hm hf hk
  declared := hdeclared
  follow p _ hf := hk.follow_arrivals (P := fun a => K a.2) (fun _ _ _ _ _ hf => hf)
    (fun _ _ _ _ _ _ _ _ hf => hf) (fun _ _ _ hf => hf) hf (Nat.le_refl p)
    fun _ ha => absurd ha List.not_mem_nil

end Kept

end FlowState

end ClassGraft
