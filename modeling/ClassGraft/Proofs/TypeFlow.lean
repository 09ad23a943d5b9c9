import ClassGraft.Proofs.FrameMerging
import ClassGraft.Proofs.NodeLookup

namespace ClassGraft

namespace Body

/-- Is there an instruction at a position that is run when flow comes from a head? -/
structure Runs (b : Body) (isHead : Nat → Prop) (head position : Nat) (n : Node) : Prop where
  node : b.get? position = some n
  real : n.isPseudo = false
  within : position = head ∨ ¬ isHead position

/-- The positions that are passed on the way from a head up to the next one, with the frames there. -/
inductive Passes (b : Body) (c : BinaryName) (isHead : Nat → Prop) (head : Nat) (start : Frame) :
    Nat → Frame → Prop
  | start : Passes b c isHead head start head start
  | pseudo {p : Nat} {f : Frame} {n : Node} : Passes b c isHead head start p f →
      b.get? p = some n → n.isPseudo = true → Passes b c isHead head start (p + 1) f
  | insn {p : Nat} {f f' : Frame} {i : Instruction} : Passes b c isHead head start p f →
      b.Runs isHead head p (.insn i) → f.step c (b.site? p) i = .ok f' →
      Passes b c isHead head start (p + 1) f'
  | branch {p : Nat} {f f' : Frame} {br : Branch Label} : Passes b c isHead head start p f →
      b.Runs isHead head p (.branch br) → f.branch br = .ok f' → br.fallsThrough = true →
      Passes b c isHead head start (p + 1) f'

/-- What flows out on the way from a head: into the next head, into jump targets and into handlers. -/
inductive Sends (b : Body) (c : BinaryName) (isHead : Nat → Prop) (head : Nat) (start : Frame) :
    Nat → Frame → Prop
  | falls {p : Nat} {f : Frame} {n : Node} : b.Passes c isHead head start p f →
      b.get? p = some n → n.isPseudo = false → p ≠ head → isHead p →
      Sends b c isHead head start p f
  | jumps {p q : Nat} {f f' : Frame} {br : Branch Label} {l : Label} :
      b.Passes c isHead head start p f → b.Runs isHead head p (.branch br) →
      f.branch br = .ok f' → l ∈ br.targets → b.targetPosition l = .ok q →
      Sends b c isHead head start q f'
  | throws {p : Nat} {f : Frame} {n : Node} {t : TryBlock} {h : Handler} :
      b.Passes c isHead head start p f → b.Runs isHead head p n → t ∈ b.tryBlocks →
      b.handler t = .ok h → h.start ≤ p → p < h.stop →
      Sends b c isHead head start h.head ⟨f.locals, [h.caught]⟩

/-- Everything that is run on the way from a head accepts its frame, and the way stays in the body. -/
structure Checks (b : Body) (c : BinaryName) (isHead : Nat → Prop) (head : Nat) (start : Frame) :
    Prop where
  inside : ∀ p f, b.Passes c isHead head start p f → p < b.size
  steps : ∀ p f i, b.Passes c isHead head start p f → b.Runs isHead head p (.insn i) →
    ∃ f', f.step c (b.site? p) i = .ok f'
  branches : ∀ p f br, b.Passes c isHead head start p f → b.Runs isHead head p (.branch br) →
    (∃ f', f.branch br = .ok f') ∧ ∀ l ∈ br.targets, ∃ q, b.targetPosition l = .ok q

variable {b : Body} {c : BinaryName} {isHead : Nat → Prop} {head p q : Nat} {start f : Frame}

theorem Passes.le (h : b.Passes c isHead head start p f) : head ≤ p := by
  induction h with
  | start => exact Nat.le_refl head
  | pseudo _ _ _ ih => exact Nat.le_succ_of_le ih
  | insn _ _ _ ih => exact Nat.le_succ_of_le ih
  | branch _ _ _ _ ih => exact Nat.le_succ_of_le ih

theorem Sends.instruction (h : b.Sends c isHead head start q f) :
    ∃ n, b.get? q = some n ∧ n.isPseudo = false := by
  cases h with
  | falls _ hn hr => exact ⟨_, hn, hr⟩
  | jumps _ _ _ _ ht => exact targetPosition_instruction ht
  | throws _ _ _ hh => exact targetPosition_instruction (handler_ok.mp hh).1

end Body

theorem Frame.step_site {f : Frame} {c : BinaryName} {i : Instruction} (site : Option Label) :
    f.step c (if (Node.insn i).isNew then site else none) i = f.step c site i := by
  cases i <;> rfl

namespace FlowGraph

variable {g : FlowGraph} {head p q : Nat} {start f : Frame} {seen out : List Arrival}

theorem follow_cases (g : FlowGraph) (head p : Nat) (f : Frame) (seen : List Arrival) :
    g.follow head p f seen =
      match g.body.get? p with
      | none => (seen, some (.flow .fallsOffEnd))
      | some n =>
        if n.isPseudo then g.follow head (p + 1) f seen
        else if p ≠ head && g.isHead p then ((p, f) :: seen, none)
        else
          let seen := (g.thrown p f).reverse ++ seen
          match n with
          | .insn i =>
            match f.step g.thisClass (g.body.site? p) i with
            | .error e => (seen, some (.unverifiable (.node n) e))
            | .ok f => g.follow head (p + 1) f seen
          | .branch br =>
            match f.branch br, br.targets.mapM g.body.targetPosition with
            | .error e, _ => (seen, some (.unverifiable (.node n) e))
            | .ok _, .error e => (seen, some e)
            | .ok f, .ok targets =>
              let seen := (targets.map fun t => (t, f)).reverse ++ seen
              if br.fallsThrough then g.follow head (p + 1) f seen else (seen, none)
          | _ => g.follow head (p + 1) f seen := by
  rw [follow]
  unfold Body.get?
  split
  next he => rw [he]; rfl
  next id n he =>
    have hg : (g.body.entries[p]?).map Prod.snd = some n := by rw [he]; rfl
    rw [hg]
    cases n with
    | insn i => cases i <;> rfl
    | _ => rfl

theorem mem_thrown {a : Arrival} : a ∈ g.thrown p f ↔
    ∃ h ∈ g.handlers, h.start ≤ p ∧ p < h.stop ∧ a = (h.head, ⟨f.locals, [h.caught]⟩) := by
  unfold thrown
  rw [List.mem_map]
  constructor
  · rintro ⟨h, hm, rfl⟩
    obtain ⟨hm, hr⟩ := List.mem_filter.mp hm
    simp only [Bool.and_eq_true, decide_eq_true_eq] at hr
    exact ⟨h, hm, hr.1, hr.2, rfl⟩
  · rintro ⟨h, hm, hs, ht, rfl⟩
    exact ⟨h, List.mem_filter.mpr ⟨hm, by simp [hs, ht]⟩, rfl⟩

theorem follow_seen (g : FlowGraph) (head p : Nat) (f : Frame) (seen : List Arrival) :
    ∀ a ∈ seen, a ∈ (g.follow head p f seen).1 := by
  fun_induction g.follow head p f seen with
  | case1 => exact fun a ha => ha
  | case2 p f seen id n he hr ih => exact ih
  | case3 => exact fun a ha => List.mem_cons_of_mem _ ha
  | case4 p f seen id hh seen' i he e _ _ hs =>
    rw [dite_eq_ite] at hs
    simp only [hs]
    exact fun a ha => List.mem_append_right _ ha
  | case5 p f seen id hh seen' i he f' _ _ hs ih =>
    rw [dite_eq_ite] at hs
    simp only [hs]
    exact fun a ha => ih a (List.mem_append_right _ ha)
  | case6 => exact fun a ha => List.mem_append_right _ ha
  | case7 => exact fun a ha => List.mem_append_right _ ha
  | case8 p f seen id hh seen' br he f' ts _ _ seen'' _ _ _ ih =>
    exact fun a ha => ih a (List.mem_append_right _ (List.mem_append_right _ ha))
  | case9 => exact fun a ha => List.mem_append_right _ (List.mem_append_right _ ha)
  | case10 p f seen id n he hr hh seen' _ _ _ ih =>
    exact fun a ha => ih a (List.mem_append_right _ ha)

/-- A property of frames that is kept on the way from one position to the next. -/
structure Preserves (g : FlowGraph) (K : Frame → Prop) : Prop where
  insn : ∀ p i (f f' : Frame), g.body.get? p = some (.insn i) →
    f.step g.thisClass (g.body.site? p) i = .ok f' → K f → K f'
  branch : ∀ (br : Branch Label) (f f' : Frame), f.branch br = .ok f' → K f → K f'
  thrown : ∀ h ∈ g.handlers, ∀ f : Frame, K f → K ⟨f.locals, [h.caught]⟩

theorem preserves_padded (g : FlowGraph) : g.Preserves Frame.Padded where
  insn _ _ _ _ _ hs hf := hf.step hs
  branch _ _ _ hb hf := hf.of_locals (Frame.branch_locals hb)
  thrown _ _ _ hf := hf

/-- What holds of frames with a property at later heads, at targets and at handlers holds of all
arrivals, if the property is preserved. -/
theorem Preserves.follow_arrivals {K : Frame → Prop} {P : Arrival → Prop} (hk : g.Preserves K)
    (hfalls : ∀ q f, q ≠ head → head ≤ q → q < g.body.size → K f → P (q, f))
    (hjumps : ∀ r br l q f, g.body.get? r = some (.branch br) → l ∈ br.targets →
      g.body.targetPosition l = .ok q → K f → P (q, f))
    (hthrows : ∀ h ∈ g.handlers, ∀ f : Frame, K f → P (h.head, f))
    (hf : K f) (hp : head ≤ p) (hseen : ∀ a ∈ seen, P a) :
    ∀ a ∈ (g.follow head p f seen).1, P a := by
  have hthrown {p : Nat} {f : Frame} {seen : List Arrival} (hf : K f)
      (hseen : ∀ a ∈ seen, P a) : ∀ a ∈ (g.thrown p f).reverse ++ seen, P a := by
    intro a ha
    rcases List.mem_append.mp ha with ha | ha
    · obtain ⟨h, hh, -, -, rfl⟩ := mem_thrown.mp (List.mem_reverse.mp ha)
      exact hthrows h hh _ (hk.thrown h hh f hf)
    · exact hseen a ha
  have hjumped {p : Nat} {id : NodeId} {br : Branch Label} {f' : Frame} {ts : List Nat}
      {seen : List Arrival} (he : g.body.entries[p]? = some (id, .branch br)) (hf : K f')
      (hts : br.targets.mapM g.body.targetPosition = .ok ts) (hseen : ∀ a ∈ seen, P a) :
      ∀ a ∈ (ts.map fun t => (t, f')).reverse ++ seen, P a := by
    intro a ha
    rcases List.mem_append.mp ha with ha | ha
    · obtain ⟨t, ht, rfl⟩ := List.mem_map.mp (List.mem_reverse.mp ha)
      obtain ⟨l, hm, hl⟩ := (mem_mapM_ok hts t).mp ht
      exact hjumps p br l t f' (by rw [Body.get?, he]; rfl) hm hl hf
    · exact hseen a ha
  fun_induction g.follow head p f seen with
  | case1 => exact hseen
  | case2 p f seen id n he hr ih => exact ih hf (by omega) hseen
  | case3 p f seen id n he hr hh =>
    intro a ha
    rcases List.mem_cons.mp ha with rfl | ha
    · refine hfalls p f ?_ hp (Array.getElem?_eq_some_iff.mp he).1 hf
      rintro rfl
      simp at hh
    · exact hseen a ha
  | case4 p f seen id hh seen' i he e _ _ hs =>
    rw [dite_eq_ite] at hs
    simp only [hs]
    exact hthrown hf hseen
  | case5 p f seen id hh seen' i he f' _ _ hs ih =>
    rw [dite_eq_ite] at hs
    simp only [hs]
    have hi : g.body.get? p = some (.insn i) := by rw [Body.get?, he]; rfl
    exact ih (hk.insn p i f f' hi ((Frame.step_site _).symm.trans hs) hf) (by omega)
      (hthrown hf hseen)
  | case6 => exact hthrown hf hseen
  | case7 => exact hthrown hf hseen
  | case8 p f seen id hh seen' br he f' ts hts hbr seen'' _ _ _ ih =>
    have hf' : K f' := hk.branch br f f' hbr hf
    exact ih hf' (by omega) (hjumped he hf' hts (hthrown hf hseen))
  | case9 p f seen id hh seen' br he f' ts hts hbr =>
    exact hjumped he (hk.branch br f f' hbr hf) hts (hthrown hf hseen)
  | case10 p f seen id n he hr hh seen' _ hi hb ih => exact ih hf (by omega) (hthrown hf hseen)

/-- Is a position a head of the graph? -/
def Head (g : FlowGraph) (p : Nat) : Prop := g.isHead p = true

theorem within_iff {n : Node} (h : g.body.Runs g.Head head p n) :
    (decide (p ≠ head) && g.isHead p) = false := by
  rcases h.within with rfl | hh
  · simp
  · rw [Bool.eq_false_iff.mpr hh, Bool.and_false]

theorem follow_insn {i : Instruction} (h : g.body.Runs g.Head head p (.insn i)) :
    g.follow head p f seen =
      match f.step g.thisClass (g.body.site? p) i with
      | .error e => ((g.thrown p f).reverse ++ seen, some (.unverifiable (.node (.insn i)) e))
      | .ok f' => g.follow head (p + 1) f' ((g.thrown p f).reverse ++ seen) := by
  rw [follow_cases, h.node]
  simp only [within_iff h, h.real]
  rfl

theorem follow_branch {br : Branch Label} (h : g.body.Runs g.Head head p (.branch br))
    (hf : g.follow head p f seen = (out, none)) :
    ∃ f' ts, f.branch br = .ok f' ∧ br.targets.mapM g.body.targetPosition = .ok ts ∧
      if br.fallsThrough then g.follow head (p + 1) f'
        ((ts.map fun t => (t, f')).reverse ++ ((g.thrown p f).reverse ++ seen)) = (out, none)
      else (ts.map fun t => (t, f')).reverse ++ ((g.thrown p f).reverse ++ seen) = out := by
  rw [follow_cases, h.node] at hf
  simp only [within_iff h, h.real, Bool.false_eq_true, ↓reduceIte] at hf
  split at hf
  next => cases hf
  next => cases hf
  next f' ts hbr hts =>
    refine ⟨f', ts, hbr, hts, ?_⟩
    split
    next ht => rwa [if_pos ht] at hf
    next ht => rw [if_neg ht] at hf; exact (Prod.mk.inj hf).1

/-- Inference comes by every position that is passed. -/
theorem passes_followed (h : g.body.Passes g.thisClass g.Head head start p f)
    (hf : g.follow head head start [] = (out, none)) :
    ∃ seen, g.follow head p f seen = (out, none) := by
  induction h with
  | start => exact ⟨[], hf⟩
  | pseudo hp hn hr ih =>
    obtain ⟨seen, hs⟩ := ih
    rw [follow_cases, hn] at hs
    exact ⟨seen, by simpa only [hr, if_true] using hs⟩
  | insn hp hrun hstep ih =>
    obtain ⟨seen, hs⟩ := ih
    rw [follow_insn hrun, hstep] at hs
    exact ⟨_, hs⟩
  | branch hp hrun hbr ht ih =>
    obtain ⟨seen, hs⟩ := ih
    obtain ⟨f', ts, hbr', -, hs⟩ := follow_branch hrun hs
    cases Except.ok.inj (hbr.symm.trans hbr')
    exact ⟨_, by rwa [if_pos ht] at hs⟩

theorem follow_checks (hf : g.follow head head start [] = (out, none)) :
    g.body.Checks g.thisClass g.Head head start where
  inside p f hp := by
    obtain ⟨seen, hs⟩ := passes_followed hp hf
    rw [follow_cases] at hs
    cases hn : g.body.get? p with
    | none => rw [hn] at hs; cases hs
    | some n =>
      obtain ⟨e, he, -⟩ := Option.map_eq_some_iff.mp hn
      exact (Array.getElem?_eq_some_iff.mp he).1
  steps p f i hp hrun := by
    obtain ⟨seen, hs⟩ := passes_followed hp hf
    rw [follow_insn hrun] at hs
    split at hs
    next => cases hs
    next f' hstep => exact ⟨f', hstep⟩
  branches p f br hp hrun := by
    obtain ⟨seen, hs⟩ := passes_followed hp hf
    obtain ⟨f', ts, hbr, hts, -⟩ := follow_branch hrun hs
    exact ⟨⟨f', hbr⟩, mapM_ok_each hts⟩

/-- Inference knows everything that flows out. -/
theorem sends_followed (hg : g.body.tryBlocks.mapM g.body.handler = .ok g.handlers)
    (h : g.body.Sends g.thisClass g.Head head start q f)
    (hf : g.follow head head start [] = (out, none)) : (q, f) ∈ out := by
  have keep {p : Nat} {f : Frame} {seen : List Arrival} {a : Arrival}
      (hs : g.follow head p f seen = (out, none)) (ha : a ∈ seen) : a ∈ out := by
    have := follow_seen g head p f seen a ha
    rwa [hs] at this
  cases h with
  | falls hp hn hr hne hh =>
    obtain ⟨seen, hs⟩ := passes_followed hp hf
    rw [follow_cases, hn] at hs
    have hstop : (decide (q ≠ head) && g.isHead q) = true := by
      rw [show g.isHead q = true from hh, Bool.and_true]
      exact decide_eq_true hne
    simp only [hr, hstop, Bool.false_eq_true, ↓reduceIte] at hs
    rw [← (Prod.mk.inj hs).1]
    exact List.mem_cons_self
  | jumps hp hrun hbr hl hq =>
    obtain ⟨seen, hs⟩ := passes_followed hp hf
    obtain ⟨f', ts, hbr', hts, hs⟩ := follow_branch hrun hs
    cases Except.ok.inj (hbr.symm.trans hbr')
    have hmem : (q, f) ∈ (ts.map fun t => (t, f)).reverse :=
      List.mem_reverse.mpr (List.mem_map.mpr ⟨q, (mem_mapM_ok hts q).mpr ⟨_, hl, hq⟩, rfl⟩)
    split at hs
    next => exact keep hs (List.mem_append_left _ hmem)
    next => exact hs ▸ List.mem_append_left _ hmem
  | @throws p f n t h hp hrun ht hh hlo hhi =>
    obtain ⟨seen, hs⟩ := passes_followed hp hf
    have hmem : (h.head, ⟨f.locals, [h.caught]⟩) ∈ (g.thrown p f).reverse :=
      List.mem_reverse.mpr (mem_thrown.mpr
        ⟨h, (mem_mapM_ok hg h).mpr ⟨t, ht, hh⟩, hlo, hhi, rfl⟩)
    cases n with
    | insn i =>
      rw [follow_insn hrun] at hs
      split at hs
      next => cases hs
      next => exact keep hs (List.mem_append_left _ hmem)
    | branch br =>
      obtain ⟨f', ts, -, -, hs⟩ := follow_branch hrun hs
      split at hs
      next => exact keep hs (List.mem_append_right _ (List.mem_append_left _ hmem))
      next => exact hs ▸ List.mem_append_right _ (List.mem_append_left _ hmem)
    | label _ => cases hrun.real
    | line _ => cases hrun.real
    | frame _ => cases hrun.real

theorem runs_of_entry {id : NodeId} {n : Node} (he : g.body.entries[p]? = some (id, n))
    (hr : ¬n.isPseudo = true) (hh : ¬(decide (p ≠ head) && g.isHead p) = true) :
    g.body.Runs g.Head head p n := by
  refine ⟨Body.get?_of_entry he, Bool.eq_false_iff.mpr hr, ?_⟩
  by_cases hph : p = head
  · exact .inl hph
  · exact .inr fun hhead => hh (by simpa [hph, Head] using hhead)

/-- Inference makes up nothing: all that it adds flows out. -/
theorem followed_sends (hg : g.body.tryBlocks.mapM g.body.handler = .ok g.handlers)
    (h : g.body.Passes g.thisClass g.Head head start p f) : ∀ a ∈ (g.follow head p f seen).1,
      a ∈ seen ∨ g.body.Sends g.thisClass g.Head head start a.1 a.2 := by
  have thrown {p : Nat} {f : Frame} {n : Node} {a : Arrival} {seen : List Arrival}
      (hp : g.body.Passes g.thisClass g.Head head start p f) (hrun : g.body.Runs g.Head head p n)
      (ha : a ∈ (g.thrown p f).reverse ++ seen) :
      a ∈ seen ∨ g.body.Sends g.thisClass g.Head head start a.1 a.2 := by
    rcases List.mem_append.mp ha with ha | ha
    · obtain ⟨x, hx, hlo, hhi, rfl⟩ := mem_thrown.mp (List.mem_reverse.mp ha)
      obtain ⟨t, ht, hx⟩ := (mem_mapM_ok hg x).mp hx
      exact .inr (.throws hp hrun ht hx hlo hhi)
    · exact .inl ha
  have jumped {p : Nat} {f f' : Frame} {br : Branch Label} {ts : List Nat} {a : Arrival}
      {seen : List Arrival} (hp : g.body.Passes g.thisClass g.Head head start p f)
      (hrun : g.body.Runs g.Head head p (.branch br)) (hbr : f.branch br = .ok f')
      (hts : br.targets.mapM g.body.targetPosition = .ok ts)
      (ha : a ∈ (ts.map fun t => (t, f')).reverse ++ seen) :
      a ∈ seen ∨ g.body.Sends g.thisClass g.Head head start a.1 a.2 := by
    rcases List.mem_append.mp ha with ha | ha
    · obtain ⟨t, ht, rfl⟩ := List.mem_map.mp (List.mem_reverse.mp ha)
      obtain ⟨l, hl, ht⟩ := (mem_mapM_ok hts t).mp ht
      exact .inr (.jumps hp hrun hbr hl ht)
    · exact .inl ha
  fun_induction g.follow head p f seen with
  | case1 => exact fun a ha => .inl ha
  | case2 p f seen id n he hr ih => exact ih (h.pseudo (Body.get?_of_entry he) hr)
  | case3 p f seen id n he hr hh =>
    intro a ha
    rcases List.mem_cons.mp ha with rfl | ha
    · obtain ⟨hne, hhead⟩ : p ≠ head ∧ g.isHead p = true := by simpa using hh
      exact .inr (.falls h (Body.get?_of_entry he) (Bool.eq_false_iff.mpr hr) hne hhead)
    · exact .inl ha
  | case4 p f seen id hh seen' i he e _ _ hs =>
    rw [dite_eq_ite] at hs
    simp only [hs]
    exact fun a ha => thrown h (runs_of_entry he Bool.false_ne_true hh) ha
  | case5 p f seen id hh seen' i he f' _ _ hs ih =>
    rw [dite_eq_ite] at hs
    simp only [hs]
    have hrun := runs_of_entry he Bool.false_ne_true hh
    have hstep := (Frame.step_site _).symm.trans hs
    intro a ha
    exact (ih (h.insn hrun hstep) a ha).elim (fun ha => thrown h hrun ha) .inr
  | case6 p f seen id hh seen' br he =>
    exact fun a ha => thrown h (runs_of_entry he Bool.false_ne_true hh) ha
  | case7 p f seen id hh seen' br he =>
    exact fun a ha => thrown h (runs_of_entry he Bool.false_ne_true hh) ha
  | case8 p f seen id hh seen' br he f' ts hts hbr seen'' hf _ _ ih =>
    have hrun := runs_of_entry he Bool.false_ne_true hh
    intro a ha
    rcases ih (h.branch hrun hbr hf) a ha with ha | ha
    · exact (jumped h hrun hbr hts ha).elim (fun ha => thrown h hrun ha) .inr
    · exact .inr ha
  | case9 p f seen id hh seen' br he f' ts hts hbr =>
    have hrun := runs_of_entry he Bool.false_ne_true hh
    intro a ha
    exact (jumped h hrun hbr hts ha).elim (fun ha => thrown h hrun ha) .inr
  | case10 p f seen id n he hr hh seen' _ hi hb ih =>
    cases n with
    | insn i => exact (hi i he rfl HEq.rfl).elim
    | branch br => exact (hb br he rfl HEq.rfl).elim
    | label _ | line _ | frame _ => exact absurd rfl hr

end FlowGraph

end ClassGraft
