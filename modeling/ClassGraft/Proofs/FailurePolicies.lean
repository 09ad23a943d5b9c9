import ClassGraft.Proofs.PatchStages

namespace ClassGraft

namespace Engine

variable {α β : Type} {before : List PatchError}

/-- The errors that a run has skipped, whether it was rejected in the end or not. -/
def tolerated (skipped : α → List PatchError) : Except Rejection α → List PatchError
  | .ok a => skipped a
  | .error r => r.skipped

/-- A run that returns its first failure, when another one goes on as `result` behind those. -/
def strictly (before : List PatchError) (result : Except Rejection α) :
    List PatchError → Except Rejection α
  | [] => result
  | err :: _ => .error ⟨err, before⟩

/-- The first run stops at the first error that the second one skips, and is the same if there is none. -/
def Follows (skipped : α → List PatchError) (before : List PatchError)
    (strict lenient : Except Rejection α) : Prop :=
  ∃ errs, tolerated skipped lenient = before ++ errs ∧ strict = strictly before lenient errs

namespace Follows

variable {skipped : α → List PatchError} {skipped' : β → List PatchError}
  {strict lenient : Except Rejection α} {f g : α → Except Rejection β}

theorem same (h : tolerated skipped lenient = before) : Follows skipped before lenient lenient :=
  ⟨[], by rw [h, List.append_nil], rfl⟩

theorem bind (h : Follows skipped before strict lenient)
    (hfg : ∀ a, Follows skipped' (skipped a) (f a) (g a)) :
    Follows skipped' before (strict >>= f) (lenient >>= g) := by
  obtain ⟨errs, htol, rfl⟩ := h
  cases lenient with
  | error r =>
    refine ⟨errs, htol, ?_⟩
    cases errs with
    | nil => rfl
    | cons err errs => rfl
  | ok a =>
    obtain ⟨more, hmore, hf⟩ := hfg a
    have ha : skipped a = before ++ errs := htol
    refine ⟨errs ++ more, ?_, ?_⟩
    · rw [← List.append_assoc, ← ha]
      exact hmore
    · cases errs with
      | nil =>
        rw [List.append_nil] at ha
        rw [ha] at hf
        exact hf
      | cons err errs => rfl

theorem ite {p : Prop} [Decidable p] {strict' lenient' : Except Rejection α}
    (h : Follows skipped before strict lenient) (h' : Follows skipped before strict' lenient') :
    Follows skipped before (if p then strict else strict') (if p then lenient else lenient') := by
  split
  · exact h
  · exact h'

/-- A failure behind the runs is told with what they have skipped. -/
theorem mapError {ε : Type} {r : ε → Rejection} (hr : ∀ err, (r err).skipped = before)
    (x : Except ε α) : Follows (fun _ => before) before (x.mapError r) (x.mapError r) := by
  cases x with
  | error err => exact .same (hr err)
  | ok a => exact .same rfl

theorem rejected {ε : Type} (f : ε → PatchError) (x : Except ε α) :
    Follows (fun _ => before) before (x.mapError fun err => ⟨f err, before⟩)
      (x.mapError fun err => ⟨f err, before⟩) :=
  mapError (r := fun err => ⟨f err, before⟩) (fun _ => rfl) x

end Follows

variable {e : Engine} {className name : String} {rules : List PatchRule} {bytes : Bytes}
  {s : PatchRun} {t : Transformation}

/-- The engine with another answer to failures. -/
def under (e : Engine) (p : FailurePolicy) : Engine := { e with policy := p }

theorem applyRules_follows (e : Engine) (rules : List PatchRule) (s : PatchRun) :
    Follows PatchRun.skipped s.skipped ((e.under .failClosed).applyRules rules s)
      ((e.under .failOpen).applyRules rules s) := by
  induction rules generalizing s with
  | nil => exact .same rfl
  | cons r rs ih =>
    cases hr : r.apply e.symbols e.settings s.model with
    | ok c =>
      rw [applyRules_success (e := e.under .failClosed) hr,
        applyRules_success (e := e.under .failOpen) hr]
      exact ih ⟨c, s.applied ++ [r.name], s.skipped⟩
    | error err =>
      rw [applyRules_failure (e := e.under .failClosed) hr (.inr rfl)]
      cases hm : err.isTargetMissing with
      | true =>
        obtain ⟨errs, htol, -⟩ := ih ⟨s.model, s.applied, s.skipped ++ [err]⟩
        rw [applyRules_skip (e := e.under .failOpen) hr hm rfl]
        exact ⟨err :: errs, by rw [htol, List.append_assoc]; rfl, rfl⟩
      | false =>
        rw [applyRules_failure (e := e.under .failOpen) hr (.inl hm)]
        exact .same rfl

theorem prepare_follows (e : Engine) (className : String) (rules : List PatchRule) (bytes : Bytes) :
    Follows Prepared.skipped [] ((e.under .failClosed).prepare className rules bytes)
      ((e.under .failOpen).prepare className rules bytes) := by
  unfold prepare
  refine .bind (.mapError (fun cause => ?_) _) fun c => ?_
  · cases cause <;> rfl
  · refine .ite (.same rfl) ?_
    refine .bind (applyRules_follows e rules ⟨e.labelNames c, [], []⟩) fun s => ?_
    refine .ite (.same rfl) ?_
    exact .bind (.rejected id _) fun methods => .bind (.rejected (.classFormat className) _) fun _ =>
      .same rfl

/-- What is written tells what was skipped, whether it can be written or not. -/
theorem write_cases (p : Prepared) (className : String) (bytes : Bytes) :
    (∃ t, p.write className bytes = .ok t ∧ t.skipped = p.skipped ∧ t.state = .emitted ∧
      t.rejection = none) ∨
    (∃ r : Rejection, p.write className bytes = .error (.error r) ∧ r.skipped = p.skipped) ∨
    ∃ h, Halt.IsStop h ∧ p.write className bytes = .error h := by
  cases p with
  | untouched skipped => exact .inl ⟨_, rfl, rfl, rfl, rfl⟩
  | marked run c =>
    rw [Prepared.write]
    rcases c.toBytes with halt | patched
    · by_cases hstop : halt.IsStop
      · exact .inr (.inr ⟨_, Halt.isStop_map.mpr hstop, rfl⟩)
      · obtain ⟨cause, rfl⟩ := Halt.not_isStop_iff.mp hstop
        exact .inr (.inl ⟨_, rfl, rfl⟩)
    · exact .inl ⟨_, rfl, rfl, rfl, rfl⟩

/-- An engine that returns failures returns what the other one gives if that has neither skipped a rule
nor rejected the class, and otherwise the first of the errors. Where the other one is stopped, its rules
have been applied before. -/
theorem transform_strictly (e : Engine) (name : String) (bytes : Bytes) :
    (∃ t, (e.under .failOpen).transform name bytes = .ok t ∧
      (t.state = .emitted ↔ t.rejection = none) ∧
      (e.under .failClosed).transform name bytes =
        match t.skipped.head?.or t.rejection with
        | none => .ok t
        | some err => .error (.error err)) ∨
    ∃ h p, Halt.IsStop h ∧ (e.under .failOpen).transform name bytes = .error h ∧
      (e.under .failOpen).prepare (normalizeName name) (e.rulesFor (normalizeName name)) bytes = .ok p ∧
      (e.under .failClosed).transform name bytes =
        match p.skipped.head? with
        | none => .error h
        | some err => .error (.error err) := by
  have hfor (p : FailurePolicy) :
      (e.under p).rulesFor (normalizeName name) = e.rulesFor (normalizeName name) := rfl
  by_cases hnil : e.rulesFor (normalizeName name) = []
  · exact .inl ⟨_, transform_none ((hfor .failOpen).trans hnil), iff_of_true rfl rfl,
      transform_none ((hfor .failClosed).trans hnil)⟩
  · obtain ⟨errs, htol, hstrict⟩ :=
      prepare_follows e (normalizeName name) (e.rulesFor (normalizeName name)) bytes
    rw [transform_some (e := e.under .failOpen) hnil, transform_some (e := e.under .failClosed) hnil,
      hfor, hfor, patch, patch, hstrict]
    cases hp : (e.under .failOpen).prepare (normalizeName name) (e.rulesFor (normalizeName name)) bytes with
    | error r =>
      rw [hp] at htol
      have hskipped : r.skipped = errs := htol
      refine .inl ⟨_, rfl, iff_of_false nofun nofun, ?_⟩
      dsimp only
      rw [hskipped]
      cases errs <;> rfl
    | ok p =>
      rw [hp] at htol
      obtain rfl : p.skipped = errs := htol
      -- an error that was skipped is returned before anything is written
      rcases write_cases p (normalizeName name) bytes with
        ⟨t, hwrite, hskipped, hends⟩ | ⟨r, hwrite, hskipped⟩ | ⟨h, hstop, hwrite⟩
      · refine .inl ⟨t, congrArg (answer _ _ _) hwrite, iff_of_true hends.1 hends.2, ?_⟩
        rw [hskipped, hends.2]
        cases p.skipped with
        | nil => exact congrArg (answer _ _ _) hwrite
        | cons err errs => rfl
      · refine .inl ⟨_, congrArg (answer _ _ _) hwrite, iff_of_false nofun nofun, ?_⟩
        dsimp only
        rw [hskipped]
        cases p.skipped with
        | nil => exact congrArg (answer _ _ _) hwrite
        | cons err errs => rfl
      · refine .inr ⟨h.map Rejection.error, p, Halt.isStop_map.mpr hstop,
          (congrArg (answer _ _ _) hwrite).trans (answer_stop hstop), rfl, ?_⟩
        cases p.skipped with
        | nil => exact (congrArg (answer _ _ _) hwrite).trans (answer_stop hstop)
        | cons err errs => rfl

/-- The answer to failures has no part in what is done with a class: engines are made alike, and where the
lenient one gives a result, the other one succeeds just if the class is emitted without skipping a rule, and
with the same result. Where it fails, it does so with the first error that the lenient one has skipped, or
else with that for which it has rejected the class. If the lenient one is stopped while the class is written,
the other one has returned the first error that was skipped, or is stopped as well. -/
theorem transform_policies (settings : Settings) (symbols : SymbolTable) (rules : List PatchRule) :
    (∃ err, ∀ p, make p settings symbols rules = .error err) ∨
    ∃ strict lenient, make .failClosed settings symbols rules = .ok strict ∧
      make .failOpen settings symbols rules = .ok lenient ∧
      ∀ name bytes, (∃ t, lenient.transform name bytes = .ok t ∧
          (∀ u, strict.transform name bytes = .ok u ↔ u = t ∧ t.state = .emitted ∧ t.skipped = []) ∧
          ∀ err, strict.transform name bytes = .error (.error err) ↔
            t.skipped.head?.or t.rejection = some err) ∨
        ∃ h p, Halt.IsStop h ∧ lenient.transform name bytes = .error h ∧
          lenient.prepare (normalizeName name) (lenient.rulesFor (normalizeName name)) bytes = .ok p ∧
          (p.skipped = [] → strict.transform name bytes = .error h) ∧
          ∀ err, strict.transform name bytes = .error (.error err) ↔ p.skipped.head? = some err := by
  cases hc : symbols.checkComplete (rules.flatMap PatchRule.requiredSymbols) with
  | error err => exact .inl ⟨err, fun p => by rw [make, hc]; rfl⟩
  | ok =>
    have hmake (p : FailurePolicy) : make p settings symbols rules = .ok ⟨p, settings, symbols, rules⟩ := by
      rw [make, hc]
      rfl
    refine .inr ⟨_, _, hmake .failClosed, hmake .failOpen, fun name bytes => ?_⟩
    refine (transform_strictly ⟨.failOpen, settings, symbols, rules⟩ name bytes).imp ?_ ?_
    · rintro ⟨t, ht, hstate, hstrict⟩
      have hnone : t.skipped.head?.or t.rejection = none ↔ t.state = .emitted ∧ t.skipped = [] := by
        rw [Option.or_eq_none_iff, List.head?_eq_none_iff, hstate, and_comm]
      rw [show (⟨.failOpen, settings, symbols, rules⟩ : Engine).under .failClosed =
        ⟨.failClosed, settings, symbols, rules⟩ from rfl] at hstrict
      refine ⟨t, ht, fun u => ?_, fun err => ?_⟩
      · rw [hstrict, ← hnone]
        cases t.skipped.head?.or t.rejection with
        | none => simp [eq_comm]
        | some err => simp
      · rw [hstrict]
        cases t.skipped.head?.or t.rejection <;> simp
    · rintro ⟨h, p, hstop, hlenient, hprepare, hstrict⟩
      rw [show (⟨.failOpen, settings, symbols, rules⟩ : Engine).under .failClosed =
        ⟨.failClosed, settings, symbols, rules⟩ from rfl] at hstrict
      refine ⟨h, p, hstop, hlenient, hprepare, fun hnil => ?_, fun err => ?_⟩
      · rw [hstrict, hnil]
        rfl
      · rw [hstrict]
        cases p.skipped.head? with
        | none =>
          refine iff_of_false (fun herr => ?_) nofun
          cases herr
          exact hstop
        | some err => simp

end Engine

end ClassGraft
