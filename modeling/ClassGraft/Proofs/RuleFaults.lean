import ClassGraft.Proofs.ClassPatching
import ClassGraft.Proofs.FailurePolicies
import ClassGraft.Proofs.NameFaults

namespace ClassGraft

/-- Every method of the class can be brought up to date. -/
def ClassModel.Valid (c : ClassModel) : Prop := ∀ m ∈ c.methods, ∃ m', m.validate = .ok m'

namespace PatchRule

variable {r : PatchRule} {symbols : SymbolTable} {settings : Settings} {context : PatchContext}
  {c c' : ClassModel} {className rule method : String} {cause : ClassError} {err : PatchError}

/-- A patch of a rule fails on a class: its class patch, or a procedure on a method that it has come to.
The fault is told of the class or of the method by the name for messages. -/
inductive Faults (r : PatchRule) (context : PatchContext) (c : ClassModel) : String → PatchFault → Prop
  | ofClass {patch : ClassPatch} {fault : PatchFault} : r.classPatch = some patch →
      patch context c = .error fault → Faults r context c c.displayName fault
  | ofBody {before left : List Procedure} {p : Procedure} {name : MemberName} {done ahead : List Nat}
      {i : Nat} {c₁ c₂ : ClassModel} {m m' : Method} {body : Body} {fault : PatchFault} :
      r.procedures = before ++ p :: left → r.editedBy context c before = .ok c₁ →
      context.symbols.resolveMember .method r.target p.method = .ok name →
      c₁.methodsNamed name.text = done ++ i :: ahead →
      done.foldlM (r.patchMethod context c.displayName p) c₁ = .ok c₂ →
      c₂.methods[i]? = some m → m.beginEdit = .ok m' → m'.body? = some body →
      p.apply context body = .error fault → Faults r context c m'.displayName fault

/-- A rule breaks a method: an edit fails in it, or it is edited and not valid in the class that the rule
makes. -/
inductive Breaks (r : PatchRule) (context : PatchContext) (c : ClassModel) (method : String)
    (cause : ClassError) : Prop
  | edit : r.Faults context c method (.edit cause) → Breaks r context c method cause
  | trial {c' : ClassModel} {m : Method} : r.editedBy context c r.procedures = .ok c' → m ∈ c'.methods →
      m.isModified = true → m.validate = .error cause → m.displayName = method →
      Breaks r context c method cause

theorem tryMethods_ok {ms : List Method} (h : r.tryMethods className ms = .ok ()) :
    ∀ m ∈ ms, ∃ m', m.validate = .ok m' := by
  induction ms with
  | nil => exact fun m hm => absurd hm List.not_mem_nil
  | cons m ms ih =>
    rw [tryMethods] at h
    split at h
    next m' hm => exact List.forall_mem_cons.mpr ⟨⟨m', hm⟩, ih h⟩
    next => cases h

theorem tryMethods_error {ms : List Method} (h : r.tryMethods className ms = .error err) :
    ∃ m ∈ ms, ∃ cause, m.validate = .error cause ∧
      err = .invariantViolation className r.name m.displayName cause := by
  induction ms with
  | nil => cases h
  | cons m ms ih =>
    rw [tryMethods] at h
    split at h
    next =>
      obtain ⟨m', hm', hcause⟩ := ih h
      exact ⟨m', List.mem_cons_of_mem m hm', hcause⟩
    next cause hm =>
      cases h
      exact ⟨m, List.mem_cons_self, cause, hm, rfl⟩

/-- A rule that is applied leaves only valid methods behind. -/
theorem apply_valid (h : r.apply symbols settings c = .ok c') : c'.Valid := by
  rw [apply_eq] at h
  obtain ⟨c₁, -, h⟩ := except_bind_ok.mp h
  obtain ⟨⟨⟩, htry, h⟩ := except_bind_ok.mp h
  cases h
  exact tryMethods_ok htry

/-- The rule is told to have broken a method. -/
def Blames (r : PatchRule) (context : PatchContext) (c : ClassModel) : PatchError → Prop
  | .invariantViolation className rule method cause =>
    (className = c.displayName ∧ rule = r.name ∧ r.Breaks context c method cause) ∨
      ∃ name, r.Faults context c name (.symbol (.invariantViolation className rule method cause))
  | _ => True

/-- A fault is told as a violation if an edit has failed, or if it is handed on as one. -/
theorem Faults.blames {name : String} {fault : PatchFault} (h : r.Faults context c name fault) :
    r.Blames context c (r.explain c.displayName name fault) := by
  cases fault with
  | targetMissing what => trivial
  | edit cause => exact .inl ⟨rfl, rfl, .edit h⟩
  | symbol err =>
    cases err with
    | invariantViolation className rule method cause => exact .inr ⟨name, h⟩
    | _ => trivial

theorem patchClass_error (h : r.patchClass context c = .error err) : r.Blames context c err := by
  unfold patchClass at h
  split at h
  next patch hpatch =>
    obtain ⟨fault, hfault, rfl⟩ := except_mapError_error.mp h
    exact Faults.blames (.ofClass hpatch hfault)
  next => cases h

theorem editedBy_error (h : r.editedBy context c r.procedures = .error err) : r.Blames context c err := by
  rcases except_bind_error.mp h with hpatch | ⟨c₀, hpatch, hrun⟩
  · exact patchClass_error hpatch
  · obtain ⟨before, p, left, c₁, hsplit, hbefore, hp⟩ := foldlM_error hrun
    have hedited : r.editedBy context c before = .ok c₁ := except_bind_ok.mpr ⟨c₀, hpatch, hbefore⟩
    rcases except_bind_error.mp hp with hname | ⟨name, hname, hp⟩
    · unfold SymbolTable.resolveMember at hname
      split at hname
      next => cases hname
      next => cases hname; trivial
    · dsimp only at hp
      split at hp
      next => cases hp; trivial
      next =>
        obtain ⟨done, i, ahead, c₂, hpositions, hdone, hi⟩ := foldlM_error hp
        unfold patchMethod at hi
        split at hi
        next => cases hi
        next m hm =>
          rcases except_bind_error.mp hi with hbegin | ⟨m', hbegin, hi⟩
          · obtain ⟨cause, -, rfl⟩ := except_mapError_error.mp hbegin
            trivial
          · split at hi
            next =>
              split at hi
              next => cases hi; trivial
              next => cases hi
            next body hbody =>
              rcases except_bind_error.mp hi with happly | ⟨body', -, hi⟩
              · obtain ⟨fault, hfault, rfl⟩ := except_mapError_error.mp happly
                exact Faults.blames (.ofBody hsplit hedited hname hpositions hdone hm
                  (except_mapError_ok.mp hbegin) hbody hfault)
              · cases hi

/-- Some patch of the rule has failed so. -/
theorem Faults.patch_fails {told : String} {fault : PatchFault} (h : r.Faults context c told fault) :
    (∃ patch, r.classPatch = some patch ∧ patch context c = .error fault) ∨
      ∃ p ∈ r.procedures, ∃ body, p.apply context body = .error fault := by
  cases h with
  | ofClass hpatch hfault => exact .inl ⟨_, hpatch, hfault⟩
  | ofBody hsplit _ _ _ _ _ _ _ hfault => exact .inr ⟨_, by simp [hsplit], _, hfault⟩

/-- The shipped rules hand on no violation. -/
theorem Faults.of_shipped {told : String} (hr : r ∈ Rules.shipped)
    (h : r.Faults context c told (.symbol err)) : err.isNaming = true := by
  obtain ⟨hclass, hbody⟩ := Rules.shipped_honest r hr
  have hforeign : PatchFault.isForeign (.symbol err) = false := by
    rcases h.patch_fails with ⟨patch, hpatch, hfault⟩ | ⟨p, hp, body, hfault⟩
    · exact hclass patch hpatch context c _ hfault
    · exact hbody p hp context body _ hfault
  simpa [PatchFault.isForeign] using hforeign

/-- A rule that fails over a broken method has broken it. -/
theorem apply_blames (h : r.apply symbols settings c = .error err) :
    r.Blames ⟨symbols, settings, c.name⟩ c err := by
  rw [apply_eq] at h
  rcases except_bind_error.mp h with hedit | ⟨c', hedit, h⟩
  · exact editedBy_error hedit
  · rcases except_bind_error.mp h with htry | ⟨-, -, h⟩
    · obtain ⟨m, hm, cause, hcause, rfl⟩ := tryMethods_error htry
      exact .inl ⟨rfl, rfl, .trial hedit hm (m.isModified_of_invalid hcause) hcause rfl⟩
    · cases h

end PatchRule

namespace Engine

variable {e : Engine} {className name rule : String} {rules : List PatchRule} {bytes : Bytes}
  {s s' : PatchRun} {c : ClassModel} {err : PatchError}

/-- Nothing was edited in a class that was only read. -/
theorem labelNames_valid (h : ClassModel.parse bytes = .ok c) : (e.labelNames c).Valid := by
  intro m hm
  obtain ⟨m₀, hm₀, rfl⟩ := List.mem_map.mp hm
  obtain ⟨i, hi⟩ := List.mem_iff_getElem?.mp hm₀
  obtain ⟨raw, -, hread⟩ := ClassModel.parse_method h hi
  have hunmodified : m₀.isModified = false := Method.read_unmodified hread
  exact ⟨_, Method.validate_unmodified hunmodified⟩

/-- Each rule that is applied leaves valid methods. -/
theorem applyRules_valid (hs : s.model.Valid) (h : e.applyRules rules s = .ok s') : s'.model.Valid :=
  applyRules_keeps (fun _ _ _ _ _ ha => PatchRule.apply_valid ha) hs h

/-- Only what is missing is skipped. -/
theorem applyRules_skipped (hs : ∀ err ∈ s.skipped, err.isTargetMissing = true) :
    ∀ err ∈ tolerated PatchRun.skipped (e.applyRules rules s), err.isTargetMissing = true := by
  induction rules generalizing s with
  | nil => exact hs
  | cons r rs ih =>
    rw [applyRules]
    split
    next => exact ih hs
    next err _ =>
      split
      next hskip =>
        refine ih ?_
        intro err' hmem
        rcases List.mem_append.mp hmem with hmem | hmem
        · exact hs err' hmem
        · cases List.mem_singleton.mp hmem
          exact (Bool.and_eq_true_iff.mp hskip).1
      next => exact hs

theorem applyRules_skipped_missing (e : Engine) (rules : List PatchRule) (c : ClassModel) :
    ∀ err ∈ tolerated PatchRun.skipped (e.applyRules rules ⟨e.labelNames c, [], []⟩),
      err.isTargetMissing = true := applyRules_skipped fun _ hmem => absurd hmem List.not_mem_nil

/-- A run stops at one rule, behind those that were applied or skipped. -/
theorem applyRules_error {x : Rejection} (h : e.applyRules rules s = .error x) :
    ∃ before r left s', rules = before ++ r :: left ∧ e.applyRules before s = .ok s' ∧
      r.apply e.symbols e.settings s'.model = .error x.error := by
  induction rules generalizing s with
  | nil => cases h
  | cons r rs ih =>
    rw [applyRules] at h
    split at h
    next c hc =>
      obtain ⟨before, r', left, s', rfl, hrun, hr'⟩ := ih h
      exact ⟨r :: before, r', left, s', rfl, (applyRules_success hc).trans hrun, hr'⟩
    next err herr =>
      split at h
      next hskip =>
        obtain ⟨before, r', left, s', rfl, hrun, hr'⟩ := ih h
        obtain ⟨hmissing, hpolicy⟩ := Bool.and_eq_true_iff.mp hskip
        exact ⟨r :: before, r', left, s', rfl,
          (applyRules_skip herr hmissing (of_decide_eq_true hpolicy)).trans hrun, hr'⟩
      next =>
        cases h
        exact ⟨[], r, rs, s, rfl, rfl, herr⟩

/-- The last validation of valid methods has nothing to say. -/
theorem validateMethods_valid (className rule : String) {ms : List Method}
    (h : ∀ m ∈ ms, ∃ m', m.validate = .ok m') : ∃ ms', validateMethods className rule ms = .ok ms' := by
  induction ms with
  | nil => exact ⟨[], rfl⟩
  | cons m ms ih =>
    obtain ⟨⟨m', hm⟩, hms⟩ := List.forall_mem_cons.mp h
    obtain ⟨ms', hms'⟩ := ih hms
    refine ⟨m' :: ms', except_bind_ok.mpr ⟨m', except_mapError_ok.mpr hm, ?_⟩⟩
    exact except_bind_ok.mpr ⟨ms', hms', rfl⟩

theorem Prepares.skipped_missing {p : Prepared} (h : e.Prepares className rules bytes p) :
    ∀ err ∈ p.skipped, err.isTargetMissing = true := by
  have hrun {c : ClassModel} {s : PatchRun}
      (hs : e.applyRules rules ⟨e.labelNames c, [], []⟩ = .ok s) :
      ∀ err ∈ s.skipped, err.isTargetMissing = true := by
    have hskipped := e.applyRules_skipped_missing rules c
    rwa [hs] at hskipped
  cases h with
  | left => exact fun _ hmem => absurd hmem List.not_mem_nil
  | unchanged _ _ hs _ => exact hrun hs
  | marked hmarks =>
    obtain ⟨c, methods, -, -, hs, -⟩ := hmarks
    exact hrun hs

/-- Rules are not applied to a class that cannot be read, or one of them fails, or the class cannot be
marked. -/
theorem prepare_error {x : Rejection} (h : e.prepare className rules bytes = .error x) :
    (∀ err ∈ x.skipped, err.isTargetMissing = true) ∧
    ((∃ cause, x.error = .classFormat className cause) ∨ (∃ v, x.error = .unsupportedVersion className v) ∨
      ∃ c, ClassModel.parse bytes = .ok c ∧ e.applyRules rules ⟨e.labelNames c, [], []⟩ = .error x) := by
  unfold prepare at h
  rcases except_bind_error.mp h with hparse | ⟨c, hc, h⟩
  · obtain ⟨cause, -, rfl⟩ := except_mapError_error.mp hparse
    split
    next v => exact ⟨fun _ hmem => absurd hmem List.not_mem_nil, .inr (.inl ⟨v, rfl⟩)⟩
    next => exact ⟨fun _ hmem => absurd hmem List.not_mem_nil, .inl ⟨_, rfl⟩⟩
  · have hparse := except_mapError_ok.mp hc
    have hskipped := e.applyRules_skipped_missing rules c
    split at h
    next => cases h
    next =>
      rcases except_bind_error.mp h with hrun | ⟨s, hrun, h⟩
      · rw [hrun] at hskipped
        exact ⟨hskipped, .inr (.inr ⟨c, hparse, hrun⟩)⟩
      · rw [hrun] at hskipped
        split at h
        next => cases h
        next =>
          rcases except_bind_error.mp h with hvalid | ⟨methods, -, h⟩
          · -- the methods were valid behind the last rule, and nothing has changed since
            obtain ⟨ms, hms⟩ := validateMethods_valid className (String.intercalate "," s.applied)
              (applyRules_valid (labelNames_valid hparse) hrun)
            rw [hms] at hvalid
            cases hvalid
          · rcases except_bind_error.mp h with hmark | ⟨c', -, h⟩
            · obtain ⟨cause, -, rfl⟩ := except_mapError_error.mp hmark
              exact ⟨hskipped, .inl ⟨cause, rfl⟩⟩
            · cases h

/-- A class is rejected because it cannot be read or written, or because of a rule. -/
theorem patch_error {x : Rejection} (h : e.patch className rules bytes = .error (.error x)) :
    (∀ err ∈ x.skipped, err.isTargetMissing = true) ∧
    ((∃ cause, x.error = .classFormat className cause) ∨ (∃ v, x.error = .unsupportedVersion className v) ∨
      ∃ c, ClassModel.parse bytes = .ok c ∧ e.applyRules rules ⟨e.labelNames c, [], []⟩ = .error x) := by
  rcases patch_rejects.mp h with hprepare | ⟨s, c', cause, hmarks, -, rfl⟩
  · exact prepare_error hprepare
  · exact ⟨(Prepares.marked hmarks).skipped_missing, .inl ⟨cause, rfl⟩⟩

/-- What an engine tells to have gone wrong with a class: the error that is returned, why the class was
rejected, or why a rule was skipped. -/
inductive Reports (e : Engine) (name : String) (bytes : Bytes) (err : PatchError) : Prop
  | returned : e.transform name bytes = .error (.error err) → Reports e name bytes err
  | rejected {t : Transformation} : e.transform name bytes = .ok t → t.rejection = some err →
      Reports e name bytes err
  | skipped {t : Transformation} : e.transform name bytes = .ok t → err ∈ t.skipped →
      Reports e name bytes err

/-- Rules are only skipped over missing targets, and for any other error the class is rejected. -/
theorem Reports.cases (h : e.Reports name bytes err) : err.isTargetMissing = true ∨
    ∃ x, e.patch (normalizeName name) (e.rulesFor (normalizeName name)) bytes = .error (.error x) ∧
      x.error = err := by
  cases h with
  | returned h => exact .inr (transform_error h).2
  | rejected h hr =>
    rcases transform_cases h with ⟨-, rfl⟩ | hends | ⟨x, -, hx, rfl⟩
    · cases hr
    · obtain ⟨p, -, -, hnone⟩ := hends.prepared
      cases hnone.symm.trans hr
    · exact .inr ⟨x, hx, Option.some.inj hr⟩
  | skipped h hs =>
    rcases transform_cases h with ⟨-, rfl⟩ | hends | ⟨x, -, hx, rfl⟩
    · exact absurd hs List.not_mem_nil
    · obtain ⟨p, hp, hskipped, -⟩ := hends.prepared
      exact .inl ((prepare_ok.mp hp).skipped_missing err (hskipped ▸ hs))
    · exact .inl ((patch_error hx).1 err hs)

/-- The methods of a class are valid whenever a rule is to be applied to it and when all have had their
turn, so that the last validation cannot fail. A violation that is reported names the rule that was being
applied when it came up: an edit of it has failed, or behind it a method is not valid that was edited. Only
a patch that gives out a violation of its own making for a name that does not resolve could have it told
otherwise, and no shipped rule has one. -/
theorem transform_blames (e : Engine) (name : String) (bytes : Bytes) :
    (∀ c s, ClassModel.parse bytes = .ok c →
      e.applyRules (e.rulesFor (normalizeName name)) ⟨e.labelNames c, [], []⟩ = .ok s →
      (∀ m ∈ s.model.methods, ∃ m', m.validate = .ok m') ∧
        ∀ className rule, ∃ methods, validateMethods className rule s.model.methods = .ok methods) ∧
    ∀ className rule method cause,
      e.Reports name bytes (.invariantViolation className rule method cause) →
      ∃ c before r left s, ClassModel.parse bytes = .ok c ∧
        e.rulesFor (normalizeName name) = before ++ r :: left ∧ r ∈ e.rules ∧
        e.applyRules before ⟨e.labelNames c, [], []⟩ = .ok s ∧
        (∀ m ∈ s.model.methods, ∃ m', m.validate = .ok m') ∧
        ((className = s.model.displayName ∧ rule = r.name ∧
            r.Breaks ⟨e.symbols, e.settings, s.model.name⟩ s.model method cause) ∨
          (r ∉ Rules.shipped ∧ ∃ told, r.Faults ⟨e.symbols, e.settings, s.model.name⟩ s.model told
            (.symbol (.invariantViolation className rule method cause)))) := by
  have hvalid {c : ClassModel} {s : PatchRun} {rules : List PatchRule}
      (hc : ClassModel.parse bytes = .ok c)
      (hs : e.applyRules rules ⟨e.labelNames c, [], []⟩ = .ok s) : s.model.Valid :=
    applyRules_valid (s := ⟨e.labelNames c, [], []⟩) (labelNames_valid hc) hs
  refine ⟨fun c s hc hs => ⟨hvalid hc hs, fun className rule => validateMethods_valid _ _ (hvalid hc hs)⟩,
    fun className rule method cause h => ?_⟩
  rcases h.cases with hmissing | ⟨x, hx, herr⟩
  · cases hmissing
  · rcases (patch_error hx).2 with ⟨cause', hformat⟩ | ⟨v, hversion⟩ | ⟨c, hc, hrun⟩
    · cases herr.symm.trans hformat
    · cases herr.symm.trans hversion
    · obtain ⟨before, r, left, s, hsplit, hs, happly⟩ := applyRules_error hrun
      rw [herr] at happly
      have hmem : r ∈ e.rulesFor (normalizeName name) := by simp [hsplit]
      refine ⟨c, before, r, left, s, hc, hsplit, List.mem_of_mem_filter hmem, hs, hvalid hc hs, ?_⟩
      rcases PatchRule.apply_blames happly with hbreaks | ⟨told, hfault⟩
      · exact .inl hbreaks
      · refine .inr ⟨fun hshipped => ?_, told, hfault⟩
        cases hfault.of_shipped hshipped

end Engine

namespace Pushing

open TwiceNamed

def symbols : SymbolTable :=
  ⟨.deobfuscated, [("a/B", method.owner)], [(⟨.method, "a/B", "m"⟩, method.name)], [], []⟩

def push : BodyPatch := fun _ b => return (← b.insertAtStart [.insn (.push (.int 1))]).2

/-- It leaves a value on the stack. -/
def rule : PatchRule := ⟨"pushing", "a/B", [⟨"m", true, push⟩], none, []⟩

def engine : Engine := ⟨.failOpen, Settings.standard, symbols, [rule]⟩

def pushed : Body := {
  body with
  entries := #[(⟨1⟩, .insn (.push (.int 1))), (⟨0⟩, .branch (.leave none))]
  nextId := 2
  version := 2
  edits := #[⟨none, [⟨1⟩], [], 1, 0⟩] }

def violation (c : ClassModel) : PatchError :=
  .invariantViolation c.displayName "pushing" "m" (.unbalanced none 1)

theorem apply_fails {c : ClassModel} (h : c.methods = [method]) :
    rule.apply symbols Settings.standard c = .error (violation c) := by
  have hname : symbols.resolveMember .method "a/B" "m" = .ok method.name := rfl
  have hedited : rule.editedBy ⟨symbols, Settings.standard, c.name⟩ c rule.procedures =
      .ok (c.setMethod 0 (begun.withBody pushed)) :=
    PatchRule.editedBy_only rfl h hname begun_eq rfl rfl
  rw [PatchRule.apply_eq, hedited]
  show (rule.tryMethods c.displayName (c.methods.set 0 _) >>= _) = _
  rw [h]
  rfl

theorem rulesFor_class : engine.rulesFor (normalizeName "a/B") = [rule] := by
  have hname : normalizeName "a/B" = "a/B" := by cbv
  rw [hname]
  rfl

theorem reports {c : ClassModel} (hc : ClassModel.parse source = .ok c) (h : Seen c) :
    engine.Reports "a/B" source (violation (engine.labelNames c)) := by
  have hmethods : (engine.labelNames c).methods = [method] := by
    rw [Engine.labelNames, h.1]
    rfl
  have hmarker : c.attribute? engine.settings.markerAttribute.text = none := by
    rw [ClassModel.attribute?, ClassFile.attribute?, h.2.2.2.2.1]
    rfl
  have hprepare : engine.prepare (normalizeName "a/B") [rule] source =
      .error ⟨violation (engine.labelNames c), []⟩ := by
    have hrun : engine.applyRules [rule] ⟨engine.labelNames c, [], []⟩ =
        .error ⟨violation (engine.labelNames c), []⟩ :=
      Engine.applyRules_failure (s := ⟨engine.labelNames c, [], []⟩) (apply_fails hmethods) (.inl rfl)
    rw [Engine.prepare, hc]
    show (if (c.attribute? engine.settings.markerAttribute.text).isSome then _ else _) = _
    rw [hmarker]
    show (engine.applyRules [rule] _ >>= _) = _
    rw [hrun]
    rfl
  refine .rejected (t := ⟨normalizeName "a/B", .rejected, source, [], [], some _⟩) ?_ rfl
  rw [Engine.transform_some (by rw [rulesFor_class]; exact List.cons_ne_nil _ _), rulesFor_class,
    Engine.patch_rejects.mpr (.inl hprepare)]
  exact Engine.answer_open rfl

theorem no_name {context : PatchContext} {c : ClassModel} {told : String} {err : PatchError} :
    ¬ rule.Faults context c told (.symbol err) := by
  intro h
  rcases h.patch_fails with ⟨patch, hpatch, -⟩ | ⟨p, hp, body, hfault⟩
  · cases hpatch
  · rw [List.mem_singleton.mp hp] at hfault
    rcases except_bind_error.mp hfault with hinsert | ⟨_, -, h⟩
    · obtain ⟨cause, -, h⟩ := except_mapError_error.mp hinsert
      cases h
    · cases h

end Pushing

open Pushing TwiceNamed in
/-- A rule leaves a value on the stack of a method, and is told to have. -/
theorem Pushing.blamed : ∃ c, ClassModel.parse source = .ok c ∧
    engine.Reports "a/B" source (violation (engine.labelNames c)) ∧
    rule.Breaks ⟨symbols, Settings.standard, c.name⟩ (engine.labelNames c) "m" (.unbalanced none 1) := by
  obtain ⟨c, hc, hseen⟩ := parsed
  have hreports := reports hc hseen
  obtain ⟨c', before, r, left, s, hc', hsplit, -, hrun, -, hbreaks⟩ :=
    (Engine.transform_blames engine "a/B" source).2 _ _ _ _ hreports
  cases hc.symm.trans hc'
  rw [rulesFor_class] at hsplit
  obtain ⟨rfl, rfl, rfl⟩ : before = [] ∧ rule = r ∧ left = [] := by
    cases before <;> simp_all
  cases hrun
  rcases hbreaks with ⟨-, -, hbreaks⟩ | ⟨-, told, hfault⟩
  · exact ⟨c, hc, hreports, hbreaks⟩
  · exact absurd hfault no_name

end ClassGraft
