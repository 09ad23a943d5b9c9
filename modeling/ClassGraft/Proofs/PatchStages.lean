import ClassGraft.Patch.Engine
import ClassGraft.Proofs.ClassWriting

namespace ClassGraft

open Pool

namespace PatchRule

variable {r : PatchRule} {context : PatchContext} {symbols : SymbolTable} {settings : Settings}
  {c c' : ClassModel}

/-- The class behind the class patch of a rule. -/
def patchClass (r : PatchRule) (context : PatchContext) (c : ClassModel) : Except PatchError ClassModel :=
  match r.classPatch with
  | some patch => (patch context c).mapError (r.explain c.displayName c.displayName)
  | none => .ok c

/-- The class behind the class patch of a rule and some of its procedures. -/
def editedBy (r : PatchRule) (context : PatchContext) (c : ClassModel) (ps : List Procedure) :
    Except PatchError ClassModel :=
  r.patchClass context c >>= fun c₁ => ps.foldlM (r.runProcedure context c.displayName) c₁

theorem apply_eq (r : PatchRule) (symbols : SymbolTable) (settings : Settings) (c : ClassModel) :
    r.apply symbols settings c = r.editedBy ⟨symbols, settings, c.name⟩ c r.procedures >>= fun c' =>
      r.tryMethods c.displayName c'.methods >>= fun _ => .ok c' := by
  unfold apply editedBy patchClass
  cases r.classPatch with
  | none => rfl
  | some patch =>
    dsimp only
    cases patch ⟨symbols, settings, c.name⟩ c <;> rfl

theorem patchClass_none (h : r.classPatch = none) : r.patchClass context c = .ok c := by
  rw [patchClass, h]

/-- A method is edited by a procedure once its editing has begun. -/
theorem patchMethod_begun {p : Procedure} {m m' : Method} {b : Body} {i : Nat} (hm : c.methods[i]? = some m)
    (hbegin : m.beginEdit = .ok m') (hb : m'.body? = some b) (className : String) :
    r.patchMethod context className p c i = ((p.apply context b).mapError (r.explain className m'.displayName)).map
      fun b' => c.setMethod i (m'.withBody b') := by
  simp only [patchMethod, hm, hbegin, Except.mapError, except_ok_bind, hb]
  cases p.apply context b <;> rfl

/-- A procedure looks at the only method of a class if that has the name that it asks for. -/
theorem runProcedure_only {p : Procedure} {m : Method} (hm : c.methods = [m])
    (hname : context.symbols.resolveMember .method r.target p.method = .ok m.name) (className : String) :
    r.runProcedure context className c p = r.patchMethod context className p c 0 := by
  have hnamed : c.methodsNamed m.name.text = [0] := by simp [ClassModel.methodsNamed, hm]
  simp only [runProcedure, hname, except_ok_bind, hnamed, List.isEmpty_cons, Bool.false_and,
    Bool.false_eq_true, ↓reduceIte, List.foldlM_cons, List.foldlM_nil]
  cases r.patchMethod context className p c 0 <;> rfl

/-- A rule of one procedure does what that does. -/
theorem editedBy_single (hr : r.classPatch = none) (p : Procedure) :
    r.editedBy context c [p] = r.runProcedure context c.displayName c p := by
  rw [editedBy, patchClass_none hr, except_ok_bind, List.foldlM_cons]
  cases r.runProcedure context c.displayName c p <;> rfl

/-- A rule of one procedure edits the only method of a class. -/
theorem editedBy_only {p : Procedure} {m m' : Method} {b b' : Body} (hr : r.classPatch = none)
    (hm : c.methods = [m]) (hname : context.symbols.resolveMember .method r.target p.method = .ok m.name)
    (hbegin : m.beginEdit = .ok m') (hb : m'.body? = some b) (hpatch : p.apply context b = .ok b') :
    r.editedBy context c [p] = .ok (c.setMethod 0 (m'.withBody b')) := by
  rw [editedBy_single hr, runProcedure_only hm hname, patchMethod_begun (by rw [hm]; rfl) hbegin hb, hpatch]
  rfl

/-- A rule of one procedure fails as that does. -/
theorem apply_single_fails {p : Procedure} {err : PatchError} (hr : r.classPatch = none)
    (hp : r.procedures = [p])
    (h : r.runProcedure ⟨symbols, settings, c.name⟩ c.displayName c p = .error err) :
    r.apply symbols settings c = .error err := by
  rw [apply_eq, hp, editedBy_single hr, h]
  rfl

/-- A rule of one procedure fails where no method has the name that it asks for. -/
theorem apply_unnamed {p : Procedure} {name : MemberName} (hr : r.classPatch = none)
    (hp : r.procedures = [p]) (hrequired : p.isRequired = true)
    (hname : symbols.resolveMember .method r.target p.method = .ok name)
    (hnone : c.methodsNamed name.text = []) : r.apply symbols settings c =
      .error (.targetMissing c.displayName r.name s!"method {p.method}") := by
  refine apply_single_fails hr hp ?_
  simp only [runProcedure, hname, except_ok_bind, hnone, hrequired, List.isEmpty_nil, Bool.and_self,
    ↓reduceIte]
  rfl

/-- A rule of one procedure fails where that fails on the only method. -/
theorem apply_only_fails {p : Procedure} {m m' : Method} {b : Body} {fault : PatchFault}
    (hr : r.classPatch = none) (hp : r.procedures = [p]) (hm : c.methods = [m])
    (hname : symbols.resolveMember .method r.target p.method = .ok m.name)
    (hbegin : m.beginEdit = .ok m') (hb : m'.body? = some b)
    (hpatch : p.apply ⟨symbols, settings, c.name⟩ b = .error fault) : r.apply symbols settings c =
      .error (r.explain c.displayName m'.displayName fault) := by
  refine apply_single_fails hr hp ?_
  rw [runProcedure_only hm hname, patchMethod_begun (by rw [hm]; rfl) hbegin hb, hpatch]
  rfl

/-- The class patch of a rule keeps a property of classes. -/
def Keeps (r : PatchRule) (P : ClassModel → Prop) : Prop :=
  ∀ patch, r.classPatch = some patch → ∀ context c c', P c → patch context c = .ok c' → P c'

theorem Keeps.of_none {P : ClassModel → Prop} (h : r.classPatch = none) : r.Keeps P := by
  intro patch hpatch
  rw [h] at hpatch
  cases hpatch

theorem Keeps.patchClass {P : ClassModel → Prop} (h : r.Keeps P) (hc : P c)
    (hrun : r.patchClass context c = .ok c') : P c' := by
  unfold PatchRule.patchClass at hrun
  split at hrun
  next patch hpatch => exact h patch hpatch context c c' hc (except_mapError_ok.mp hrun)
  next => cases hrun; exact hc

end PatchRule

namespace SymbolTable

theorem checkComplete_ok {t : SymbolTable} {ss : List Symbol} :
    t.checkComplete ss = .ok () ↔ ∀ s ∈ ss, ∃ name, t.resolveSymbol s = .ok name := by
  induction ss with
  | nil => exact iff_of_true rfl fun _ h => absurd h List.not_mem_nil
  | cons s ss ih =>
    rw [checkComplete, except_bind_ok, List.forall_mem_cons, ← ih, exists_and_right]

end SymbolTable

namespace Engine

variable {e : Engine} {policy : FailurePolicy} {settings : Settings} {symbols : SymbolTable}
  {rules : List PatchRule} {className name : String} {bytes : Bytes} {s s' : PatchRun}
  {t : Transformation} {p : Prepared} {r : PatchRule} {c c' : ClassModel} {err : PatchError}

theorem make_ok : make policy settings symbols rules = .ok e ↔
    (∀ r ∈ rules, ∀ x ∈ r.requiredSymbols, ∃ n, symbols.resolveSymbol x = .ok n) ∧
      e = ⟨policy, settings, symbols, rules⟩ := by
  unfold make
  rw [except_bind_ok]
  constructor
  · rintro ⟨⟨⟩, hc, h⟩
    cases h
    exact ⟨fun r hr x hx =>
      SymbolTable.checkComplete_ok.mp hc x (List.mem_flatMap.mpr ⟨r, hr, hx⟩), rfl⟩
  · rintro ⟨hr, rfl⟩
    refine ⟨(), SymbolTable.checkComplete_ok.mpr fun x hx => ?_, rfl⟩
    obtain ⟨r, hmem, hx⟩ := List.mem_flatMap.mp hx
    exact hr r hmem x hx

/-- A rule succeeds, or it is skipped and the class stays as it is. -/
theorem applyRules_cons (h : e.applyRules (r :: rules) s = .ok s') :
    (∃ c, r.apply e.symbols e.settings s.model = .ok c ∧
      e.applyRules rules ⟨c, s.applied ++ [r.name], s.skipped⟩ = .ok s') ∨
    (∃ err, r.apply e.symbols e.settings s.model = .error err ∧ e.policy = .failOpen ∧
      e.applyRules rules ⟨s.model, s.applied, s.skipped ++ [err]⟩ = .ok s') := by
  rw [applyRules] at h
  split at h
  next c hc => exact .inl ⟨c, hc, h⟩
  next err he =>
    split at h
    next hskip =>
      obtain ⟨-, hp⟩ := Bool.and_eq_true_iff.mp hskip
      exact .inr ⟨err, he, of_decide_eq_true hp, h⟩
    next => cases h

theorem applyRules_success (h : r.apply e.symbols e.settings s.model = .ok c) :
    e.applyRules (r :: rules) s = e.applyRules rules ⟨c, s.applied ++ [r.name], s.skipped⟩ := by
  rw [applyRules, h]

theorem applyRules_skip (h : r.apply e.symbols e.settings s.model = .error err)
    (hm : err.isTargetMissing = true) (hp : e.policy = .failOpen) :
    e.applyRules (r :: rules) s = e.applyRules rules ⟨s.model, s.applied, s.skipped ++ [err]⟩ := by
  rw [applyRules, h]
  dsimp only
  rw [hm, hp]
  rfl

theorem applyRules_failure (h : r.apply e.symbols e.settings s.model = .error err)
    (hstop : err.isTargetMissing = false ∨ e.policy = .failClosed) :
    e.applyRules (r :: rules) s = .error ⟨err, s.skipped⟩ := by
  rw [applyRules, h]
  rcases hstop with hm | hp
  · simp [hm]
  · simp [hp]

/-- What each rule keeps of a class, a run of them keeps. A rule that is rolled back leaves the class. -/
theorem applyRules_keeps {P : ClassModel → Prop}
    (hr : ∀ r ∈ rules, ∀ c c', P c → r.apply e.symbols e.settings c = .ok c' → P c') (hs : P s.model)
    (h : e.applyRules rules s = .ok s') : P s'.model := by
  induction rules generalizing s with
  | nil => cases h; exact hs
  | cons r rs ih =>
    obtain ⟨hr, hrs⟩ := List.forall_mem_cons.mp hr
    rcases applyRules_cons h with ⟨c, hc, h⟩ | ⟨err, -, -, h⟩
    · exact ih hrs (s := ⟨c, s.applied ++ [r.name], s.skipped⟩) (hr _ c hs hc) h
    · exact ih hrs (s := ⟨s.model, s.applied, s.skipped ++ [err]⟩) hs h

/-- Rules are applied to a class that is not marked, and the class is then marked with those that were. -/
def Marks (e : Engine) (className : String) (rules : List PatchRule) (bytes : Bytes) (s : PatchRun)
    (c' : ClassModel) : Prop :=
  ∃ c methods, ClassModel.parse bytes = .ok c ∧
    c.attribute? e.settings.markerAttribute.text = none ∧
    e.applyRules rules ⟨e.labelNames c, [], []⟩ = .ok s ∧ s.applied ≠ [] ∧
    validateMethods className (String.intercalate "," s.applied) s.model.methods = .ok methods ∧
    e.mark { s.model with methods } s.applied = .ok c'

/-- This class file is what the marked class is written as. -/
def Writes (e : Engine) (className : String) (rules : List PatchRule) (bytes : Bytes) (s : PatchRun)
    (f : ClassFile) : Prop :=
  ∃ c', e.Marks className rules bytes s c' ∧ c'.finish = .ok f

/-- The marked class follows from the rules and the class. -/
theorem Marks.unique {d d' : ClassModel} (h : e.Marks className rules bytes s d)
    (h' : e.Marks className rules bytes s' d') : s' = s ∧ d' = d := by
  obtain ⟨c, methods, hc, -, hs, -, hm, hd⟩ := h
  obtain ⟨c', methods', hc', -, hs', -, hm', hd'⟩ := h'
  cases hc.symm.trans hc'
  cases hs.symm.trans hs'
  cases hm.symm.trans hm'
  cases hd.symm.trans hd'
  exact ⟨rfl, rfl⟩

theorem Writes.unique {f f' : ClassFile} (h : e.Writes className rules bytes s f)
    (h' : e.Writes className rules bytes s' f') : s' = s ∧ f' = f := by
  obtain ⟨d, hd, hf⟩ := h
  obtain ⟨d', hd', hf'⟩ := h'
  obtain ⟨rfl, rfl⟩ := hd.unique hd'
  cases hf.symm.trans hf'
  exact ⟨rfl, rfl⟩

theorem Marks.rules_ne (h : e.Marks className rules bytes s c') : rules ≠ [] := by
  rintro rfl
  obtain ⟨c, methods, -, -, hs, ha, -⟩ := h
  cases hs
  exact ha rfl

/-- Marking is a change of the class, so that it is written anew. -/
theorem mark_modified {applied : List String} (h : e.mark c applied = .ok c') : c'.isModified = true := by
  obtain ⟨⟨indices, c₁⟩, -, h⟩ := except_bind_ok.mp h
  obtain ⟨i, p, -, rfl⟩ := ClassModel.setAttribute_ok h
  rfl

theorem mark_one {rule : String} {i j : PoolIndex} {p q : Pool}
    (hi : internUtf8 rule c.file.pool = (.ok i, p))
    (hj : internUtf8 e.settings.markerAttribute.text p = (.ok j, q)) : e.mark c [rule] = .ok { c with
      file := { c.file with
        pool := q
        attributes := Attribute.setIn ⟨j, Write.counted Write.u16 [i]⟩ c.file.attributes }
      membersModified := true } := by
  have hnames : [rule].mapM internUtf8 c.file.pool = (.ok [i], p) := by
    rw [List.mapM_cons, List.mapM_nil]
    exact run_bind_ok.mpr ⟨i, p, hi, rfl⟩
  refine except_bind_ok.mpr ⟨([i], _), ClassModel.withPool_ok.mpr ⟨p, hnames, rfl⟩, ?_⟩
  exact except_bind_ok.mpr ⟨(j, _), ClassModel.withPool_ok.mpr ⟨q, hj, rfl⟩, rfl⟩

theorem Marks.toBytes (h : e.Marks className rules bytes s c') :
    c'.toBytes = c'.finish.map ClassFile.write := by
  obtain ⟨_, _, -, -, -, -, -, hmark⟩ := h
  exact ClassModel.toBytes_modified (mark_modified hmark)

/-- What the rules make of a class that is not rejected. -/
inductive Prepares (e : Engine) (className : String) (rules : List PatchRule) (bytes : Bytes) :
    Prepared → Prop
  | left {c : ClassModel} : ClassModel.parse bytes = .ok c →
      (c.attribute? e.settings.markerAttribute.text).isSome →
      Prepares e className rules bytes (.untouched [])
  | unchanged {c : ClassModel} {s : PatchRun} : ClassModel.parse bytes = .ok c →
      c.attribute? e.settings.markerAttribute.text = none →
      e.applyRules rules ⟨e.labelNames c, [], []⟩ = .ok s → s.applied = [] →
      Prepares e className rules bytes (.untouched s.skipped)
  | marked {s : PatchRun} {c' : ClassModel} : e.Marks className rules bytes s c' →
      Prepares e className rules bytes (.marked s c')

theorem prepare_ok : e.prepare className rules bytes = .ok p ↔ e.Prepares className rules bytes p := by
  unfold prepare
  simp only [except_bind_ok, except_mapError_ok]
  constructor
  · rintro ⟨c, hc, h⟩
    split at h
    next hm => cases h; exact .left hc hm
    next hm =>
      have hnone : c.attribute? e.settings.markerAttribute.text = none := by simpa using hm
      obtain ⟨s, hs, h⟩ := except_bind_ok.mp h
      split at h
      next ha => cases h; exact .unchanged hc hnone hs (List.isEmpty_iff.mp ha)
      next ha =>
        simp only [except_bind_ok, except_mapError_ok] at h
        obtain ⟨methods, hv, c', hmark, h⟩ := h
        cases h
        exact .marked ⟨c, methods, hc, hnone, hs, fun he => ha (List.isEmpty_iff.mpr he), hv, hmark⟩
  · intro h
    cases h with
    | @left c hc hm => exact ⟨c, hc, by rw [if_pos hm]; rfl⟩
    | @unchanged c s hc hm hs ha =>
      refine ⟨c, hc, ?_⟩
      rw [if_neg (by simp [hm])]
      exact except_bind_ok.mpr ⟨s, hs, by rw [if_pos (List.isEmpty_iff.mpr ha)]; rfl⟩
    | @marked s c' hw =>
      obtain ⟨c, methods, hc, hm, hs, ha, hv, hmark⟩ := hw
      refine ⟨c, hc, ?_⟩
      rw [if_neg (by simp [hm])]
      refine except_bind_ok.mpr ⟨s, hs, ?_⟩
      rw [if_neg fun he => ha (List.isEmpty_iff.mp he)]
      simp only [except_bind_ok, except_mapError_ok]
      exact ⟨methods, hv, c', hmark, rfl⟩

/-- What a run that is not rejected gives. -/
inductive Ends (e : Engine) (className : String) (rules : List PatchRule) (bytes : Bytes) :
    Transformation → Prop
  | marked {c : ClassModel} : ClassModel.parse bytes = .ok c →
      (c.attribute? e.settings.markerAttribute.text).isSome →
      Ends e className rules bytes (.untouched className bytes [])
  | unchanged {c : ClassModel} {s : PatchRun} : ClassModel.parse bytes = .ok c →
      c.attribute? e.settings.markerAttribute.text = none →
      e.applyRules rules ⟨e.labelNames c, [], []⟩ = .ok s → s.applied = [] →
      Ends e className rules bytes (.untouched className bytes s.skipped)
  | patched {s : PatchRun} {f : ClassFile} : e.Writes className rules bytes s f →
      Ends e className rules bytes ⟨className, .emitted, f.write, s.applied, s.skipped, none⟩

theorem Marks.write (h : e.Marks className rules bytes s c') :
    Prepared.write className bytes (.marked s c') =
      match c'.finish with
      | .ok f => .ok ⟨className, .emitted, f.write, s.applied, s.skipped, none⟩
      | .error h => .error (h.map fun cause => ⟨.classFormat className cause, s.skipped⟩) := by
  rw [Prepared.write, h.toBytes]
  cases c'.finish <;> rfl

theorem patch_ok : e.patch className rules bytes = .ok t ↔ e.Ends className rules bytes t := by
  unfold patch
  rw [except_bind_ok]
  simp only [liftM_ok, prepare_ok]
  constructor
  · rintro ⟨p, hp, h⟩
    cases hp with
    | left hc hm => cases h; exact .marked hc hm
    | unchanged hc hm hs ha => cases h; exact .unchanged hc hm hs ha
    | @marked s c' hmarks =>
      rw [hmarks.write] at h
      cases hf : c'.finish with
      | ok f => rw [hf] at h; cases h; exact .patched ⟨c', hmarks, hf⟩
      | error _ => rw [hf] at h; cases h
  · intro h
    cases h with
    | marked hc hm => exact ⟨_, .left hc hm, rfl⟩
    | unchanged hc hm hs ha => exact ⟨_, .unchanged hc hm hs ha, rfl⟩
    | patched hw =>
      obtain ⟨c', hmarks, hf⟩ := hw
      exact ⟨_, .marked hmarks, by rw [hmarks.write, hf]⟩

/-- A run that is not rejected tells what was skipped. -/
theorem Ends.prepared (h : e.Ends className rules bytes t) : ∃ p, e.prepare className rules bytes = .ok p ∧
    p.skipped = t.skipped ∧ t.rejection = none := by
  cases h with
  | marked hc hm => exact ⟨_, prepare_ok.mpr (.left hc hm), rfl, rfl⟩
  | unchanged hc hm hs ha => exact ⟨_, prepare_ok.mpr (.unchanged hc hm hs ha), rfl, rfl⟩
  | patched hw =>
    obtain ⟨c', hmarks, -⟩ := hw
    exact ⟨_, prepare_ok.mpr (.marked hmarks), rfl, rfl⟩

/-- A class is rejected before it is written, or because it cannot be written. -/
theorem patch_rejects {x : Rejection} : e.patch className rules bytes = .error (.error x) ↔
    e.prepare className rules bytes = .error x ∨ ∃ s c' cause, e.Marks className rules bytes s c' ∧
      c'.finish = .error (.error cause) ∧ x = ⟨.classFormat className cause, s.skipped⟩ := by
  unfold patch
  rw [except_bind_error]
  simp only [liftM_ok, liftM_error, Halt.error.injEq, exists_eq_right, prepare_ok]
  refine or_congr_right ⟨?_, ?_⟩
  · rintro ⟨p, hp, h⟩
    cases hp with
    | left => cases h
    | unchanged => cases h
    | @marked s c' hmarks =>
      rw [hmarks.write] at h
      cases hf : c'.finish with
      | ok f => rw [hf] at h; cases h
      | error halt =>
        rw [hf] at h
        obtain ⟨cause, rfl, rfl⟩ := Halt.map_eq_error.mp (Except.error.inj h)
        exact ⟨s, c', cause, hmarks, hf, rfl⟩
  · rintro ⟨s, c', cause, hmarks, hf, rfl⟩
    exact ⟨_, .marked hmarks, by rw [hmarks.write, hf]; rfl⟩

/-- A run is stopped only while a marked class is written. -/
theorem patch_stops : (∃ h, Halt.IsStop h ∧ e.patch className rules bytes = .error h) ↔
    ∃ s c' h, e.Marks className rules bytes s c' ∧ Halt.IsStop h ∧ c'.finish = .error h := by
  unfold patch
  simp only [except_bind_error, liftM_ok, liftM_error, prepare_ok]
  constructor
  · rintro ⟨h, hstop, ⟨x, -, rfl⟩ | ⟨p, hp, hwrite⟩⟩
    · exact hstop.elim
    · cases hp with
      | left => cases hwrite
      | unchanged => cases hwrite
      | @marked s c' hmarks =>
        rw [hmarks.write] at hwrite
        cases hf : c'.finish with
        | ok f => rw [hf] at hwrite; cases hwrite
        | error halt =>
          rw [hf] at hwrite
          cases hwrite
          exact ⟨s, c', halt, hmarks, Halt.isStop_map.mp hstop, hf⟩
  · rintro ⟨s, c', h, hmarks, hstop, hf⟩
    exact ⟨_, Halt.isStop_map.mpr hstop, .inr ⟨_, .marked hmarks, by rw [hmarks.write, hf]⟩⟩

theorem transform_none (h : e.rulesFor (normalizeName name) = []) :
    e.transform name bytes = .ok (.untouched (normalizeName name) bytes []) := by
  simp only [transform, h]

theorem transform_some (h : e.rulesFor (normalizeName name) ≠ []) : e.transform name bytes =
    e.answer (normalizeName name) bytes
      (e.patch (normalizeName name) (e.rulesFor (normalizeName name)) bytes) := by
  unfold transform
  dsimp only
  split
  next hnil => exact absurd hnil h
  next => rfl

theorem answer_ok {x : Except (Halt Rejection) Transformation} (h : e.answer className bytes x = .ok t) :
    x = .ok t ∨ ∃ r : Rejection, e.policy = .failOpen ∧ x = .error (.error r) ∧
      t = ⟨className, .rejected, bytes, [], r.skipped, some r.error⟩ := by
  unfold answer at h
  split at h
  next => cases h; exact .inl rfl
  next r =>
    cases hpolicy : e.policy with
    | failOpen => rw [hpolicy] at h; cases h; exact .inr ⟨r, rfl, rfl, rfl⟩
    | failClosed => rw [hpolicy] at h; cases h
  next => cases h

theorem answer_error {x : Except (Halt Rejection) Transformation}
    (h : e.answer className bytes x = .error (.error err)) :
    e.policy = .failClosed ∧ ∃ r : Rejection, x = .error (.error r) ∧ r.error = err := by
  unfold answer at h
  split at h
  next => cases h
  next r =>
    cases hpolicy : e.policy with
    | failOpen => rw [hpolicy] at h; cases h
    | failClosed => rw [hpolicy] at h; cases h; exact ⟨rfl, r, rfl, rfl⟩
  next halt hother =>
    obtain ⟨r, rfl, -⟩ := Halt.map_eq_error.mp (Except.error.inj h)
    exact absurd rfl (hother r)

theorem answer_open {r : Rejection} (h : e.policy = .failOpen) : e.answer className bytes (.error (.error r)) =
    .ok ⟨className, .rejected, bytes, [], r.skipped, some r.error⟩ := by
  rw [answer, h]

theorem answer_stop {halt : Halt Rejection} (h : halt.IsStop) :
    e.answer className bytes (.error halt) = .error (halt.map Rejection.error) := by
  cases halt with
  | error r => exact h.elim
  | _ => rfl

theorem answer_stops {x : Except (Halt Rejection) Transformation} :
    (∃ h, Halt.IsStop h ∧ e.answer className bytes x = .error h) ↔ ∃ h, Halt.IsStop h ∧ x = .error h := by
  constructor
  · rintro ⟨h, hstop, hanswer⟩
    unfold answer at hanswer
    split at hanswer
    next => cases hanswer
    next r => cases hpolicy : e.policy <;> rw [hpolicy] at hanswer <;> cases hanswer; exact hstop.elim
    next halt _ =>
      cases hanswer
      exact ⟨halt, Halt.isStop_map.mp hstop, rfl⟩
  · rintro ⟨h, hstop, rfl⟩
    exact ⟨_, Halt.isStop_map.mpr hstop, answer_stop hstop⟩

/-- A result comes from a class that no rule is for, from the rules, or from a rejection. -/
theorem transform_cases (h : e.transform name bytes = .ok t) :
    (e.rulesFor (normalizeName name) = [] ∧ t = .untouched (normalizeName name) bytes []) ∨
    e.Ends (normalizeName name) (e.rulesFor (normalizeName name)) bytes t ∨
    ∃ r : Rejection, e.policy = .failOpen ∧
      e.patch (normalizeName name) (e.rulesFor (normalizeName name)) bytes = .error (.error r) ∧
      t = ⟨normalizeName name, .rejected, bytes, [], r.skipped, some r.error⟩ := by
  by_cases hnil : e.rulesFor (normalizeName name) = []
  · rw [transform_none hnil] at h
    cases h
    exact .inl ⟨hnil, rfl⟩
  · rw [transform_some hnil] at h
    exact .inr ((answer_ok h).imp_left patch_ok.mp)

/-- An error is returned where failures are not tolerated. -/
theorem transform_error (h : e.transform name bytes = .error (.error err)) : e.policy = .failClosed ∧
    ∃ r : Rejection, e.patch (normalizeName name) (e.rulesFor (normalizeName name)) bytes =
      .error (.error r) ∧ r.error = err := by
  have hsome : e.rulesFor (normalizeName name) ≠ [] := by
    intro hnil
    cases h.symm.trans (transform_none hnil)
  rw [transform_some hsome] at h
  exact answer_error h

/-- There is no answer where the writing of a marked class is stopped. -/
theorem transform_stops : (∃ h, Halt.IsStop h ∧ e.transform name bytes = .error h) ↔
    ∃ s c' h, e.Marks (normalizeName name) (e.rulesFor (normalizeName name)) bytes s c' ∧
      Halt.IsStop h ∧ c'.finish = .error h := by
  by_cases hnil : e.rulesFor (normalizeName name) = []
  · rw [transform_none hnil, hnil]
    exact iff_of_false (fun ⟨_, _, h⟩ => nomatch h) fun ⟨_, _, _, hmarks, _⟩ => hmarks.rules_ne rfl
  · rw [transform_some hnil, answer_stops, patch_stops]

/-- Without rules nothing happens. -/
theorem Ends.of_nil (h : e.Ends className [] bytes t) : t = .untouched className bytes [] := by
  cases h with
  | marked => rfl
  | unchanged _ _ hs _ => cases hs; rfl
  | patched hw =>
    obtain ⟨c', hmarks, -⟩ := hw
    exact absurd rfl hmarks.rules_ne

theorem transform_ends
    (h : e.Ends (normalizeName name) (e.rulesFor (normalizeName name)) bytes t) :
    e.transform name bytes = .ok t := by
  by_cases hnil : e.rulesFor (normalizeName name) = []
  · rw [hnil] at h
    rw [transform_none hnil, h.of_nil]
  · rw [transform_some hnil, patch_ok.mpr h]
    rfl

end Engine

end ClassGraft
