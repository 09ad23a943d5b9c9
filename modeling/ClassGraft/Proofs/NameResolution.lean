import ClassGraft.Proofs.CoveredRules
import ClassGraft.Proofs.PatchStages
import ClassGraft.Proofs.SiteValidation
import Mathlib

namespace ClassGraft

namespace PatchRule

variable {r : PatchRule} {symbols : SymbolTable} {context : PatchContext} {className : String}

theorem explain_naming (r : PatchRule) (className method : String) (f : PatchFault) :
    (r.explain className method f).isNaming = f.isNaming := by
  cases f <;> rfl

theorem patchMethod_avoids {p : Procedure} (c : ClassModel) (i : Nat)
    (hp : ∀ b, Avoids PatchFault.isNaming (p.apply context b)) :
    Avoids PatchError.isNaming (r.patchMethod context className p c i) := by
  unfold patchMethod
  split
  next => exact .ok c
  next m _ =>
    refine .bind (.mapError fun _ _ => rfl) fun m _ => ?_
    split
    next => exact .ite (.error rfl) (.ok c)
    next body _ =>
      refine .bind (.mapError fun f hf => ?_) fun b _ => .ok _
      exact (r.explain_naming _ _ f).trans (hp body f hf)

theorem runProcedure_avoids {p : Procedure} (c : ClassModel)
    (hname : ∃ n, context.symbols.resolveMember .method r.target p.method = .ok n)
    (hp : ∀ b, Avoids PatchFault.isNaming (p.apply context b)) :
    Avoids PatchError.isNaming (r.runProcedure context className c p) := by
  obtain ⟨n, hn⟩ := hname
  have hrun (positions : List Nat) :
      Avoids PatchError.isNaming (positions.foldlM (r.patchMethod context className p) c) :=
    .foldlM (fun i _ c => patchMethod_avoids c i hp) c
  unfold runProcedure
  refine .bind (.known hn) fun _ _ => ?_
  exact .ite (.bind (.error rfl) fun _ _ => hrun _) (hrun _)

theorem tryMethods_avoids (ms : List Method) :
    Avoids PatchError.isNaming (r.tryMethods className ms) := by
  induction ms with
  | nil => exact .ok ()
  | cons m ms ih =>
    rw [tryMethods]
    split
    next => exact ih
    next => exact .error rfl

/-- A rule that covers what it resolves is never stopped by a name. -/
theorem apply_avoids (hr : r.Covers) (hs : r.Resolves symbols) (settings : Settings) (c : ClassModel) :
    Avoids PatchError.isNaming (r.apply symbols settings c) := by
  have hprocedures (c₁ : ClassModel) : Avoids PatchError.isNaming
      (r.procedures.foldlM (r.runProcedure ⟨symbols, settings, c.name⟩ c.displayName) c₁) := by
    refine .foldlM (fun p hp c₂ => runProcedure_avoids c₂ ?_ fun b => hr.procedures p hp _ b hs) c₁
    refine SymbolTable.resolveMember_of_symbol (hs _ ?_)
    exact List.mem_append_left _ (List.mem_cons_of_mem _ (List.mem_map_of_mem hp))
  have hrest (c₁ : ClassModel) : Avoids PatchError.isNaming (do
      let c₂ ← r.procedures.foldlM (r.runProcedure ⟨symbols, settings, c.name⟩ c.displayName) c₁
      r.tryMethods c.displayName c₂.methods
      return c₂) :=
    .bind (hprocedures c₁) fun _ _ => .bind (tryMethods_avoids _) fun _ _ => .ok _
  unfold apply
  dsimp only
  split
  next patch hpatch =>
    refine .bind (.mapError fun f hf => ?_) fun c₁ _ => hrest c₁
    exact (r.explain_naming _ _ f).trans (hr.classPatch patch hpatch _ c hs f hf)
  next => exact .bind (.ok c) fun c₁ _ => hrest c₁

end PatchRule

/-- One of the errors that a rejection tells of is about a name. -/
def Rejection.isNaming (r : Rejection) : Bool := (r.error :: r.skipped).any PatchError.isNaming

namespace Engine

variable {e : Engine} {rules : List PatchRule} {s : PatchRun} {className name : String} {bytes : Bytes}
  {t : Transformation} {policy : FailurePolicy} {settings : Settings} {symbols : SymbolTable}

theorem rejection_naming {err : PatchError} {skipped : List PatchError}
    (herr : err.isNaming = false) (hskipped : skipped.any PatchError.isNaming = false) :
    Rejection.isNaming ⟨err, skipped⟩ = false := by
  rw [Rejection.isNaming, List.any_cons, herr, hskipped]
  rfl

/-- Rules that are not stopped by names skip no error that is about one. -/
theorem applyRules_avoids
    (hr : ∀ r ∈ rules, ∀ c, Avoids PatchError.isNaming (r.apply e.symbols e.settings c))
    (hs : s.skipped.any PatchError.isNaming = false) :
    Avoids Rejection.isNaming (e.applyRules rules s) ∧
      ∀ s', e.applyRules rules s = .ok s' → s'.skipped.any PatchError.isNaming = false := by
  induction rules generalizing s with
  | nil =>
    refine ⟨.ok s, fun s' h => ?_⟩
    cases h
    exact hs
  | cons r rs ih =>
    obtain ⟨hr, hrs⟩ := List.forall_mem_cons.mp hr
    rw [applyRules]
    split
    next model _ => exact ih (s := ⟨model, s.applied ++ [r.name], s.skipped⟩) hrs hs
    next err herr =>
      have hname := hr s.model err herr
      split
      next =>
        refine ih (s := ⟨s.model, s.applied, s.skipped ++ [err]⟩) hrs ?_
        simp [List.any_append, hs, hname]
      next =>
        refine ⟨.error (rejection_naming hname hs), fun s' h => ?_⟩
        cases h

theorem validateMethods_avoids (className rule : String) (ms : List Method) :
    Avoids PatchError.isNaming (validateMethods className rule ms) := by
  induction ms with
  | nil => exact .ok []
  | cons m ms ih =>
    rw [validateMethods]
    exact .bind (.mapError fun _ _ => rfl) fun _ _ => .bind ih fun _ _ => .ok _

theorem prepare_avoids
    (hr : ∀ r ∈ rules, ∀ c, Avoids PatchError.isNaming (r.apply e.symbols e.settings c)) :
    Avoids Rejection.isNaming (e.prepare className rules bytes) ∧
      ∀ p, e.prepare className rules bytes = .ok p → p.skipped.any PatchError.isNaming = false := by
  have hrun (c : ClassModel) := applyRules_avoids (s := ⟨e.labelNames c, [], []⟩) hr rfl
  constructor
  · unfold prepare
    refine .bind (.mapError fun cause _ => by cases cause <;> rfl) fun c _ => ?_
    refine .ite (.ok _) (.bind (hrun c).1 fun s hs => ?_)
    have hskipped := (hrun c).2 s hs
    refine .ite (.ok _) (.bind (.mapError fun err herr => ?_) fun methods _ => ?_)
    · exact rejection_naming (validateMethods_avoids _ _ _ err herr) hskipped
    · exact .bind (.mapError fun _ _ => rejection_naming rfl hskipped) fun _ _ => .ok _
  · intro p hp
    cases prepare_ok.mp hp with
    | left => rfl
    | unchanged _ _ hs _ => exact (hrun _).2 _ hs
    | marked hmarks =>
      obtain ⟨c, methods, -, -, hs, -⟩ := hmarks
      exact (hrun c).2 _ hs

theorem patch_avoids
    (hr : ∀ r ∈ rules, ∀ c, Avoids PatchError.isNaming (r.apply e.symbols e.settings c)) {x : Rejection}
    (hx : e.patch className rules bytes = .error (.error x)) : x.isNaming = false := by
  obtain ⟨hfail, hok⟩ : Avoids Rejection.isNaming (e.prepare className rules bytes) ∧ _ :=
    prepare_avoids hr
  rcases patch_rejects.mp hx with hprepare | ⟨s, c', cause, hmarks, -, rfl⟩
  · exact hfail x hprepare
  · exact rejection_naming rfl (hok _ (prepare_ok.mpr (.marked hmarks)))

theorem transform_avoids
    (hr : ∀ r ∈ e.rules, ∀ c, Avoids PatchError.isNaming (r.apply e.symbols e.settings c)) :
    (∀ err, e.transform name bytes = .error (.error err) → err.isNaming = false) ∧
      ∀ t, e.transform name bytes = .ok t →
        ∀ err ∈ t.skipped ++ t.rejection.toList, err.isNaming = false := by
  have hclean {errs : List PatchError} (h : errs.any PatchError.isNaming = false) :
      ∀ err ∈ errs, err.isNaming = false := by
    simpa using h
  have hrules : ∀ r ∈ e.rulesFor (normalizeName name), ∀ c,
      Avoids PatchError.isNaming (r.apply e.symbols e.settings c) :=
    fun r hmem => hr r (List.mem_filter.mp hmem).1
  constructor
  · intro err herr
    obtain ⟨-, x, hx, rfl⟩ := transform_error herr
    exact hclean (patch_avoids hrules hx) x.error List.mem_cons_self
  · intro t ht
    rcases transform_cases ht with ⟨-, rfl⟩ | hends | ⟨x, -, hx, rfl⟩
    · exact fun err herr => absurd herr List.not_mem_nil
    · obtain ⟨p, hp, hskipped, hrejection⟩ := hends.prepared
      rw [hrejection, Option.toList_none, List.append_nil, ← hskipped]
      exact hclean ((e.prepare_avoids hrules).2 p hp)
    · intro err herr
      refine hclean (patch_avoids hrules hx) err ?_
      rcases List.mem_append.mp herr with hskipped | hlast
      · exact List.mem_cons_of_mem _ hskipped
      · cases List.mem_singleton.mp hlast
        exact List.mem_cons_self

/-- Each shipped rule lists all symbols that it resolves: where those have mappings, it never fails over
a name that is unknown or malformed, whatever class it is applied to. So an engine of the shipped rules,
which is only made of a table that has them all, reports no such error of any class. -/
theorem shipped_names :
    (∀ r ∈ Rules.shipped, ∀ symbols, r.Resolves symbols → ∀ settings c err,
      r.apply symbols settings c = .error err → err.isNaming = false) ∧
    ∀ policy settings symbols e, make policy settings symbols Rules.shipped = .ok e → ∀ name bytes,
      (∀ err, e.transform name bytes = .error (.error err) → err.isNaming = false) ∧
      ∀ t, e.transform name bytes = .ok t →
        ∀ err ∈ t.skipped ++ t.rejection.toList, err.isNaming = false := by
  refine ⟨fun r hr symbols hs settings c => r.apply_avoids (Rules.shipped_cover r hr) hs settings c,
    fun policy settings symbols e he name bytes => ?_⟩
  obtain ⟨hresolves, rfl⟩ := make_ok.mp he
  have happly : ∀ r ∈ Rules.shipped, ∀ c, Avoids PatchError.isNaming (r.apply symbols settings c) :=
    fun r hr c => r.apply_avoids (Rules.shipped_cover r hr) (hresolves r hr) settings c
  exact transform_avoids (e := ⟨policy, settings, symbols, Rules.shipped⟩) happly

end Engine

namespace Overlay

/-- The class of the last four rules with one of their methods, which only throws. -/
def source : Bytes := [0xCA, 0xFE, 0xBA, 0xBE, 0, 0, 0, 49, 0, 6] ++
  (Constant.utf8 Rules.tabOverlay).write ++ [7, 0, 1] ++ (Constant.utf8 "func_175249_a").write ++
  (Constant.utf8 "()V").write ++ (Constant.utf8 "Code").write ++
  [0, 33, 0, 2, 0, 0, 0, 0, 0, 0, 0, 1, 0, 9, 0, 3, 0, 4, 0, 1, 0, 5, 0, 0, 0, 14,
    0, 1, 0, 0, 0, 0, 0, 2, 0x01, 0xBF, 0, 0, 0, 0, 0, 0]

def body : Body := {
  Body.empty with
  entries := #[(⟨0⟩, .insn .constNull), (⟨1⟩, .branch .athrow)]
  nextId := 2
  version := 2 }

theorem tabOverlay_valid : IsBinary Rules.tabOverlay.toList := by decide

def method : Method where
  index := 0
  flags := 9
  name := ⟨"func_175249_a", by decide⟩
  canonicalName := none
  type := ⟨[], none⟩
  owner := ⟨Rules.tabOverlay, tabOverlay_valid⟩
  entry := none
  code := some ⟨body, 1, 0, none⟩

/-- The method as it is told of. -/
def labelled : Method := { method with canonicalName := some ⟨"renderPlayerlist", by decide⟩ }

def begun : Method := {
  labelled with code := some ⟨body, 1, 0, some (body.reachable ⟨#[some 0, some 1], 1, 0⟩)⟩ }

/-- The names of a minified environment. -/
@[irreducible]
def symbols : SymbolTable :=
  (SymbolTable.ofMappings .obfuscated Rules.builtinMappings).toOption.getD (.empty .obfuscated)

def engine : Engine := ⟨.failOpen, Settings.standard, symbols, Rules.shipped⟩

theorem mapped : SymbolTable.ofMappings .obfuscated Rules.builtinMappings = .ok symbols := by
  have h : (SymbolTable.ofMappings .obfuscated Rules.builtinMappings).toOption.isSome = true := by
    decide +kernel
  unfold symbols
  generalize SymbolTable.ofMappings .obfuscated Rules.builtinMappings = x at h ⊢
  cases x with
  | error e => cases h
  | ok t => rfl

/-- What the fault tells is missing. -/
def missing? {α : Type} : Patching α → Option String
  | .error (.targetMissing what) => some what
  | _ => none

theorem missing_eq {α : Type} {x : Patching α} {what : String} (h : missing? x = some what) :
    x = .error (.targetMissing what) := by
  unfold missing? at h
  split at h
  next => cases h; rfl
  next => cases h

/-- What is looked up in the table, and what three procedures do not find in the method. -/
theorem lookups :
    (symbols.checkComplete (Rules.shipped.flatMap PatchRule.requiredSymbols)).toOption.any (fun _ => true) ∧
    Rules.shipped.map (fun r => engine.target? r == some Rules.tabOverlay) =
      [false, false, false, false, false, true, true, true, true] ∧
    symbols.canonicalClass? Rules.tabOverlay = some method.owner ∧
    symbols.canonicalMethod? Rules.tabOverlay method.name.text = labelled.canonicalName ∧
    symbols.members.lookup ⟨.method, Rules.tabOverlay, "renderPlayerlist"⟩ = some labelled.name ∧
    symbols.members.lookup ⟨.method, Rules.tabOverlay, "drawPing"⟩ = some ⟨"func_175245_a", by decide⟩ ∧
    missing? (Rules.recolorBackgrounds ⟨symbols, Settings.standard, method.owner⟩ body) =
      some "call to drawRect" ∧
    missing? (Rules.toggleHatLayer ⟨symbols, Settings.standard, method.owner⟩ body) = some "getstatic HAT" ∧
    missing? (Rules.moveTabDown ⟨symbols, Settings.standard, method.owner⟩ body) = some "return" := by
  decide +kernel

theorem made : Engine.make .failOpen Settings.standard symbols Rules.shipped = .ok engine := by
  obtain ⟨h, -⟩ := lookups
  obtain ⟨⟨⟩, hcheck, -⟩ := toOption_any.mp h
  rw [Engine.make, hcheck]
  rfl

theorem parsed : ∃ c, ClassModel.parse source = .ok c ∧ c.methods = [method] ∧ c.file.attributes = [] ∧
    c.name = method.owner := by
  have h : (ClassModel.parse source).toOption.any (fun c => decide (c.methods = [method] ∧
      c.file.attributes = [] ∧ c.name = method.owner)) = true := by decide +kernel
  obtain ⟨c, hc, hseen⟩ := toOption_any.mp h
  exact ⟨c, hc, of_decide_eq_true hseen⟩

theorem begun_eq : labelled.beginEdit = .ok begun := by
  have ha : body.analyzeStack 0 = .ok ⟨#[some 0, some 1], 1, 0⟩ :=
    Body.analyzeStack_straight (s := ⟨#[some 0, some 1], 1, 0, []⟩) rfl rfl (by cbv) rfl
  have hs : labelled.parameterSlots = 0 := by cbv
  exact Method.beginEdit_first rfl (hs ▸ ha)

theorem rulesFor_class : engine.rulesFor (normalizeName Rules.tabOverlay) = [Rules.tabOverlayColors,
    Rules.tabOverlayHatLayer, Rules.tabOverlayOffset, Rules.tabOverlayNumberPing] := by
  have hname : normalizeName Rules.tabOverlay = Rules.tabOverlay := by cbv
  obtain ⟨-, htargets, -⟩ := lookups
  simp only [Rules.shipped, List.map_cons, List.cons.injEq] at htargets
  rw [hname]
  simp only [Engine.rulesFor, engine, Rules.shipped, List.filter_cons] at htargets ⊢
  simp [htargets]

section

variable {c : ClassModel}

theorem labelNames_eq (hname : c.name = method.owner) (hmethods : c.methods = [method]) :
    (engine.labelNames c).methods = [labelled] ∧
      (engine.labelNames c).displayName = Rules.tabOverlay := by
  obtain ⟨-, -, hclass, hmethod, -⟩ := lookups
  constructor
  · rw [Engine.labelNames, hmethods, hname, List.map_singleton]
    exact congrArg (fun n => [{ method with canonicalName := n }]) hmethod
  · rw [Engine.labelNames, ClassModel.displayName, hname]
    exact congrArg (fun n => (n.getD method.owner).text) hclass

variable {r : PatchRule} {p : Procedure} {what : String}

/-- What the method with the name of a procedure does not hold is told of, with the rule and the method. -/
theorem misses (hr : r.classPatch = none) (hp : r.procedures = [p])
    (hresolved : symbols.resolveMember .method r.target p.method = .ok labelled.name)
    (hmissing : missing? (p.apply ⟨symbols, Settings.standard, method.owner⟩ body) = some what)
    (hname : c.name = method.owner) (hmethods : c.methods = [labelled])
    (hdisplay : c.displayName = Rules.tabOverlay) : r.apply symbols Settings.standard c =
      .error (.targetMissing Rules.tabOverlay r.name s!"{what} in {begun.displayName}") := by
  rw [PatchRule.apply_only_fails hr hp hmethods hresolved begun_eq rfl (hname ▸ missing_eq hmissing), hdisplay]
  rfl

theorem skips (hname : c.name = method.owner) (hmethods : c.methods = [labelled])
    (hdisplay : c.displayName = Rules.tabOverlay) :
    engine.applyRules (engine.rulesFor (normalizeName Rules.tabOverlay)) ⟨c, [], []⟩ = .ok ⟨c, [], [
      .targetMissing Rules.tabOverlay "tab-overlay-colors" "call to drawRect in renderPlayerlist",
      .targetMissing Rules.tabOverlay "tab-overlay-hat-layer" "getstatic HAT in renderPlayerlist",
      .targetMissing Rules.tabOverlay "tab-overlay-offset" "return in renderPlayerlist",
      .targetMissing Rules.tabOverlay "tab-overlay-number-ping" "method drawPing"]⟩ := by
  obtain ⟨-, -, -, -, hlist, hping, hrect, haccess, hreturn⟩ := lookups
  have hlist : symbols.resolveMember .method Rules.tabOverlay "renderPlayerlist" = .ok labelled.name := by
    rw [SymbolTable.resolveMember, hlist]
  have hping : symbols.resolveMember .method Rules.tabOverlay "drawPing" = .ok ⟨"func_175245_a", by decide⟩ := by
    rw [SymbolTable.resolveMember, hping]
  have hcolors : Rules.tabOverlayColors.apply symbols Settings.standard c = _ :=
    misses rfl rfl hlist hrect hname hmethods hdisplay
  have hhat : Rules.tabOverlayHatLayer.apply symbols Settings.standard c = _ :=
    misses rfl rfl hlist haccess hname hmethods hdisplay
  have hoffset : Rules.tabOverlayOffset.apply symbols Settings.standard c = _ :=
    misses rfl rfl hlist hreturn hname hmethods hdisplay
  have hnumber : Rules.tabOverlayNumberPing.apply symbols Settings.standard c = _ :=
    PatchRule.apply_unnamed rfl rfl rfl hping (by simp [ClassModel.methodsNamed, hmethods, labelled, method])
  rw [hdisplay] at hnumber
  rw [rulesFor_class, Engine.applyRules_skip (s := ⟨c, [], []⟩) hcolors rfl rfl,
    Engine.applyRules_skip (s := ⟨c, [], _⟩) hhat rfl rfl,
    Engine.applyRules_skip (s := ⟨c, [], _⟩) hoffset rfl rfl,
    Engine.applyRules_skip (s := ⟨c, [], _⟩) hnumber rfl rfl]
  rfl

end

end Overlay

open Overlay in
/-- Three rules look at a method and resolve what they look for, all four are skipped, and none of them over
a name. -/
theorem Overlay.names_known : ∃ symbols e t,
    SymbolTable.ofMappings .obfuscated Rules.builtinMappings = .ok symbols ∧
    Engine.make .failOpen Settings.standard symbols Rules.shipped = .ok e ∧
    e.transform Rules.tabOverlay source = .ok t ∧ t.skipped = [
      .targetMissing Rules.tabOverlay "tab-overlay-colors" "call to drawRect in renderPlayerlist",
      .targetMissing Rules.tabOverlay "tab-overlay-hat-layer" "getstatic HAT in renderPlayerlist",
      .targetMissing Rules.tabOverlay "tab-overlay-offset" "return in renderPlayerlist",
      .targetMissing Rules.tabOverlay "tab-overlay-number-ping" "method drawPing"] ∧
    ∀ err ∈ t.skipped ++ t.rejection.toList, err.isNaming = false := by
  obtain ⟨c, hc, hmethods, hattributes, hname⟩ := parsed
  obtain ⟨hlabelled, hdisplay⟩ := labelNames_eq hname hmethods
  have hunmarked : c.attribute? engine.settings.markerAttribute.text = none := by
    rw [ClassModel.attribute?, ClassFile.attribute?, hattributes]
    rfl
  have ht := Engine.transform_ends (.unchanged hc hunmarked (skips hname hlabelled hdisplay) rfl)
  exact ⟨symbols, engine, _, mapped, made, ht, rfl,
    (Engine.shipped_names.2 _ _ _ engine made Rules.tabOverlay source).2 _ ht⟩

end ClassGraft
