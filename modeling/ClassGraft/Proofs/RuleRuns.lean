import ClassGraft.Proofs.PatchStages

namespace ClassGraft

open Pool

namespace Engine

variable {e e' : Engine} {settings : Settings} {symbols : SymbolTable} {rules : List PatchRule}
  {className name : String} {bytes : Bytes} {s s' : PatchRun} {t : Transformation}

/-- The rules that succeed in turn, each on what those before it have made of the class. -/
def succeeding (e : Engine) : List PatchRule → ClassModel → List PatchRule
  | [], _ => []
  | r :: rs, c =>
    match r.apply e.symbols e.settings c with
    | .ok c' => r :: e.succeeding rs c'
    | .error _ => e.succeeding rs c

/-- The rules for a class that succeed on it. None is tried on a class that is marked or not legible. -/
def successes (e : Engine) (name : String) (bytes : Bytes) : List PatchRule :=
  match ClassModel.parse bytes with
  | .error _ => []
  | .ok c =>
    if (c.attribute? e.settings.markerAttribute.text).isSome then []
    else e.succeeding (e.rulesFor (normalizeName name)) (e.labelNames c)

theorem succeeding_sublist (rules : List PatchRule) (c : ClassModel) :
    (e.succeeding rules c).Sublist rules := by
  induction rules generalizing c with
  | nil => exact .slnil
  | cons r rs ih =>
    rw [succeeding]
    split
    next c' _ => exact (ih c').cons_cons r
    next => exact (ih c).cons r

theorem successes_sublist (e : Engine) (name : String) (bytes : Bytes) :
    (e.successes name bytes).Sublist (e.rulesFor (normalizeName name)) := by
  unfold successes
  split
  next => exact List.nil_sublist _
  next =>
    split
    next => exact List.nil_sublist _
    next => exact succeeding_sublist _ _

theorem applyRules_applied (h : e.applyRules rules s = .ok s') :
    s'.applied = s.applied ++ (e.succeeding rules s.model).map PatchRule.name := by
  induction rules generalizing s with
  | nil =>
    cases h
    simp [succeeding]
  | cons r rs ih =>
    rw [succeeding]
    rcases applyRules_cons h with ⟨c, hc, h⟩ | ⟨err, he, -, h⟩
    · rw [ih h, hc, List.map_cons, List.append_assoc]
      rfl
    · rw [ih h, he]

/-- The rules that succeed make the same of a class without those that do not, whatever is to happen when
a rule fails: none of them does. -/
theorem applyRules_succeeding (hsym : e'.symbols = e.symbols) (hset : e'.settings = e.settings)
    (h : e.applyRules rules s = .ok s') (skipped : List PatchError) :
    e'.applyRules (e.succeeding rules s.model) { s with skipped } = .ok { s' with skipped } := by
  induction rules generalizing s with
  | nil => cases h; rfl
  | cons r rs ih =>
    rw [succeeding]
    rcases applyRules_cons h with ⟨c, hc, h⟩ | ⟨err, he, -, h⟩
    · have hrest := ih h
      rw [hc]
      exact (applyRules_success (by rw [hsym, hset, hc])).trans hrest
    · have hrest := ih h
      rw [he]
      exact hrest

/-- The engine that only has the successful rules has them all for the class. -/
theorem rulesFor_successes (hsym : e'.symbols = e.symbols) (hrules : e'.rules = e.successes name bytes) :
    e'.rulesFor (normalizeName name) = e.successes name bytes := by
  unfold rulesFor
  rw [hrules]
  refine List.filter_eq_self.mpr fun r hr => ?_
  have hmem := (successes_sublist e name bytes).subset hr
  have htarget := (List.mem_filter.mp hmem).2
  unfold target? at *
  rwa [hsym]

/-- Whatever fail-open rules make of a class, the successful ones make of it alone, and none of them
fails. -/
theorem Ends.of_successes (h : e.Ends className (e.rulesFor (normalizeName name)) bytes t) (e' : Engine)
    (hsym : e'.symbols = e.symbols) (hset : e'.settings = e.settings) :
    t.applied = (e.successes name bytes).map PatchRule.name ∧
      e'.Ends className (e.successes name bytes) bytes { t with skipped := [] } := by
  have hrun {c : ClassModel} {s : PatchRun} (hc : ClassModel.parse bytes = .ok c)
      (hm : c.attribute? e.settings.markerAttribute.text = none)
      (hs : e.applyRules (e.rulesFor (normalizeName name)) ⟨e.labelNames c, [], []⟩ = .ok s) :
      s.applied = (e.successes name bytes).map PatchRule.name ∧
        e'.applyRules (e.successes name bytes) ⟨e'.labelNames c, [], []⟩ =
          .ok { s with skipped := [] } := by
    have hsucc : e.successes name bytes =
        e.succeeding (e.rulesFor (normalizeName name)) (e.labelNames c) := by
      simp only [successes, hc, hm, Option.isSome_none, Bool.false_eq_true, ↓reduceIte]
    have hlabel : e'.labelNames c = e.labelNames c := by
      unfold labelNames
      rw [hsym]
    rw [hsucc, hlabel]
    exact ⟨applyRules_applied hs, applyRules_succeeding hsym hset hs []⟩
  cases h with
  | @marked c hc hm =>
    have hsucc : e.successes name bytes = [] := by simp only [successes, hc, hm, ↓reduceIte]
    rw [hsucc]
    exact ⟨rfl, .marked hc (hset ▸ hm)⟩
  | @unchanged c s hc hm hs ha =>
    obtain ⟨happlied, hrun⟩ := hrun hc hm hs
    exact ⟨ha.symm.trans happlied, .unchanged hc (hset ▸ hm) hrun ha⟩
  | @patched s f hw =>
    obtain ⟨c', ⟨c, methods, hc, hm, hs, ha, hv, hmark⟩, hf⟩ := hw
    obtain ⟨happlied, hrun⟩ := hrun hc hm hs
    refine ⟨happlied, .patched (s := { s with skipped := [] })
      ⟨c', ⟨c, methods, hc, hset ▸ hm, hrun, ha, hv, ?_⟩, hf⟩⟩
    unfold mark at *
    rwa [hset]

/-- If a class goes on with the rules that succeed, an engine of those rules alone gives the same bytes
for it, and it succeeds even if no failure is tolerated: what was rolled back has left no trace. -/
theorem transform_successes (he : make .failOpen settings symbols rules = .ok e)
    (ht : e.transform name bytes = .ok t) (hstate : t.state = .emitted) :
    (e.successes name bytes).Sublist (e.rulesFor (normalizeName name)) ∧
    t.applied = (e.successes name bytes).map PatchRule.name ∧
    ∃ e', make .failClosed settings symbols (e.successes name bytes) = .ok e' ∧
      e'.transform name bytes = .ok { t with skipped := [] } := by
  obtain ⟨hresolve, rfl⟩ := make_ok.mp he
  have hsub := successes_sublist ⟨.failOpen, settings, symbols, rules⟩ name bytes
  let e' : Engine :=
    ⟨.failClosed, settings, symbols, successes ⟨.failOpen, settings, symbols, rules⟩ name bytes⟩
  have hmake : make .failClosed settings symbols e'.rules = .ok e' :=
    make_ok.mpr ⟨fun r hr => hresolve r (List.mem_of_mem_filter (hsub.subset hr)), rfl⟩
  have hrules : e'.rulesFor (normalizeName name) = e'.rules := rulesFor_successes rfl rfl
  refine ⟨hsub, ?_⟩
  rcases transform_cases ht with ⟨hnil, rfl⟩ | hends | ⟨r, -, -, rfl⟩
  · rw [hnil] at hsub
    have hnone : e'.rules = [] := List.sublist_nil.mp hsub
    exact ⟨(congrArg (List.map PatchRule.name) hnone).symm, e', hmake,
      transform_none (hrules.trans hnone)⟩
  · obtain ⟨happlied, hends'⟩ := hends.of_successes e' rfl rfl
    exact ⟨happlied, e', hmake, transform_ends (hrules.symm ▸ hends')⟩
  · cases hstate

end Engine

namespace TwoRules

/-- A class without members. -/
def source : Bytes := [0xCA, 0xFE, 0xBA, 0xBE, 0, 0, 0, 52, 0, 3,
  1, 0, 3, 0x61, 0x2F, 0x43, 7, 0, 1, 0, 0x21, 0, 2, 0, 0, 0, 0, 0, 0, 0, 0, 0, 0]

def symbols : SymbolTable :=
  ⟨.deobfuscated, [("a/C", ⟨"a/C", by decide⟩)], [(⟨.method, "a/C", "run"⟩, ⟨"run", by decide⟩)], [], []⟩

def flag : Field := ⟨Flags.publicOnly, ⟨"seen", by decide⟩, .base .boolean⟩

def declare : ClassPatch := fun _ c => c.addField flag

/-- It declares a field before it looks for a method that is not there. -/
def lost : PatchRule := ⟨"lost", "a/C", [⟨"run", true, fun _ b => .ok b⟩], some declare, []⟩

def kept : PatchRule := ⟨"kept", "a/C", [], some declare, []⟩

def engine : Engine := ⟨.failOpen, Settings.standard, symbols, [lost, kept]⟩

theorem made : Engine.make .failOpen Settings.standard symbols [lost, kept] = .ok engine := by
  refine Engine.make_ok.mpr ⟨fun r hr x hx => ?_, rfl⟩
  have hresolves : symbols.checkComplete ([lost, kept].flatMap PatchRule.requiredSymbols) = .ok () := rfl
  exact SymbolTable.checkComplete_ok.mp hresolves x (List.mem_flatMap.mpr ⟨r, hr, hx⟩)

/-- What stays small while the rules are applied. -/
structure Small (n : Nat) (c : ClassModel) : Prop where
  size : c.file.pool.size ≤ n
  slots : c.file.pool.sourceSlots ≤ c.file.pool.size
  texts : ∀ k ∈ c.file.pool.added, k.Fits
  interfaces : c.file.interfaces = []
  members : c.file.methods = []
  methods : c.methods = []
  attributes : c.file.attributes = []

theorem parsed : ∃ c, ClassModel.parse source = .ok c ∧ Small 3 c ∧ c.file.fields = [] := by
  have h : (ClassModel.parse source).toOption.any (fun c => decide (c.file.pool.size ≤ 3 ∧
      c.file.pool.sourceSlots ≤ c.file.pool.size ∧ c.file.pool.added = [] ∧ c.file.interfaces = [] ∧
      c.file.methods = [] ∧ c.methods.length = 0 ∧ c.file.attributes = [] ∧ c.file.fields = [])) = true := by
    decide +kernel
  obtain ⟨c, hc, hseen⟩ := toOption_any.mp h
  obtain ⟨hsize, hslots, hadded, hinterfaces, hmembers, hmethods, hattributes, hfields⟩ := of_decide_eq_true hseen
  have htexts : ∀ k ∈ c.file.pool.added, k.Fits := by
    rw [hadded]
    exact fun k hk => absurd hk List.not_mem_nil
  have hnone : c.methods = [] := List.length_eq_zero_iff.mp hmethods
  exact ⟨c, hc, ⟨hsize, hslots, htexts, hinterfaces, hmembers, hnone, hattributes⟩, hfields⟩

section

variable {c : ClassModel} {n : Nat}

theorem withText (s : String) (hs : (Constant.utf8 s).Fits) (h : Small n c) (hn : n < 65535) : ∃ i c',
    c.withPool (internUtf8 s) = .ok (i, c') ∧ Small (n + 1) c' ∧ c'.file.fields = c.file.fields := by
  have hroom : Roomy n c.file.pool := ⟨h.size, h.slots, h.texts⟩
  obtain ⟨i, q, hi, hq⟩ := hroom.intern s hs hn
  refine ⟨i, _, ClassModel.withPool_ok.mpr ⟨q, hi, rfl⟩, ?_, rfl⟩
  exact ⟨hq.size, hq.slots, hq.texts, h.interfaces, h.members, h.methods, h.attributes⟩

theorem declared (h : Small 3 c) (hf : c.file.fields = []) : ∃ c' m, c.addField flag = .ok c' ∧
    Small 5 c' ∧ c'.file.fields = [m] ∧ m.attributes = [] := by
  obtain ⟨i, c₁, hi, h₁, hf₁⟩ := withText flag.name.text (by decide) h (by omega)
  obtain ⟨j, c₂, hj, h₂, hf₂⟩ := withText flag.type.text (by decide) h₁ (by omega)
  refine ⟨_, ⟨flag.flags, i, j, []⟩, except_bind_ok.mpr ⟨_, hi, except_bind_ok.mpr ⟨_, hj, rfl⟩⟩,
    ⟨h₂.size, h₂.slots, h₂.texts, h₂.interfaces, h₂.members, h₂.methods, h₂.attributes⟩, ?_, rfl⟩
  exact congrArg (· ++ _) (hf₂.trans (hf₁.trans hf))

theorem declare_ok {context : PatchContext} {c' : ClassModel} (h : c.addField flag = .ok c') :
    declare context c = .ok c' := by
  unfold declare
  rw [h]
  rfl

theorem lost_fails (h : Small 3 c) (hf : c.file.fields = []) :
    ∃ err, lost.apply symbols Settings.standard c = .error err ∧ err.isTargetMissing = true := by
  obtain ⟨c', -, hc', h', -⟩ := declared h hf
  refine ⟨.targetMissing c.displayName "lost" "method run", ?_, rfl⟩
  have hrun : lost.runProcedure ⟨symbols, Settings.standard, c.name⟩ c.displayName c'
      ⟨"run", true, fun _ b => .ok b⟩ = .error (.targetMissing c.displayName "lost" "method run") := by
    simp only [PatchRule.runProcedure, ClassModel.methodsNamed, h'.methods]
    rfl
  show ((declare _ c).mapError _ >>= fun c => (lost.runProcedure _ _ c _ >>= _) >>= _) = _
  rw [declare_ok hc']
  show (lost.runProcedure _ _ c' _ >>= _) >>= _ = _
  rw [hrun]
  rfl

theorem kept_applies (h : Small 3 c) (hf : c.file.fields = []) : ∃ c' m,
    kept.apply symbols Settings.standard c = .ok c' ∧ Small 5 c' ∧ c'.file.fields = [m] ∧
      m.attributes = [] := by
  obtain ⟨c', m, hc', h', hm⟩ := declared h hf
  refine ⟨c', m, ?_, h', hm⟩
  show ((declare _ c).mapError _ >>= fun c => kept.tryMethods _ c.methods >>= _) = _
  rw [declare_ok hc']
  show (kept.tryMethods _ c'.methods >>= _) = _
  rw [h'.methods]
  rfl

theorem finished {m : RawMember} {a : Attribute} (hp : ∀ k ∈ c.file.pool.added, k.Fits)
    (hi : c.file.interfaces = []) (hmembers : c.file.methods = []) (hm : c.methods = [])
    (hf : c.file.fields = [m]) (hb : m.attributes = []) (ha : c.file.attributes = [a]) (hl : a.info.length ≤ 4) :
    ∃ f, c.finish = .ok f ∧ f.Fits := by
  refine ⟨c.file, except_bind_ok.mpr ⟨(c.file.methods, c.file.pool), complete_ok.mpr ?_, rfl⟩, ?_⟩
  · simp only [ClassModel.encodeMethods, hm, List.foldlM_nil]
    rfl
  · constructor
    · exact hp
    · simp [hi]
    · simp [hf]
    · simp [hmembers]
    · simp [hf, hb, hmembers, AttributesFit]
    · simp [ha, AttributesFit]
      omega

theorem marked {m : RawMember} (h : Small 5 c) (hf : c.file.fields = [m]) (hb : m.attributes = []) :
    ∃ c' f, engine.mark c ["kept"] = .ok c' ∧ c'.finish = .ok f ∧ f.Fits ∧ c'.methods = [] := by
  obtain ⟨i, p, hi, hp⟩ := Roomy.intern ⟨h.size, h.slots, h.texts⟩ "kept" (by decide) (by omega)
  obtain ⟨j, q, hj, hq⟩ := hp.intern engine.settings.markerAttribute.text (by decide) (by omega)
  let a : Attribute := ⟨j, Write.counted Write.u16 [i]⟩
  have hset : a.setIn c.file.attributes = [a] := by
    rw [h.attributes]
    rfl
  obtain ⟨f, hfinish, hfits⟩ := finished (m := m) (a := a)
    (c := { c with
      file := { c.file with pool := q, attributes := a.setIn c.file.attributes }
      membersModified := true })
    hq.texts h.interfaces h.members h.methods hf hb hset (Nat.le_refl 4)
  exact ⟨_, f, Engine.mark_one hi hj, hfinish, hfits, h.methods⟩

end

theorem rulesFor_target : engine.rulesFor (normalizeName "a/C") = [lost, kept] := by
  have hname : normalizeName "a/C" = "a/C" := by cbv
  rw [hname]
  rfl

/-- What is known of the class that the rules make, and of the file that it is written as. -/
structure Seen (s : PatchRun) (c' : ClassModel) (f : ClassFile) : Prop where
  marks : engine.Marks (normalizeName "a/C") (engine.rulesFor (normalizeName "a/C")) source s c'
  finish : c'.finish = .ok f
  fits : f.Fits
  applied : s.applied = ["kept"]
  skipped : s.skipped.length = 1
  attributes : s.model.file.attributes = []
  methods : c'.methods = []

theorem seen : ∃ s c' f, Seen s c' f := by
  obtain ⟨c, hc, hsmall, hfields⟩ := parsed
  have hlabels : (engine.labelNames c).methods = [] := by simp [Engine.labelNames, hsmall.methods]
  have hlabelled : Small 3 (engine.labelNames c) :=
    ⟨hsmall.size, hsmall.slots, hsmall.texts, hsmall.interfaces, hsmall.members, hlabels,
      hsmall.attributes⟩
  obtain ⟨err, hlost, hmissing⟩ := lost_fails hlabelled hfields
  obtain ⟨c', m, hkept, hsmall', hm, hb⟩ := kept_applies hlabelled hfields
  obtain ⟨c₂, f, hmark, hf, hfits, hnone⟩ := marked (c := { c' with methods := [] })
    ⟨hsmall'.size, hsmall'.slots, hsmall'.texts, hsmall'.interfaces, hsmall'.members, rfl,
      hsmall'.attributes⟩ hm hb
  have hunmarked : c.attribute? engine.settings.markerAttribute.text = none := by
    simp only [ClassModel.attribute?, ClassFile.attribute?, hsmall.attributes]
    rfl
  have hrun : engine.applyRules [lost, kept] ⟨engine.labelNames c, [], []⟩ = .ok ⟨c', ["kept"], [err]⟩ :=
    calc engine.applyRules [lost, kept] ⟨engine.labelNames c, [], []⟩
        = engine.applyRules [kept] ⟨engine.labelNames c, [], [err]⟩ :=
          Engine.applyRules_skip hlost hmissing rfl
      _ = engine.applyRules [] ⟨c', ["kept"], [err]⟩ := Engine.applyRules_success hkept
      _ = .ok ⟨c', ["kept"], [err]⟩ := rfl
  have hvalid (rule : String) : Engine.validateMethods (normalizeName "a/C") rule c'.methods = .ok [] := by
    rw [hsmall'.methods]
    rfl
  refine ⟨⟨c', ["kept"], [err]⟩, c₂, f, ?_, hf, hfits, rfl, rfl, hsmall'.attributes, hnone⟩
  rw [rulesFor_target]
  exact ⟨c, [], hc, hunmarked, hrun, by simp, hvalid _, hmark⟩

end TwoRules

open TwoRules in
/-- One rule is rolled back after it has declared a field, and the other one declares that field. -/
theorem TwoRules.rolled_back : ∃ t e',
    Engine.make .failOpen Settings.standard symbols [lost, kept] = .ok engine ∧
    engine.transform "a/C" source = .ok t ∧ t.state = .emitted ∧ t.applied = ["kept"] ∧
    t.skipped.length = 1 ∧ (engine.successes "a/C" source).map PatchRule.name = ["kept"] ∧
    Engine.make .failClosed Settings.standard symbols (engine.successes "a/C" source) = .ok e' ∧
    e'.transform "a/C" source = .ok { t with skipped := [] } := by
  obtain ⟨s, c', f, h⟩ := seen
  have ht := Engine.transform_ends (.patched ⟨c', h.marks, h.finish⟩)
  obtain ⟨-, hsucc, e', hmake, ht'⟩ := Engine.transform_successes made ht rfl
  exact ⟨_, e', made, ht, rfl, h.applied, h.skipped, hsucc.symm.trans h.applied, hmake, ht'⟩

end ClassGraft
