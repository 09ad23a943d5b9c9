import ClassGraft.Proofs.PatchedClasses
import Mathlib

namespace ClassGraft

open Pool ClassModel

namespace Engine

variable {e : Engine} {name : String} {bytes : Bytes}

/-- Where failures are tolerated there is a result unless the writing of the class is stopped: by an edited
method whose body holds a table for which the last key is not computed, or by one that is to go where there
is no member. A class is patched just if its bytes are not those that came in. Its marker then lists the
rules that were applied, but it is another attribute that is read by the name of the marker if the rules
have put one there under another index of that name. In all other cases the class comes back as it was:
because it was rejected, which only happens where failures are tolerated, or because no rule was applied. -/
theorem transform_outcome
    (hrules : ∀ r ∈ e.rulesFor (normalizeName name), r.Keeps Intact)
    (hroom : ∀ s c', e.Marks (normalizeName name) (e.rulesFor (normalizeName name)) bytes s c' →
      ∀ m ∈ c'.methods, ∀ b, m.body? = some b → b.room < 2 ^ 64)
    (hfits : ∀ s f, e.Writes (normalizeName name) (e.rulesFor (normalizeName name)) bytes s f →
      s.applied.length ≤ 65535 ∧ f.Fits) :
    (e.policy = .failOpen → ((∃ t, e.transform name bytes = .ok t) ↔
      ¬∃ s c', e.Marks (normalizeName name) (e.rulesFor (normalizeName name)) bytes s c' ∧ c'.Stops)) ∧
    ∀ t, e.transform name bytes = .ok t →
      (e.policy = .failClosed → t.state = .emitted ∧ t.skipped = [] ∧ t.rejection = none) ∧
      (t.state = .emitted ∨ t.state = .rejected) ∧
      (t.state = .rejected ↔ t.rejection.isSome) ∧
      (t.state = .rejected → t.applied = []) ∧
      (t.state = .rejected ∨ t.applied = [] → t.bytes = bytes) ∧
      (t.isPatched = true ↔ t.bytes ≠ bytes) ∧
      (t.isPatched = true → ∃ s f g a,
        e.Writes (normalizeName name) (e.rulesFor (normalizeName name)) bytes s f ∧
        t.bytes = f.write ∧ t.applied = s.applied ∧ ClassFile.parse t.bytes = .ok g ∧
        g.pool.Least e.settings.markerAttribute.text a.name ∧ a ∈ g.attributes ∧
        a.Lists g.pool t.applied ∧
        g.attribute? e.settings.markerAttribute.text =
          some ((g.pool.named e.settings.markerAttribute.text s.model.file.attributes).head?.elim a
            fun first => if first.name = a.name then a else first)) := by
  refine ⟨fun hopen => ?_, fun t ht => ?_⟩
  · have hstops : (∃ s c', e.Marks (normalizeName name) (e.rulesFor (normalizeName name)) bytes s c' ∧
        c'.Stops) ↔ ∃ h, Halt.IsStop h ∧ e.transform name bytes = .error h := by
      rw [transform_stops]
      refine exists₂_congr fun s c' => ?_
      constructor
      · rintro ⟨hmarks, hstops⟩
        obtain ⟨h, hstop, hf⟩ := (finish_stops (hroom s c' hmarks)).mpr hstops
        exact ⟨h, hmarks, hstop, hf⟩
      · rintro ⟨h, hmarks, hstop, hf⟩
        exact ⟨hmarks, (finish_stops (hroom s c' hmarks)).mp ⟨h, hstop, hf⟩⟩
    rw [hstops]
    cases ht : e.transform name bytes with
    | ok t => exact iff_of_true ⟨t, rfl⟩ fun ⟨_, _, h⟩ => nomatch h
    | error halt =>
      refine iff_of_false (fun ⟨_, h⟩ => nomatch h) (not_not_intro ⟨halt, ?_, rfl⟩)
      -- an error would be returned only where failures are not tolerated
      by_contra hstop
      obtain ⟨err, rfl⟩ := Halt.not_isStop_iff.mp hstop
      rw [(transform_error ht).1] at hopen
      cases hopen
  · rcases transform_cases ht with ⟨-, rfl⟩ | hends | ⟨r, hopen, -, rfl⟩
    · simp [Transformation.untouched, Transformation.isPatched]
    · cases hends with
      | marked => simp [Transformation.untouched, Transformation.isPatched]
      | @unchanged c s hc hm hs ha =>
        have hclosed : e.policy = .failClosed → s.skipped = [] := fun hp => applyRules_closed hp hs
        simpa [Transformation.untouched, Transformation.isPatched] using hclosed
      | @patched s f hw =>
        obtain ⟨hn, hf⟩ := hfits s f hw
        obtain ⟨g, a, hg, hleast, hmem, hlists, hread⟩ := hw.read hf hrules
        have hdiffers := hw.differs hg hread
        have hwrites := hw
        obtain ⟨c', ⟨c, methods, -, -, hs, ha, -⟩, -⟩ := hw
        have hpatched : (!s.applied.isEmpty) = true := by simpa using ha
        refine ⟨fun hp => ⟨rfl, applyRules_closed hp hs, rfl⟩, .inl rfl, by simp, by simp, ?_,
          iff_of_true hpatched hdiffers, fun _ =>
            ⟨s, f, g, a, hwrites, rfl, rfl, hg, hleast, hmem, hlists hn, hread⟩⟩
        rintro (hrejected | hnone)
        · cases hrejected
        · exact absurd hnone ha
    · simp [Transformation.isPatched, hopen]

end Engine

namespace Topped

/-- A class whose method holds a table for the greatest word only. -/
def source : Bytes := [0xCA, 0xFE, 0xBA, 0xBE, 0, 0, 0, 49, 0, 8,
  1, 0, 16, 106, 97, 118, 97, 47, 108, 97, 110, 103, 47, 79, 98, 106, 101, 99, 116, 7, 0, 1,
  1, 0, 4, 67, 111, 100, 101, 1, 0, 1, 109, 1, 0, 4, 40, 73, 41, 86, 1, 0, 3, 97, 47, 66, 7, 0, 6,
  0, 33, 0, 7, 0, 2, 0, 0, 0, 0, 0, 1, 0, 9, 0, 4, 0, 5, 0, 1, 0, 3, 0, 0, 0, 33,
  0, 1, 0, 1, 0, 0, 0, 21, 0x1A, 0xAA, 0, 0, 0, 0, 0, 19, 0x7F, 0xFF, 0xFF, 0xFF, 0x7F, 0xFF, 0xFF, 0xFF,
  0, 0, 0, 19, 0xB1, 0, 0, 0, 0, 0, 0]

def body : Body where
  entries := #[(⟨0⟩, .insn (.load .int 0)), (⟨1⟩, .branch TopKey.switch), (⟨2⟩, .label ⟨0⟩),
    (⟨3⟩, .branch (.leave none))]
  nextId := 4
  nextLabel := 1
  version := 4
  edits := #[]
  tryBlocks := []
  locals := []

theorem name_valid : IsSegment "m".toList := by decide

theorem owner_valid : IsBinary "a/B".toList := by decide

def method : Method where
  index := 0
  flags := 9
  name := ⟨"m", name_valid⟩
  canonicalName := none
  type := ⟨[.base .int], none⟩
  owner := ⟨"a/B", owner_valid⟩
  entry := none
  code := some ⟨body, 1, 1, none⟩

def begun : Method := {
  method with
  code := some ⟨body, 1, 1, some (body.reachable ⟨#[some 0, some 1, some 0, some 0], 1, 1⟩)⟩ }

def longer : Body := {
  body with
  entries := #[(⟨4⟩, .insn .nop)] ++ body.entries
  nextId := 5
  version := 5
  edits := #[⟨none, [⟨4⟩], [], 0, 0⟩] }

def edited : Method := begun.withBody longer

def symbols : SymbolTable :=
  ⟨.deobfuscated, [("a/B", method.owner)], [(⟨.method, "a/B", "m"⟩, method.name)], [], []⟩

def delay : BodyPatch := fun _ b => return (← b.insertAtStart [.insn .nop]).2

def rule : PatchRule := ⟨"delay", "a/B", [⟨"m", true, delay⟩], none, []⟩

def engine : Engine := ⟨.failOpen, Settings.standard, symbols, [rule]⟩

theorem parsed : ∃ c, ClassModel.parse source = .ok c ∧ c.methods = [method] ∧
    c.file.methods.length = 1 ∧ c.file.attributes = [] ∧ Roomy 8 c.file.pool := by
  have h : (ClassModel.parse source).toOption.any (fun c => decide (c.methods = [method] ∧
      c.file.methods.length = 1 ∧ c.file.attributes = [] ∧ c.file.pool.size ≤ 8 ∧
      c.file.pool.sourceSlots ≤ c.file.pool.size ∧ c.file.pool.added = [])) = true := by decide +kernel
  obtain ⟨c, hc, hseen⟩ := toOption_any.mp h
  obtain ⟨hmethods, hlength, hattributes, hsize, hslots, hadded⟩ := of_decide_eq_true hseen
  refine ⟨c, hc, hmethods, hlength, hattributes, hsize, hslots, ?_⟩
  rw [hadded]
  exact fun k hk => absurd hk List.not_mem_nil

theorem begun_eq : method.beginEdit = .ok begun := by
  have ha : body.analyzeStack 1 = .ok ⟨#[some 0, some 1, some 0, some 0], 1, 1⟩ := by
    refine Body.analyzeStack_drained (s := ⟨#[some 0, some 1, some 0, some 0], 1, 1, []⟩) rfl rfl ?_
    exact (Body.drain_next rfl (t := ⟨#[some 0, some 1, none, none], 1, 1, [(2, 0), (2, 0)]⟩) (by cbv)).trans
      ((Body.drain_next rfl (t := ⟨#[some 0, some 1, some 0, some 0], 1, 1, [(2, 0)]⟩) (by cbv)).trans
        ((Body.drain_next rfl (by cbv)).trans (Body.drain_done rfl)))
  have hs : method.parameterSlots = 1 := by cbv
  exact Method.beginEdit_first rfl (hs ▸ ha)

theorem edited_valid : edited.validate = .ok edited := by
  have ha : longer.analyzeStack 1 = .ok ⟨#[some 0, some 0, some 1, some 0, some 0], 1, 1⟩ := by
    refine Body.analyzeStack_drained (s := ⟨#[some 0, some 0, some 1, some 0, some 0], 1, 1, []⟩) rfl rfl ?_
    exact (Body.drain_next rfl
      (t := ⟨#[some 0, some 0, some 1, none, none], 1, 1, [(3, 0), (3, 0)]⟩) (by cbv)).trans
      ((Body.drain_next rfl (t := ⟨#[some 0, some 0, some 1, some 0, some 0], 1, 1, [(3, 0)]⟩)
        (by cbv)).trans ((Body.drain_next rfl (by cbv)).trans (Body.drain_done rfl)))
  have hs : edited.parameterSlots = 1 := by cbv
  have hcheck : (⟨longer, 1, 1, some (body.reachable ⟨#[some 0, some 1, some 0, some 0], 1, 1⟩)⟩ :
      MethodCode).check 1 = .ok ⟨#[some 0, some 0, some 1, some 0, some 0], 1, 1⟩ := by
    refine MethodCode.check_ok.mpr ⟨by cbv, by cbv, ha, fun before hbefore => ?_⟩
    cases hbefore
    cbv
  refine Method.validate_iff.mpr (.inr ⟨_, _, rfl, rfl, ?_, rfl⟩)
  rw [hs]
  exact MethodCode.validate_within hcheck (by decide) (by decide) (.inl ⟨rfl, rfl⟩)

theorem overruns (p : Pool) : longer.Overruns p :=
  ⟨_, p, rfl, by decide, .later rfl (.later rfl (.here (n := 20) rfl (show ¬_ by decide)))⟩

theorem applies {c : ClassModel} (h : c.methods = [method]) :
    rule.apply symbols Settings.standard c = .ok (c.setMethod 0 edited) := by
  have hname : symbols.resolveMember .method "a/B" "m" = .ok method.name := rfl
  have hedited : rule.editedBy ⟨symbols, Settings.standard, c.name⟩ c rule.procedures =
      .ok (c.setMethod 0 edited) :=
    PatchRule.editedBy_only rfl h hname begun_eq rfl rfl
  rw [PatchRule.apply_eq, hedited, except_ok_bind, ClassModel.setMethod, h]
  simp only [List.set_cons_zero, PatchRule.tryMethods, edited_valid]
  rfl

theorem rulesFor_class : engine.rulesFor (normalizeName "a/B") = [rule] := by
  have hname : normalizeName "a/B" = "a/B" := by cbv
  rw [hname]
  rfl

/-- The class is marked, and cannot be written. -/
theorem marks : ∃ s c', engine.Marks (normalizeName "a/B") (engine.rulesFor (normalizeName "a/B")) source s c' ∧
    c'.methods = [edited] ∧ c'.Stops := by
  rw [rulesFor_class]
  obtain ⟨c, hc, hmethods, hlength, hattributes, hroom⟩ := parsed
  have hlabelled : (engine.labelNames c).methods = [method] := by
    rw [Engine.labelNames, hmethods]
    rfl
  have hunmarked : c.attribute? engine.settings.markerAttribute.text = none := by
    rw [ClassModel.attribute?, ClassFile.attribute?, hattributes]
    rfl
  have hrun : engine.applyRules [rule] ⟨engine.labelNames c, [], []⟩ =
      .ok ⟨(engine.labelNames c).setMethod 0 edited, ["delay"], []⟩ :=
    Engine.applyRules_success (applies hlabelled)
  have hset : ((engine.labelNames c).setMethod 0 edited).methods = [edited] := by
    rw [ClassModel.setMethod, hlabelled]
    rfl
  have hvalid (name : String) : Engine.validateMethods (normalizeName "a/B") name [edited] = .ok [edited] := by
    simp only [Engine.validateMethods, edited_valid]
    rfl
  obtain ⟨i, p, hi, hp⟩ := hroom.intern "delay" (by decide) (by omega)
  obtain ⟨j, q, hj, -⟩ := hp.intern engine.settings.markerAttribute.text (by decide) (by omega)
  have hmark := Engine.mark_one (e := engine)
    (c := { (engine.labelNames c).setMethod 0 edited with methods := [edited] }) hi hj
  refine ⟨_, _, ⟨c, [edited], hc, hunmarked, hrun, by simp, ?_, hmark⟩, rfl, ?_⟩
  · rw [hset]
    exact hvalid _
  · exact ⟨[], edited, [], _, _, rfl, rfl, rfl, .inl ⟨longer, rfl, overruns _⟩⟩

theorem kept_rules : ∀ r ∈ engine.rulesFor (normalizeName "a/B"), r.Keeps Intact := by
  rw [rulesFor_class]
  exact List.forall_mem_singleton.mpr (.of_none rfl)

theorem housed : ∀ s c', engine.Marks (normalizeName "a/B") (engine.rulesFor (normalizeName "a/B")) source s c' →
    ∀ m ∈ c'.methods, ∀ b, m.body? = some b → b.room < 2 ^ 64 := by
  intro s' d hd m hm b hb
  obtain ⟨s, c', hmarks, hmethods, -⟩ := marks
  obtain ⟨rfl, rfl⟩ := hmarks.unique hd
  rw [hmethods, List.mem_singleton] at hm
  subst hm
  cases hb
  decide

theorem unwritten (s : PatchRun) (f : ClassFile) :
    ¬engine.Writes (normalizeName "a/B") (engine.rulesFor (normalizeName "a/B")) source s f := by
  rintro ⟨d, hd, hf⟩
  obtain ⟨s', c', hmarks, -, hstops⟩ := marks
  obtain ⟨rfl, rfl⟩ := hmarks.unique hd
  obtain ⟨halt, -, hhalt⟩ := (ClassModel.finish_stops (housed _ _ hmarks)).mpr hstops
  cases hf.symm.trans hhalt

end Topped

/-- A rule that is applied to a class is listed in it, next to one that was rolled back. Where a rule is
applied to a class that cannot be written then, neither that class nor a rejection comes out. -/
theorem Engine.outcomes_observed :
    (∃ t, TwoRules.engine.transform "a/C" TwoRules.source = .ok t ∧ t.applied = ["kept"] ∧
      t.bytes ≠ TwoRules.source ∧ ∃ g a, ClassFile.parse t.bytes = .ok g ∧ a ∈ g.attributes ∧
        g.attribute? "ClassPatchRules" = some a ∧ a.Lists g.pool ["kept"]) ∧
    Topped.engine.policy = .failOpen ∧ ¬∃ t, Topped.engine.transform "a/B" Topped.source = .ok t := by
  constructor
  · obtain ⟨s, c', f, h⟩ := TwoRules.seen
    have ht := Engine.transform_ends (.patched ⟨c', h.marks, h.finish⟩)
    obtain ⟨-, -, -, -, -, hdiffers, hlists⟩ :=
      (Engine.transform_outcome TwoRules.declare_keeps h.housed h.within).2 _ ht
    have hpatched : (!s.applied.isEmpty) = true := by
      rw [h.applied]
      rfl
    obtain ⟨s', f', g, a, hw, -, -, hg, -, hmem, hlists, hread⟩ := hlists hpatched
    obtain ⟨rfl, -⟩ := Engine.Writes.unique ⟨c', h.marks, h.finish⟩ hw
    rw [h.attributes] at hread
    exact ⟨_, ht, h.applied, hdiffers.mp hpatched, g, a, hg, hmem, hread, h.applied ▸ hlists⟩
  · obtain ⟨s, c', hmarks, -, hstops⟩ := Topped.marks
    have hanswer := (Engine.transform_outcome Topped.kept_rules Topped.housed
      fun s f hw => absurd hw (Topped.unwritten s f)).1 rfl
    exact ⟨rfl, fun ht => hanswer.mp ht ⟨s, c', hmarks, hstops⟩⟩

end ClassGraft
