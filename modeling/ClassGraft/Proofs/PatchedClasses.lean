import ClassGraft.Proofs.PatchStages
import ClassGraft.Proofs.RuleRuns
import ClassGraft.Proofs.SetAttributes
import ClassGraft.Rules.Shipped

namespace ClassGraft

open Pool ClassModel

namespace PatchRule

variable {r : PatchRule} {context : PatchContext} {className : String} {c c' : ClassModel}

theorem patchMethod_file {p : Procedure} {i : Nat} (h : r.patchMethod context className p c i = .ok c') :
    c'.file = c.file := by
  unfold patchMethod at h
  split at h
  next => cases h; rfl
  next m _ =>
    obtain ⟨m₁, -, h⟩ := except_bind_ok.mp h
    split at h
    next =>
      split at h
      next => cases h
      next => cases h; rfl
    next body _ =>
      obtain ⟨body', -, h⟩ := except_bind_ok.mp h
      cases h
      rfl

/-- A procedure changes bodies, and nothing that is not read of a class. -/
theorem runProcedure_file {p : Procedure} (h : r.runProcedure context className c p = .ok c') :
    c'.file = c.file := by
  obtain ⟨name, -, h⟩ := except_bind_ok.mp h
  dsimp only at h
  split at h
  next => cases h
  next =>
    exact foldlM_keeps (P := fun d : ClassModel => d.file = c.file)
      (fun i _ _ hb hi => (patchMethod_file hi).trans hb) rfl h

theorem apply_intact {symbols : SymbolTable} {settings : Settings} (hr : r.Keeps Intact) (hc : c.Intact)
    (h : r.apply symbols settings c = .ok c') : c'.Intact := by
  rw [apply_eq] at h
  obtain ⟨c₂, hedited, h⟩ := except_bind_ok.mp h
  obtain ⟨-, -, h⟩ := except_bind_ok.mp h
  cases h
  obtain ⟨c₁, hpatch, hrun⟩ := except_bind_ok.mp hedited
  exact foldlM_keeps (fun p _ _ hb hp => hb.of_file (runProcedure_file hp)) (hr.patchClass hc hpatch) hrun

end PatchRule

namespace Rules

theorem addScanFlag_intact {context : PatchContext} {c c' : ClassModel} (hc : c.Intact)
    (h : addScanFlag context c = .ok c') : c'.Intact := by
  unfold addScanFlag at h
  split at h
  next => cases h; exact hc
  next =>
    obtain ⟨name, -, h⟩ := except_bind_ok.mp h
    exact hc.declared (except_mapError_ok.mp h)

/-- One shipped rule has a class patch. It declares a field. -/
theorem shipped_keep : ∀ r ∈ shipped, r.Keeps Intact := by
  have hscan : visGraphScanFlag.Keeps Intact := by
    intro patch hpatch context c c' hc h
    cases hpatch
    exact addScanFlag_intact hc h
  simp only [shipped, List.forall_mem_cons]
  exact ⟨.of_none rfl, .of_none rfl, .of_none rfl, .of_none rfl, hscan, .of_none rfl, .of_none rfl,
    .of_none rfl, .of_none rfl, fun _ h => absurd h List.not_mem_nil⟩

end Rules

/-- Just the indices of these names are read from the attribute. -/
def Attribute.Lists (p : Pool) (a : Attribute) (names : List String) : Prop :=
  ∃ indices, Reader.counted Reader.u16 a.info = .ok (indices, []) ∧ indices.mapM p.utf8 = .ok names

namespace Engine

variable {e : Engine} {className name : String} {rules : List PatchRule} {bytes : Bytes}
  {s s' : PatchRun} {f : ClassFile} {t : Transformation} {c c' : ClassModel}

/-- Nothing is skipped where no failure is tolerated. -/
theorem applyRules_closed (hp : e.policy = .failClosed) (h : e.applyRules rules s = .ok s') :
    s'.skipped = s.skipped := by
  induction rules generalizing s with
  | nil => cases h; rfl
  | cons r rs ih =>
    rcases applyRules_cons h with ⟨c, -, h⟩ | ⟨err, -, hopen, -⟩
    · have hrest := ih h
      exact hrest
    · rw [hp] at hopen
      cases hopen

/-- The marker of a class: the indices of the names, under the lowest index of its own name. -/
theorem mark_ok {applied : List String} (hc : c.file.pool.Reached) (h : e.mark c applied = .ok c') :
    ∃ (a : Attribute) (p : Pool), c.file.pool.Leads p ∧ p.Least e.settings.markerAttribute.text a.name ∧
      (∃ indices, a.info = Write.counted Write.u16 indices ∧
        List.Forall₂ (fun n j => p.utf8 j = .ok n) applied indices) ∧
      c' = { c with
        file := { c.file with pool := p, attributes := a.setIn c.file.attributes }
        membersModified := true } := by
  obtain ⟨⟨indices, c₁⟩, hm, h⟩ := except_bind_ok.mp h
  obtain ⟨p, hp, rfl⟩ := withPool_ok.mp hm
  obtain ⟨i, q, hi, rfl⟩ := setAttribute_ok h
  have hl : c.file.pool.Leads p := (Interns.mapM internUtf8_interns).run hp
  obtain ⟨hlq, hindex, -⟩ := internUtf8_ok (hl.reached hc) hi
  have hleast := ((hl.trans hlq).reached hc).least_iff.mpr hindex
  have hnames := Yields.mapM (fun n _ => internUtf8_yields n) _ _ _ hc.sound hp
  have hlisted := hnames.2.2 q ((hl.trans hlq).reached hc).sound hlq.grows
  exact ⟨⟨i, Write.counted Write.u16 indices⟩, q, hl.trans hlq, hleast, ⟨indices, rfl, hlisted⟩, rfl⟩

theorem Marks.intact (hw : e.Marks className rules bytes s c') (hr : ∀ r ∈ rules, r.Keeps Intact) :
    s.model.Intact := by
  obtain ⟨c₀, methods, hc, -, hs, -⟩ := hw
  have hlabelled : (e.labelNames c₀).Intact := (parse_intact hc).of_file rfl
  exact applyRules_keeps (fun r hmem _ _ hc ha => PatchRule.apply_intact (hr r hmem) hc ha)
    (s := ⟨e.labelNames c₀, [], []⟩) hlabelled hs

/-- The class file that is written has grown from the class that the rules have made, by its marker. -/
theorem Writes.grown (hw : e.Writes className rules bytes s f) (hr : ∀ r ∈ rules, r.Keeps Intact) :
    ∃ a : Attribute, s.model.Intact ∧ s.model.file.pool.Leads f.pool ∧ f.version.isSupported = true ∧
      f.pool.Least e.settings.markerAttribute.text a.name ∧
      (∃ indices, a.info = Write.counted Write.u16 indices ∧
        List.Forall₂ (fun n j => f.pool.utf8 j = .ok n) s.applied indices) ∧
      f.attributes = a.setIn s.model.file.attributes := by
  obtain ⟨c', hmarks, hf⟩ := hw
  have hintact := hmarks.intact hr
  obtain ⟨-, methods, -, -, -, -, -, hmark⟩ := hmarks
  obtain ⟨a, p, hl, hleast, ⟨indices, hinfo, hnames⟩, rfl⟩ :=
    mark_ok (c := { s.model with methods }) hintact.reached hmark
  obtain ⟨raws, q, -, hlq, rfl⟩ := finish_ok hf
  refine ⟨a, hintact, hl.trans hlq, hintact.supported, hleast.leads (hl.reached hintact.reached) hlq,
    ⟨indices, hinfo, ?_⟩, rfl⟩
  exact hnames.imp fun n j hn => hlq.grows.utf8 hn

/-- What is written is read again with the marker. It lists the rules that were applied, and it is what is
read by its name unless the rules have put an attribute of that name under another index. -/
theorem Writes.read (hw : e.Writes className rules bytes s f) (hf : f.Fits)
    (hr : ∀ r ∈ rules, r.Keeps Intact) : ∃ (g : ClassFile) (a : Attribute),
      ClassFile.parse f.write = .ok g ∧ g.pool.Least e.settings.markerAttribute.text a.name ∧
      a ∈ g.attributes ∧ (s.applied.length ≤ 65535 → a.Lists g.pool s.applied) ∧
      g.attribute? e.settings.markerAttribute.text =
        some ((g.pool.named e.settings.markerAttribute.text s.model.file.attributes).head?.elim a
          fun first => if first.name = a.name then a else first) := by
  obtain ⟨a, hintact, hl, hv, hleast, ⟨indices, hinfo, hnames⟩, has⟩ := hw.grown hr
  refine ⟨_, a, hf.parse_write (hl.reached hintact.reached) hv, hleast, ?_, fun hn => ⟨indices, ?_, ?_⟩, ?_⟩
  · exact has ▸ Attribute.mem_setIn a s.model.file.attributes
  · have hlen := hnames.length_eq
    have hread := Reader.Reads.counted indices (fun j _ => .u16 j) (by omega) []
    rwa [List.append_nil, ← hinfo] at hread
  · exact mapM_ok_iff.mpr hnames.flip
  · have htext : f.pool.settled.utf8 a.name = .ok e.settings.markerAttribute.text := hleast.1
    rw [ClassFile.attribute?_named, ← Attribute.head?_setIn, ← named_setIn_same htext, ← has]
    rfl

/-- A class comes back as it was, or it is patched. -/
theorem transform_bytes (h : e.transform name bytes = .ok t) : (t.bytes = bytes ∧ t.applied = []) ∨
    ∃ s f, e.Writes (normalizeName name) (e.rulesFor (normalizeName name)) bytes s f ∧
      t = ⟨normalizeName name, .emitted, f.write, s.applied, s.skipped, none⟩ := by
  rcases transform_cases h with ⟨-, rfl⟩ | hends | ⟨r, -, -, rfl⟩
  · exact .inl ⟨rfl, rfl⟩
  · cases hends with
    | marked => exact .inl ⟨rfl, rfl⟩
    | unchanged => exact .inl ⟨rfl, rfl⟩
    | @patched s f hw => exact .inr ⟨s, f, hw, rfl⟩
  · exact .inl ⟨rfl, rfl⟩

/-- The class had no marker, and what is written has one. -/
theorem Writes.differs (hw : e.Writes className rules bytes s f)
    {g : ClassFile} {a : Attribute} (hg : ClassFile.parse f.write = .ok g)
    (ha : g.attribute? e.settings.markerAttribute.text = some a) : f.write ≠ bytes := by
  rintro rfl
  obtain ⟨c', ⟨c, methods, hc, hm, -⟩, -⟩ := hw
  cases (parse_parts hc).1.symm.trans hg
  rw [ClassModel.attribute?, ha] at hm
  cases hm

/-- A class that has the marker is not changed, and one that cannot be read is rejected. -/
theorem transform_left (hopen : e.policy = .failOpen)
    (hmark : ∀ c, ClassModel.parse bytes = .ok c →
      (c.attribute? e.settings.markerAttribute.text).isSome) :
    ∃ t, e.transform name bytes = .ok t ∧ t.bytes = bytes ∧ t.applied = [] := by
  by_cases hnil : e.rulesFor (normalizeName name) = []
  · exact ⟨_, transform_none hnil, rfl, rfl⟩
  · cases hc : ClassModel.parse bytes with
    | ok c =>
      have hends : e.Ends (normalizeName name) (e.rulesFor (normalizeName name)) bytes _ :=
        .marked hc (hmark c hc)
      exact ⟨_, transform_ends hends, rfl, rfl⟩
    | error cause =>
      have hprepare : ∃ x, e.prepare (normalizeName name) (e.rulesFor (normalizeName name)) bytes =
          .error x := by
        rw [prepare, hc]
        exact ⟨_, rfl⟩
      obtain ⟨x, hx⟩ := hprepare
      rw [transform_some hnil, patch_rejects.mpr (.inl hx), answer_open hopen]
      exact ⟨_, rfl, rfl, rfl⟩

/-- What comes out of an engine goes through it a second time as it is, and no rule is applied to it:
a class that was patched is marked, or is not legible any more. -/
theorem transform_again (hopen : e.policy = .failOpen)
    (hrules : ∀ r ∈ e.rulesFor (normalizeName name), r.Keeps Intact)
    (hfits : ∀ s f, e.Writes (normalizeName name) (e.rulesFor (normalizeName name)) bytes s f → f.Fits)
    (ht : e.transform name bytes = .ok t) :
    ∃ t', e.transform name t.bytes = .ok t' ∧ t'.bytes = t.bytes ∧ t'.applied = [] := by
  rcases transform_bytes ht with ⟨hbytes, happlied⟩ | ⟨s, f, hw, rfl⟩
  · exact ⟨t, hbytes ▸ ht, rfl, happlied⟩
  · obtain ⟨g, a, hg, -, -, -, hread⟩ := hw.read (hfits s f hw) hrules
    refine transform_left hopen fun c hc => ?_
    rw [← Except.ok.inj ((parse_parts hc).1.symm.trans hg)] at hread
    rw [ClassModel.attribute?, hread]
    rfl

end Engine

namespace TwoRules

theorem declare_keeps : ∀ r ∈ engine.rulesFor (normalizeName "a/C"), r.Keeps Intact := by
  have hdeclares (context : PatchContext) (c c' : ClassModel) (hc : c.Intact)
      (h : declare context c = .ok c') : c'.Intact := hc.declared (except_mapError_ok.mp h)
  rw [rulesFor_target]
  intro r hr patch hpatch
  rcases List.mem_pair.mp hr with rfl | rfl
  · cases hpatch
    exact hdeclares
  · cases hpatch
    exact hdeclares

variable {s s' : PatchRun} {c' d : ClassModel} {f g : ClassFile}

theorem Seen.housed (h : Seen s c' f) (s' : PatchRun) (d : ClassModel)
    (hd : engine.Marks (normalizeName "a/C") (engine.rulesFor (normalizeName "a/C")) source s' d) :
    ∀ m ∈ d.methods, ∀ b, m.body? = some b → b.room < 2 ^ 64 := by
  obtain ⟨rfl, rfl⟩ := h.marks.unique hd
  rw [h.methods]
  exact fun m hm => absurd hm List.not_mem_nil

theorem Seen.within (h : Seen s c' f) (s' : PatchRun) (g : ClassFile)
    (hg : engine.Writes (normalizeName "a/C") (engine.rulesFor (normalizeName "a/C")) source s' g) :
    s'.applied.length ≤ 65535 ∧ g.Fits := by
  obtain ⟨rfl, rfl⟩ := Engine.Writes.unique ⟨c', h.marks, h.finish⟩ hg
  rw [h.applied]
  exact ⟨by decide, h.fits⟩

end TwoRules

open TwoRules in
/-- The patched class is left alone. -/
theorem TwoRules.patched_once : ∃ t t', engine.transform "a/C" source = .ok t ∧ t.applied = ["kept"] ∧
    engine.transform "a/C" t.bytes = .ok t' ∧ t'.bytes = t.bytes ∧ t'.applied = [] := by
  obtain ⟨s, c', f, h⟩ := seen
  have ht := Engine.transform_ends (.patched ⟨c', h.marks, h.finish⟩)
  obtain ⟨t', ht', hbytes, hnone⟩ :=
    Engine.transform_again rfl declare_keeps (fun s' g hg => (h.within s' g hg).2) ht
  exact ⟨_, t', ht, h.applied, ht', hbytes, hnone⟩

end ClassGraft
