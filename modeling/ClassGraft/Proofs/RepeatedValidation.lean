import ClassGraft.Proofs.FrameDepths
import ClassGraft.Proofs.RepeatedInference
import ClassGraft.Proofs.SiteValidation

namespace ClassGraft

namespace Body

variable {b b' : Body} {a a' : StackAnalysis} {p q r d parameters : Nat} {place : Nat → Nat}

theorem Reaches.travels (h : b.Reaches p d) : ∃ k, b.Travels p d k := by
  induction h with
  | start => exact ⟨0, .start⟩
  | flow _ hf ih =>
    obtain ⟨k, hk⟩ := ih
    cases hf with
    | next hn hb => exact ⟨k, hk.next hn hb⟩
    | jump hn hl hq => exact ⟨k, hk.jump hn hl hq⟩
    | through hn hf hc => exact ⟨k, hk.through hn hf hc⟩
    | resume hn hc => exact ⟨k + 1, hk.resume hn hc⟩
  | handle _ ht hp hh ih =>
    obtain ⟨k, hk⟩ := ih
    exact ⟨0, hk.handle ht hp hh⟩

theorem Reaches.near (h : b.Reaches p d) (hq : b.Nears p q) : b.Reaches q d := by
  obtain ⟨k, hk⟩ := h.travels
  exact (hk.near hq).reaches

/-- No path brings more than some node on a path leaves. -/
theorem Reaches.le_greatest (h : b.Reaches p d) {greatest : Nat}
    (hg : ∀ k ∈ b.depthsAfter, k ≤ greatest) : d ≤ greatest := by
  cases h with
  | start => exact Nat.zero_le _
  | flow hr hf =>
    cases hf with
    | next hn _ => exact hg _ ⟨_, _, _, hr, hn, rfl⟩
    | jump hn _ _ => exact hg _ ⟨_, _, _, hr, hn, rfl⟩
    | through hn _ _ => exact hg _ ⟨_, _, _, hr, hn, rfl⟩
    | @resume br hn hc =>
      have hle := hg _ ⟨_, _, _, hr, hn, rfl⟩
      have hslots : (Node.branch br).slots = ⟨0, 1⟩ := Branch.slots_call hc
      unfold Node.depthAfter at hle
      rw [hslots] at hle
      dsimp only at hle
      omega
  | handle hr ht hp hh =>
    obtain ⟨⟨n, hn, hl⟩, -⟩ := labelPosition?_eq_some.mp hh
    have hpseudo : n.isPseudo = true := by
      cases n with
      | label l => rfl
      | _ => cases hl
    have hle := hg _ ⟨_, _, _, hr.handle ht hp hh, hn, rfl⟩
    rwa [Node.depthAfter_pseudo hpseudo] at hle

/-- Nothing is lost if every old instruction that could be reached is reached. -/
theorem checkReachable_ok {before : List NodeId} (hsize : a.depths.size = b.size) :
    b.checkReachable before a = .ok () ↔ ∀ (p : Nat) (id : NodeId) (n : Node),
      b.entries[p]? = some (id, n) → n.isPseudo = false → id ∈ before →
        ∃ d, a.depths[p]? = some (some d) := by
  constructor
  · intro h p id n he hr hid
    have hlt : p < a.depths.size := hsize ▸ (Array.getElem?_eq_some_iff.mp he).1
    have hd : a.depths[p]? = some a.depths[p] := Array.getElem?_eq_getElem hlt
    have hmem : ((id, n), a.depths[p]) ∈ b.entries.toList.zip a.depths.toList :=
      List.mem_of_getElem? (List.getElem?_zip_eq_some.mpr ⟨by simpa using he, by simp [hlt]⟩)
    unfold checkReachable at h
    dsimp only at h
    split at h
    next => cases h
    next hnone =>
      have hlost := List.map_eq_nil_iff.mp (List.min?_eq_none_iff.mp hnone)
      have hkept := List.filter_eq_nil_iff.mp hlost _ hmem
      cases hk : a.depths[p] with
      | some k => exact ⟨k, hd.trans (congrArg some hk)⟩
      | none => simp [hr, hk, hid] at hkept
  · intro h
    unfold checkReachable
    dsimp only
    rw [List.filter_eq_nil_iff.mpr fun x hx hlost => ?_]
    · rfl
    · obtain ⟨p, hp⟩ := List.mem_iff_getElem?.mp hx
      obtain ⟨⟨id, n⟩, o⟩ := x
      obtain ⟨he, hd⟩ := List.getElem?_zip_eq_some.mp hp
      simp only [Bool.and_eq_true, Bool.not_eq_true', Option.isNone_iff_eq_none,
        List.contains_iff_mem] at hlost
      obtain ⟨⟨hr, rfl⟩, hid⟩ := hlost
      obtain ⟨d, hd'⟩ := h p id n (by simpa using he) hr hid
      rw [Array.getElem?_toList, hd'] at hd
      cases hd

section Embedded

variable (h : b.Embeds (fun n => n.isPseudo = true) b' place)
include h

theorem Reaches.placed (hr : b.Reaches p d) : b'.Reaches (place p) d := by
  obtain ⟨k, hk⟩ := hr.travels
  exact (hk.placed h).reaches

theorem Reaches.back (hc : b.Closed) (hr : b'.Reaches q d) :
    ∃ p, b.Reaches p d ∧ b'.Nears q (place p) := by
  obtain ⟨k, hk⟩ := hr.travels
  obtain ⟨p, hp, hnear⟩ := hk.back h hc
  exact ⟨p, hp.reaches, hnear⟩

theorem Embeds.nears_back (hp : b'.Nears q (place p)) (hr : b'.Nears q (place r)) (hle : p ≤ r) :
    b.Nears p r := by
  refine ⟨hle, fun k hk hlt => ?_⟩
  rw [← h.get?_place]
  exact hr.2 (place k) (Nat.le_trans hp.1 (h.le_iff.mpr hk)) (h.lt_iff.mpr hlt)

theorem Balanced.placed (hb : b.Balanced) (hc : b.Closed) : b'.Balanced := by
  intro q d hr
  obtain ⟨p, hp, hnear⟩ := hr.back h hc
  refine ⟨?_, fun e he => ?_, fun n hn => ?_⟩
  · rcases Nat.lt_or_eq_of_le hnear.1 with hlt | rfl
    · obtain ⟨n, hn, -⟩ := hnear.2 q (Nat.le_refl q) hlt
      exact lt_size_of_get? hn
    · exact h.place_lt_size (hb p d hp).1
  · obtain ⟨r, hr', hnear'⟩ := he.back h hc
    rcases Nat.le_total p r with hle | hle
    · exact (hb r d (hp.near (h.nears_back hnear hnear' hle))).2.1 e hr'
    · exact (hb p d hp).2.1 e (hr'.near (h.nears_back hnear' hnear hle))
  · obtain ⟨k, hk⟩ := hr.travels
    exact Affords.placed h hc hb q d k n hk hn

/-- What is reached in the larger body was reached in the smaller one or is new. -/
theorem Reaches.node_back (hc : b.Closed) (hr : b'.Reaches q d) {n : Node} (hn : b'.get? q = some n) :
    n.isPseudo = true ∨ ∃ p, q = place p ∧ b.Reaches p d ∧ b.get? p = some n := by
  cases hpseudo : n.isPseudo with
  | true => exact .inl rfl
  | false =>
    obtain ⟨p, hp, hnear⟩ := hr.back h hc
    cases hnear.real hn hpseudo
    exact .inr ⟨p, rfl, hp, (h.get?_place p).symm.trans hn⟩

theorem greatest_depth_place (hc : b.Closed) {k k' : Nat} (hk : IsGreatest b.depthsAfter k)
    (hk' : IsGreatest b'.depthsAfter k') : k' = k := by
  refine Nat.le_antisymm ?_ ?_
  · obtain ⟨q, d, n, hr, hn, rfl⟩ := hk'.1
    rcases hr.node_back h hc hn with hp | ⟨p, rfl, hr, hn⟩
    · obtain ⟨p, hr, -⟩ := hr.back h hc
      rw [Node.depthAfter_pseudo hp]
      exact hr.le_greatest hk.2
    · exact hk.2 ⟨p, d, n, hr, hn, rfl⟩
  · obtain ⟨p, d, n, hr, hn, rfl⟩ := hk.1
    exact hk'.2 ⟨place p, d, n, hr.placed h, (h.get?_place p).trans hn, rfl⟩

theorem greatest_local_place (hc : b.Closed) {k k' : Nat}
    (hk : IsGreatest (b.localsNeeded parameters) k)
    (hk' : IsGreatest (b'.localsNeeded parameters) k') : k' = k := by
  refine Nat.le_antisymm ?_ ?_
  · rcases hk'.1 with rfl | ⟨q, d, n, hr, hn, rfl⟩
    · exact hk.2 (.inl rfl)
    · rcases hr.node_back h hc hn with hp | ⟨p, rfl, hr, hn⟩
      · have hzero : n.localExtent = 0 := by
          cases n with
          | insn i => cases hp
          | branch br => cases hp
          | label l | line m | frame f => rfl
        rw [hzero]
        exact Nat.zero_le k
      · exact hk.2 (.inr ⟨p, d, n, hr, hn, rfl⟩)
  · rcases hk.1 with rfl | ⟨p, d, n, hr, hn, rfl⟩
    · exact hk'.2 (.inl rfl)
    · exact hk'.2 (.inr ⟨place p, d, n, hr.placed h, (h.get?_place p).trans hn, rfl⟩)

theorem Embeds.complete (hc : b.Complete) : b'.Complete := by
  intro l hl
  suffices hl : l ∈ b.mentionedLabels by
    obtain ⟨p, hp⟩ := hc l hl
    exact ⟨place p, h.labelPosition?_place hp⟩
  simp only [mentionedLabels, List.mem_append, List.mem_flatMap, h.tryBlocks, h.locals] at hl ⊢
  refine hl.imp_left fun hl => hl.imp_left fun hl => ?_
  obtain ⟨n, hn, hl⟩ := hl
  cases n with
  | branch br =>
    obtain ⟨e, he, hbr⟩ := List.mem_map.mp hn
    exact ⟨_, List.mem_map.mpr ⟨e, h.mem_entries he (by rw [hbr]; rfl), hbr⟩, hl⟩
  | _ => cases hl

/-- The depths in a body with new pseudo nodes are those from before. -/
theorem Embeds.analyzeStack (hne : b.entries.isEmpty = false) (hl : b.checkLabels = .ok ())
    (ha : b.analyzeStack parameters = .ok a) : ∃ a', b'.analyzeStack parameters = .ok a' ∧
      a'.maxStack = a.maxStack ∧ a'.maxLocals = a.maxLocals ∧
      ∀ before, b.checkReachable before a = .ok () → b'.checkReachable before a' = .ok () := by
  obtain ⟨hd, hb, hc⟩ := analyzeStack_ok hne ha
  have hne' : b'.entries.isEmpty = false := by
    have hsize : 0 < b.size := Array.size_pos_iff.mpr (by simpa using hne)
    have := h.place_lt_size hsize
    unfold size at this
    simp only [Array.isEmpty, decide_eq_false_iff_not]
    omega
  obtain ⟨a', ha'⟩ :=
    analyzeStack_total hne' (h.complete (complete_iff.mp hl)).closed (hb.placed h hc) parameters
  obtain ⟨hd', -, -⟩ := analyzeStack_ok hne' ha'
  refine ⟨a', ha', greatest_depth_place h hc hd.maxStack hd'.maxStack,
    greatest_local_place h hc hd.maxLocals hd'.maxLocals, fun before hbefore => ?_⟩
  rw [checkReachable_ok (analyzeStack_size hne ha)] at hbefore
  rw [checkReachable_ok (analyzeStack_size hne' ha')]
  intro q id n he hr hid
  obtain ⟨p, rfl, -⟩ := h.real (fun _ hn => hn) (get?_of_entry he) hr
  rw [h.kept] at he
  obtain ⟨d, hknown⟩ := hbefore p id n he hr hid
  exact ⟨d, (hd'.depths (place p) d).mpr (((hd.depths p d).mp hknown).placed h)⟩

end Embedded

/-- Inference leaves a body alone or adds labels and frames. -/
theorem inferFrames_embeds {entry : Frame} {c : BinaryName} {n : Nat}
    (h : b.inferFrames entry c = .ok (n, b')) :
    b' = b ∨ b.entries.isEmpty = false ∧ ∃ place, b.Embeds (fun n => n.isPseudo = true) b' place := by
  cases hne : b.entries.isEmpty with
  | true =>
    have hnil : b.entries = #[] := by simpa using hne
    have hframed : b.Framed entry c := by
      refine framed_of_empty (instructionFrom?_end ?_) fun e he => ?_
      · rw [size, hnil]
        exact Nat.le_refl 0
      · rw [hnil] at he
        cases he
    rw [hframed.inferFrames] at h
    cases h
    exact .inl rfl
  | false =>
    refine .inr ⟨rfl, ?_⟩
    obtain ⟨b₁, hlabels, hparts⟩ := inferFrames_ok h
    obtain ⟨place₁, h₁, -⟩ := labelSites_embeds hlabels
    have h₁ : b.Embeds (fun n => n.isPseudo = true) b₁ place₁ := h₁.imp fun _ hn => hn.mark.pseudo
    rcases hparts with ⟨-, -, rfl⟩ | ⟨first, isPoint, g, s, missing, -, hparts⟩
    · exact ⟨place₁, h₁⟩
    · obtain ⟨place₂, hf⟩ := hparts.inserted
      exact ⟨_, h₁.trans (hf.embeds.imp fun _ hn => hn.pseudo)⟩

end Body

namespace MethodCode

variable {c c' : MethodCode} {a : StackAnalysis} {parameters : Nat} {entry : Option Frame}
  {owner : BinaryName}

/-- The checks come out alike for a body in which labels and frames have been added. -/
theorem check_annotated {b : Body} {place : Nat → Nat} (hne : c.body.entries.isEmpty = false)
    (h : c.body.Embeds (fun n => n.isPseudo = true) b place) (hc : c.check parameters = .ok a)
    (maxStack maxLocals : UInt16) :
    ∃ a', check ⟨b, maxStack, maxLocals, c.reachableBefore⟩ parameters = .ok a' ∧
      a'.maxStack = a.maxStack ∧ a'.maxLocals = a.maxLocals := by
  obtain ⟨hneutral, hlabels, ha, hkept⟩ := check_ok.mp hc
  obtain ⟨a', ha', hstack, hlocals, hreachable⟩ := h.analyzeStack hne hlabels ha
  refine ⟨a', check_ok.mpr ⟨?_, ?_, ha', fun before hb => ?_⟩, hstack, hlocals⟩
  · unfold Body.checkNeutral at hneutral ⊢
    rwa [h.edits]
  · exact Body.complete_iff.mpr (h.complete (Body.complete_iff.mp hlabels))
  · exact hreachable before (hkept before hb)

theorem validate_edits (h : c.validate parameters entry owner = .ok c') :
    c'.body.edits = c.body.edits := by
  obtain ⟨a, body, -, -, -, hbody, rfl⟩ := validate_iff.mp h
  rcases hbody with ⟨-, rfl⟩ | ⟨e, n, -, hinfer⟩
  · rfl
  · rcases Body.inferFrames_embeds hinfer with rfl | ⟨-, place, hembeds⟩
    · rfl
    · exact hembeds.edits

/-- What validation has completed, another validation confirms. -/
theorem validate_again (hids : ∀ id ∈ c.body.ids, id.index < c.body.nextId)
    (h : c.validate parameters entry owner = .ok c') : c'.validate parameters entry owner = .ok c' := by
  obtain ⟨a, body, ha, hs, hl, hbody, rfl⟩ := validate_iff.mp h
  have limit {k : Nat} (hk : k ≤ 65535) : k.toUInt16.toNat = k := by
    rw [Nat.toUInt16_eq, UInt16.toNat_ofNat']
    exact Nat.mod_eq_of_lt (Nat.lt_succ_of_le hk)
  obtain ⟨a', ha', hstack, hlocals⟩ : ∃ a', check ⟨body, (max a.maxStack c.maxStack.toNat).toUInt16,
      (max a.maxLocals c.maxLocals.toNat).toUInt16, c.reachableBefore⟩ parameters = .ok a' ∧
        a'.maxStack = a.maxStack ∧ a'.maxLocals = a.maxLocals := by
    rcases hbody with ⟨-, rfl⟩ | ⟨e, n, -, hinfer⟩
    · exact ⟨a, check_ok.mpr (check_ok.mp ha), rfl, rfl⟩
    · rcases Body.inferFrames_embeds hinfer with rfl | ⟨hne, place, hembeds⟩
      · exact ⟨a, check_ok.mpr (check_ok.mp ha), rfl, rfl⟩
      · exact check_annotated hne hembeds ha _ _
  refine validate_within ha' ?_ ?_ ?_
  · rw [limit hs, hstack]
    exact Nat.le_max_left _ _
  · rw [limit hl, hlocals]
    exact Nat.le_max_left _ _
  · rcases hbody with ⟨hnone, -⟩ | ⟨e, n, hsome, hinfer⟩
    · exact .inl ⟨hnone, rfl⟩
    · exact .inr ⟨e, 0, hsome, (Body.inferFrames_framed hids hinfer).inferFrames⟩

end MethodCode

/-- Once a method is valid, validation changes nothing about it any more. Inference in particular finds
nothing to do in a body that it has just completed. Ids have to be given out in order, as they are when
nodes are inserted. -/
theorem Method.validate_settles :
    (∀ m m' : Method, (∀ b, m.body? = some b → ∀ id ∈ b.ids, id.index < b.nextId) →
      m.validate = .ok m' → m'.validate = .ok m') ∧
    (∀ (b b' : Body) (entry : Frame) (c : BinaryName) (n : Nat),
      (∀ id ∈ b.ids, id.index < b.nextId) → b.inferFrames entry c = .ok (n, b') →
        b'.inferFrames entry c = .ok (0, b')) := by
  constructor
  · intro m m' hids h
    rcases validate_iff.mp h with ⟨-, rfl⟩ | ⟨code, code', hcode, hmodified, hcode', rfl⟩
    · exact h
    · have hbody : ∀ id ∈ code.body.ids, id.index < code.body.nextId :=
        hids code.body (by rw [body?, hcode]; rfl)
      have hmodified' : code'.body.isModified = true := by
        unfold Body.isModified at hmodified ⊢
        rwa [MethodCode.validate_edits hcode']
      exact validate_iff.mpr
        (.inr ⟨code', code', rfl, hmodified', MethodCode.validate_again hbody hcode', rfl⟩)
  · intro b b' entry c n hids h
    exact (Body.inferFrames_framed hids h).inferFrames

namespace AllocatingDetour

def body : Body := { Body.detour with edits := #[⟨some ⟨1⟩, [⟨2⟩, ⟨3⟩], [], 0, 0⟩] }

def framed : Body := { Body.framedDetour with edits := body.edits }

def method : Method := {
  index := 0
  flags := 8
  name := ⟨"settle", by decide⟩
  canonicalName := none
  type := ⟨[.base .int, .base .long], none⟩
  owner := BinaryName.object
  entry := some ⟨[.integer, .long, .top], []⟩
  code := some ⟨body, 1, 3, some [⟨0⟩, ⟨5⟩]⟩ }

theorem body_inferred :
    body.inferFrames ⟨[.integer, .long, .top], []⟩ BinaryName.object = .ok (1, framed) := by cbv

theorem method_validated : method.validate = .ok (method.withBody framed) := by
  have ha : body.analyzeStack 3 = .ok ⟨#[some 0, some 1, some 0, some 1, some 0, some 0], 1, 3⟩ := by
    refine Body.analyzeStack_drained
      (s := ⟨#[some 0, some 1, some 0, some 1, some 0, some 0], 1, 3, []⟩) rfl rfl ?_
    rw [Body.drain_next (t := ⟨#[some 0, some 1, some 0, some 1, some 0, some 0], 1, 3, [(4, 0)]⟩) rfl
      (by cbv)]
    rw [Body.drain_next (t := ⟨#[some 0, some 1, some 0, some 1, some 0, some 0], 1, 3, []⟩) rfl (by cbv)]
    exact Body.drain_done rfl
  have hs : method.parameterSlots = 3 := by cbv
  exact Method.validate_within rfl rfl rfl (by cbv) (by cbv) (hs ▸ ha) rfl (by cbv) (by decide)
    (by decide) body_inferred

theorem method_settled :
    (∀ b, method.body? = some b → ∀ id ∈ b.ids, id.index < b.nextId) ∧
      method.validate = .ok (method.withBody framed) ∧
      (method.withBody framed).validate = .ok (method.withBody framed) ∧
      framed.inferFrames ⟨[.integer, .long, .top], []⟩ BinaryName.object = .ok (0, framed) := by
  have hids : ∀ id ∈ body.ids, id.index < body.nextId := by decide
  have hmethod : ∀ b, method.body? = some b → ∀ id ∈ b.ids, id.index < b.nextId := by
    intro b hb
    cases hb
    exact hids
  exact ⟨hmethod, method_validated, Method.validate_settles.1 _ _ hmethod method_validated,
    Method.validate_settles.2 _ _ _ _ _ hids body_inferred⟩

end AllocatingDetour

end ClassGraft
