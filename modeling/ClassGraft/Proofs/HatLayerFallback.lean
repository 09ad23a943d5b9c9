import ClassGraft.Proofs.DetouredBodies

namespace ClassGraft

namespace Rules

open Body

variable {c : PatchContext} {b b' b₁ : Body} {id anchor check wearing : NodeId} {l skip draw : Label}
  {flag : FieldRef} {p w : Nat} {n : Node}

theorem Node.isNullCheck_shape (h : Node.isNullCheck n = true) : ∃ l, n = .branch (.ifNull .eq l) := by
  unfold Node.isNullCheck at h
  split at h
  next => exact ⟨_, rfl⟩
  next => cases h

theorem Node.skipTarget?_mem (h : Node.skipTarget? n = some l) :
    ∃ br, n = .branch br ∧ l ∈ br.targets := by
  unfold Node.skipTarget? at h
  split at h
  next br hbr =>
    split at h
    next m htargets =>
      split at h
      next =>
        cases h
        cases n with
        | branch br' =>
          cases hbr
          exact ⟨br, rfl, htargets ▸ List.mem_singleton_self l⟩
        | _ => cases hbr
      next => cases h
    next => cases h
  next => cases h

theorem secondBefore_lt (hb : b.WellMade) (hp : b.entries[p]? = some (anchor, n))
    (h : secondBefore b anchor = .ok (some check)) :
    ∃ q m, q < p ∧ b.entries[q]? = some (check, m) := by
  obtain ⟨previous, hprevious, h⟩ := except_bind_ok.mp h
  cases previous with
  | none => cases h
  | some previous =>
    obtain ⟨r, m, hr, hm⟩ := hb.previousInstruction_lt hp hprevious
    obtain ⟨q, m', hq, hm'⟩ := hb.previousInstruction_lt hm h
    exact ⟨q, m', Nat.lt_trans hq hr, hm'⟩

theorem secondAfter_gt (hb : b.WellMade) (hp : b.entries[p]? = some (anchor, n))
    (h : secondAfter b anchor = .ok (some wearing)) :
    ∃ q m, p < q ∧ b.entries[q]? = some (wearing, m) := by
  obtain ⟨next, hnext, h⟩ := except_bind_ok.mp h
  cases next with
  | none => cases h
  | some next =>
    obtain ⟨r, m, hr, hm⟩ := hb.nextInstruction_gt hp hnext
    obtain ⟨q, m', hq, hm'⟩ := hb.nextInstruction_gt hm h
    exact ⟨q, m', Nat.lt_trans hr hq, hm'⟩

theorem labelAfter_trails (hb : b.WellMade) (hw : b.entries[w]? = some (wearing, n))
    (h : labelAfter b wearing = .ok (draw, b₁)) : ∃ k, b.Trails b₁ w k := by
  obtain ⟨existing, -, h⟩ := except_bind_ok.mp h
  cases existing with
  | some l =>
    cases h
    exact ⟨0, hb.trails w⟩
  | none =>
    obtain ⟨⟨ids, b₂⟩, hinsert, h⟩ := except_bind_ok.mp h
    cases h
    exact ⟨1, hb.trails_label hw hinsert⟩

/-- What the rule finds in a body: the access to the hat, two before it the check for a missing player,
and two behind it a branch. -/
structure HatSite (c : PatchContext) (b : Body) (anchor check wearing : NodeId) (l skip : Label)
    (flag : FieldRef) : Prop where
  hat : ∃ hat, Predicate.accesses c.symbols .getStatic playerModelParts "HAT" = .ok hat ∧
    b.firstNode? hat = some anchor
  before : secondBefore b anchor = .ok (some check)
  nullCheck : b.node check = .ok (.branch (.ifNull .eq l))
  after : secondAfter b anchor = .ok (some wearing)
  skip : ∃ n, b.node wearing = .ok n ∧ Node.skipTarget? n = some skip
  readFlag : c.configFlag "layersInTab" = .ok flag

theorem toggleHatLayer_ok (h : toggleHatLayer c b = .ok b') :
    ∃ anchor check wearing l skip flag draw b₁ ids, HatSite c b anchor check wearing l skip flag ∧
      labelAfter b wearing = .ok (draw, b₁) ∧ b₁.newLabel.2.replace check
        (detourNodes flag ⟨b₁.nextLabel⟩ skip draw) = .ok (ids, b') := by
  obtain ⟨hat, hhat, h⟩ := except_bind_ok.mp h
  split at h
  next anchor hanchor =>
    obtain ⟨before, hbefore, h⟩ := except_bind_ok.mp h
    split at h
    next check =>
      obtain ⟨checkNode, hcheck, h⟩ := except_bind_ok.mp h
      dsimp only at h
      split at h
      next => cases h
      next hnull =>
        obtain ⟨l, rfl⟩ := Node.isNullCheck_shape (n := checkNode) (by simpa using hnull)
        obtain ⟨after, hafter, h⟩ := except_bind_ok.mp h
        split at h
        next wearing =>
          obtain ⟨n, hwearing, h⟩ := except_bind_ok.mp h
          split at h
          next skip hskip =>
            obtain ⟨⟨draw, b₁⟩, hdraw, h⟩ := except_bind_ok.mp h
            obtain ⟨flag, hflag, h⟩ := except_bind_ok.mp h
            obtain ⟨⟨ids, b₂⟩, hreplace, h⟩ := except_bind_ok.mp h
            cases h
            exact ⟨anchor, check, wearing, l, skip, flag, draw, b₁, ids, {
              hat := ⟨hat, except_mapError_ok.mp hhat, hanchor⟩
              before := except_mapError_ok.mp hbefore
              nullCheck := except_mapError_ok.mp hcheck
              after := except_mapError_ok.mp hafter
              skip := ⟨n, except_mapError_ok.mp hwearing, hskip⟩
              readFlag := hflag }, except_mapError_ok.mp hdraw, except_mapError_ok.mp hreplace⟩
          next => cases h
        next => cases h
    next => cases h
  next => cases h

/-- The check for a missing player is replaced by a detour. -/
theorem toggleHatLayer_detours (hb : b.WellMade) (h : toggleHatLayer c b = .ok b') :
    ∃ anchor check wearing l skip flag stand p f, HatSite c b anchor check wearing l skip flag ∧
      b.entries[p]? = some (check, .branch (.ifNull .eq l)) ∧ skip.index < b.nextLabel ∧
      (b.aim check skip).Detours b' check stand flag skip p f := by
  obtain ⟨anchor, check, wearing, l, skip, flag, draw, b₁, ids, hsite, hdraw, hreplace⟩ :=
    toggleHatLayer_ok h
  obtain ⟨hat, -, hanchor⟩ := hsite.hat
  obtain ⟨n, hwearing, hskip⟩ := hsite.skip
  obtain ⟨br, rfl, hmem⟩ := Node.skipTarget?_mem hskip
  -- The check is before the access, and the branch behind it.
  obtain ⟨i, -, hi⟩ := Option.bind_eq_some_iff.mp hanchor
  obtain ⟨_, hi⟩ := idAt?_entry hi
  obtain ⟨p, _, hpi, hp⟩ := secondBefore_lt hb hi hsite.before
  obtain ⟨w, _, hiw, hw⟩ := secondAfter_gt hb hi hsite.after
  obtain ⟨q, hq⟩ := node_entry hsite.nullCheck
  cases hb.position_unique hq hp
  obtain ⟨r, hr⟩ := node_entry hwearing
  cases hb.position_unique hr hw
  have hpw : p < w := Nat.lt_trans hpi hiw
  have hlt : w < b.size := (Array.getElem?_eq_some_iff.mp hw).1
  obtain ⟨k, htrails⟩ := labelAfter_trails hb hw hdraw
  obtain ⟨q, hq', hsplice⟩ := except_bind_ok.mp hreplace
  have hp₁ : b₁.entries[p]? = b.entries[p]? := htrails.low p (Nat.le_of_lt hpw)
  cases htrails.wellMade.position_eq (hp₁.trans hq) hq'
  have hsize : p < b₁.newLabel.2.size := (Array.getElem?_eq_some_iff.mp (hp₁.trans hq)).1
  exact ⟨anchor, check, wearing, l, skip, flag, _, p, _, hsite, hq,
    hb.labels skip (target_mem_labels (get?_of_entry hr) hmem),
    htrails.detours (splice_replaces hsize hsplice) hb hq hpw hlt⟩

/-- Where the flag is not set, the patched body runs as the body does in which a missing player leads to
where the branch behind the access to the hat goes. If the check went there before, it runs as before. -/
theorem toggleHatLayer_falls_back (hb : b.WellMade) (h : toggleHatLayer c b = .ok b') :
    ∃ anchor check wearing l skip flag stand m, HatSite c b anchor check wearing l skip flag ∧
      stand ∉ b.ids ∧ (stand, .branch (.ifNull .ne m)) ∈ b'.entries ∧
      (∀ throws stops place, (∀ id ∈ place, id ∈ b.ids) →
        ((b.aim check skip).Arrives (.free throws) stops place ↔ ∃ stops' place',
          b'.Arrives (.reading b flag false throws) stops' place' ∧
          b.formerStops check stand stops' = stops ∧
          place'.map (former check stand) = place)) ∧
      (l = skip → b.aim check skip = b) := by
  obtain ⟨anchor, check, wearing, l, skip, flag, stand, p, f, hsite, hp, hskip, hd⟩ :=
    toggleHatLayer_detours hb h
  obtain ⟨m, hstand, -⟩ := hd.opposite
  refine ⟨anchor, check, wearing, l, skip, flag, stand, m, hsite, aim_ids b check skip ▸ hd.fresh,
    Array.mem_of_getElem? hstand, fun throws stops place hplace => ?_, fun hsame => ?_⟩
  · rw [← aim_ids b check skip] at hplace
    rw [← aim_reading b check skip, ← aim_formerStops b check skip]
    exact hd.arrives_iff (hb.aim hskip) hskip hplace
  · exact hb.aim_same hp (congrArg (Branch.ifNull .eq) hsame.symm)

end Rules

namespace HatBranches

def isWearing : Node := .insn (.invoke .virtual ⟨.object ⟨"net/minecraft/entity/player/EntityPlayer",
  by decide⟩, ⟨"func_175148_a", by decide⟩,
  ⟨[.object ⟨Rules.playerModelParts, by decide⟩], some (.base .boolean)⟩, false⟩)

def readHat : Node := .insn (.field .getStatic ⟨⟨Rules.playerModelParts, by decide⟩, ⟨"HAT", by decide⟩,
  .object ⟨Rules.playerModelParts, by decide⟩⟩)

def body (l : Label) : Body := { Body.ofNodes 2 [.insn (.load .ref 1), .branch (.ifNull .eq l),
  .insn (.load .ref 1), readHat, isWearing, .branch (.ifZero .eq ⟨0⟩), .insn .nop, .label ⟨0⟩,
  .insn .nop, .label ⟨1⟩, .branch (.leave none)] with tryBlocks := [] }

def context (t : SymbolTable) : PatchContext :=
  ⟨t, Settings.standard, ⟨Rules.tabOverlay, by decide⟩⟩

theorem patched : ∀ l ∈ [⟨0⟩, ⟨1⟩], ∃ t hat b',
    SymbolTable.ofMappings .obfuscated Rules.builtinMappings = .ok t ∧
    Predicate.accesses t .getStatic Rules.playerModelParts "HAT" = .ok hat ∧
    (body l).firstNode? hat = some ⟨3⟩ ∧ Rules.toggleHatLayer (context t) (body l) = .ok b' := by
  have h : ∀ l ∈ [⟨0⟩, ⟨1⟩], (SymbolTable.ofMappings .obfuscated Rules.builtinMappings).toOption.any
      (fun t => (Predicate.accesses t .getStatic Rules.playerModelParts "HAT").toOption.any (fun hat =>
        (body l).firstNode? hat = some ⟨3⟩) &&
        (Rules.toggleHatLayer (context t) (body l)).toOption.any fun _ => true) = true := by
    decide +kernel
  intro l hl
  obtain ⟨t, ht, h⟩ := toOption_any.mp (h l hl)
  obtain ⟨hhat, hpatch⟩ := Bool.and_eq_true_iff.mp h
  obtain ⟨hat, hhat, hanchor⟩ := toOption_any.mp hhat
  obtain ⟨b', hb, -⟩ := toOption_any.mp hpatch
  exact ⟨t, hat, b', ht, hhat, of_decide_eq_true hanchor, hb⟩

theorem around : Rules.secondBefore (body ⟨1⟩) ⟨3⟩ = .ok (some ⟨1⟩) ∧
    Rules.secondAfter (body ⟨1⟩) ⟨3⟩ = .ok (some ⟨5⟩) := by
  have hbefore : (Rules.secondBefore (body ⟨1⟩) ⟨3⟩).toOption.any (· = some ⟨1⟩) = true := by
    decide +kernel
  have hafter : (Rules.secondAfter (body ⟨1⟩) ⟨3⟩).toOption.any (· = some ⟨5⟩) = true := by
    decide +kernel
  obtain ⟨check, hcheck, hbefore⟩ := toOption_any.mp hbefore
  obtain ⟨wearing, hwearing, hafter⟩ := toOption_any.mp hafter
  rw [hcheck, hwearing, of_decide_eq_true hbefore, of_decide_eq_true hafter]
  exact ⟨rfl, rfl⟩

/-- What the rule finds if there are two labels. -/
theorem site : ∃ t b' flag stand p f,
    Rules.toggleHatLayer (context t) (body ⟨1⟩) = .ok b' ∧
    Rules.HatSite (context t) (body ⟨1⟩) ⟨3⟩ ⟨1⟩ ⟨5⟩ ⟨1⟩ ⟨0⟩ flag ∧
    ((body ⟨1⟩).aim ⟨1⟩ ⟨0⟩).Detours b' ⟨1⟩ stand flag ⟨0⟩ p f := by
  have hwell : (body ⟨1⟩).WellMade := by decide
  obtain ⟨t, hat, b', -, hhat, hanchor, hpatch⟩ := patched ⟨1⟩ (by decide)
  obtain ⟨anchor, check, wearing, l, skip, flag, stand, p, f, hsite, -, -, hd⟩ :=
    Rules.toggleHatLayer_detours hwell hpatch
  obtain ⟨hat', hhat', hanchor'⟩ := hsite.hat
  cases Except.ok.inj (hhat.symm.trans hhat')
  cases Option.some.inj (hanchor.symm.trans hanchor')
  cases (Option.some.inj (Except.ok.inj (around.1.symm.trans hsite.before)))
  cases (Option.some.inj (Except.ok.inj (around.2.symm.trans hsite.after)))
  have h₁ : (body ⟨1⟩).entries[1]? = some (⟨1⟩, .branch (.ifNull .eq ⟨1⟩)) := by rfl
  have h₅ : (body ⟨1⟩).entries[5]? = some (⟨5⟩, .branch (.ifZero .eq ⟨0⟩)) := by rfl
  obtain ⟨n, hn, hskip⟩ := hsite.skip
  obtain ⟨q, hq⟩ := Body.node_entry hn
  cases hwell.position_unique hq h₅
  cases Option.some.inj (hq.symm.trans h₅)
  cases hskip
  obtain ⟨r, hr⟩ := Body.node_entry hsite.nullCheck
  cases hwell.position_unique hr h₁
  cases Option.some.inj (hr.symm.trans h₁)
  exact ⟨t, b', flag, stand, p, f, hpatch, hsite, hd⟩

/-- The stops of a run in which there is no player. -/
def stops : List Body.Stop := [(⟨0⟩, none), (⟨1⟩, some true)]

theorem arrives : (body ⟨1⟩).Arrives (.free fun _ => False) stops (some ⟨9⟩) := by
  have h₀ : (body ⟨1⟩).entries[0]? = some (⟨0⟩, .insn (.load .ref 1)) := by rfl
  have h₁ : (body ⟨1⟩).entries[1]? = some (⟨1⟩, .branch (.ifNull .eq ⟨1⟩)) := by rfl
  have hto : (body ⟨1⟩).labelPosition? ⟨1⟩ = some 9 := by decide +kernel
  have hn := Body.get?_of_entry h₁
  have hload : (body ⟨1⟩).Steps (.free fun _ => False) (0, none) (1, none) := .next h₀ rfl
  have hloaded := Body.Course.start.step h₀ hload (.plain (Body.get?_of_entry h₀) (by simp))
  exact ⟨_, hloaded.step h₁ (.jump hn (List.mem_singleton_self _) hto trivial) (.jump hn hto), rfl⟩

theorem not_arrives_aimed : ¬ ((body ⟨1⟩).aim ⟨1⟩ ⟨0⟩).Arrives (.free fun _ => False) stops
    (some ⟨9⟩) := by
  rintro ⟨s, hc, hid⟩
  have hwell : (body ⟨1⟩).WellMade := by decide
  have hcheck : ((body ⟨1⟩).aim ⟨1⟩ ⟨0⟩).entries[1]? = some (⟨1⟩, .branch (.ifNull .eq ⟨0⟩)) := by
    decide +kernel
  have hto : ((body ⟨1⟩).aim ⟨1⟩ ⟨0⟩).labelPosition? ⟨0⟩ = some 7 := by decide +kernel
  have hat : ((body ⟨1⟩).aim ⟨1⟩ ⟨0⟩).idAt? 7 = some ⟨7⟩ := by decide +kernel
  have hc : Body.Course _ _ ([(⟨0⟩, none)] ++ [(⟨1⟩, some true)]) s := hc
  obtain ⟨q, hq, rfl⟩ := hc.found_null (hwell.aim (by decide)) hcheck
  cases hto.symm.trans hq
  cases hat.symm.trans hid

end HatBranches

open HatBranches Body in
/-- With one label for both checks, the patched body runs as it did before. -/
theorem HatBranches.falls_back : ∃ t b', (body ⟨0⟩).WellMade ∧
    Rules.toggleHatLayer (context t) (body ⟨0⟩) = .ok b' ∧
    ∃ anchor check wearing l skip flag stand m,
      Rules.HatSite (context t) (body ⟨0⟩) anchor check wearing l skip flag ∧
      stand ∉ (body ⟨0⟩).ids ∧ (stand, .branch (.ifNull .ne m)) ∈ b'.entries ∧
      (∀ throws stops place, (∀ id ∈ place, id ∈ (body ⟨0⟩).ids) →
        (((body ⟨0⟩).aim check skip).Arrives (.free throws) stops place ↔ ∃ stops' place',
          b'.Arrives (.reading (body ⟨0⟩) flag false throws) stops' place' ∧
          (body ⟨0⟩).formerStops check stand stops' = stops ∧
          place'.map (former check stand) = place)) ∧
      (l = skip → (body ⟨0⟩).aim check skip = body ⟨0⟩) := by
  have hwell : (body ⟨0⟩).WellMade := by decide
  obtain ⟨t, hat, b', -, -, -, hpatch⟩ := patched ⟨0⟩ (by decide)
  exact ⟨t, b', hwell, hpatch, Rules.toggleHatLayer_falls_back hwell hpatch⟩

open HatBranches Body in
/-- With two labels, the patched body does not go where a missing player led to before. -/
theorem HatBranches.led_elsewhere : ∃ t b' anchor check wearing l skip flag stand m,
    (body ⟨1⟩).WellMade ∧ Rules.toggleHatLayer (context t) (body ⟨1⟩) = .ok b' ∧
    Rules.HatSite (context t) (body ⟨1⟩) anchor check wearing l skip flag ∧
    stand ∉ (body ⟨1⟩).ids ∧ (stand, .branch (.ifNull .ne m)) ∈ b'.entries ∧
    ¬ ∀ throws stops place, (∀ id ∈ place, id ∈ (body ⟨1⟩).ids) →
      ((body ⟨1⟩).Arrives (.free throws) stops place ↔ ∃ stops' place',
        b'.Arrives (.reading (body ⟨1⟩) flag false throws) stops' place' ∧
        (body ⟨1⟩).formerStops check stand stops' = stops ∧
        place'.map (former check stand) = place) := by
  have hwell : (body ⟨1⟩).WellMade := by decide
  obtain ⟨t, b', flag, stand, p, f, hpatch, hsite, hd⟩ := site
  obtain ⟨m, hstand, -⟩ := hd.opposite
  refine ⟨t, b', ⟨3⟩, ⟨1⟩, ⟨5⟩, ⟨1⟩, ⟨0⟩, flag, stand, m, hwell, hpatch, hsite,
    aim_ids _ ⟨1⟩ ⟨0⟩ ▸ hd.fresh, Array.mem_of_getElem? hstand, fun hall => ?_⟩
  have hplace : ∀ id ∈ some (⟨9⟩ : NodeId), id ∈ (body ⟨1⟩).ids := by decide
  obtain ⟨stops', place', hruns⟩ := (hall _ _ _ hplace).mp arrives
  rw [← aim_ids _ ⟨1⟩ ⟨0⟩] at hplace
  rw [← aim_reading _ ⟨1⟩ ⟨0⟩, ← aim_formerStops _ ⟨1⟩ ⟨0⟩] at hruns
  have haimed : ((body ⟨1⟩).aim ⟨1⟩ ⟨0⟩).WellMade := hwell.aim (by decide)
  exact not_arrives_aimed ((hd.arrives_iff haimed (by decide) hplace).mpr ⟨stops', place', hruns⟩)

end ClassGraft
