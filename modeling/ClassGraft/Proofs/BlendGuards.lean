import ClassGraft.Proofs.GuardedRuns
import ClassGraft.Rules.Clouds

namespace ClassGraft

namespace Body

variable {b b₁ b₂ : Body} {flag : FieldRef} {first last id : NodeId} {p q : Nat} {ns : List Node}
  {e : Entry} {l : Label} {throws : NodeId → Prop} {ids : List NodeId}

/-- The jump of a guard stands right before a node. -/
def Shielded (b b₁ : Body) (id : NodeId) : Prop :=
  ∃ r j l n, b₁.entries[r]? = some (j, .branch (.ifZero .ne l)) ∧ j ∉ b.ids ∧
    b₁.entries[r + 1]? = some (id, n)

/-- A body into which some guards have been put already. -/
structure Grown (b b₁ : Body) (flag : FieldRef) : Prop extends b.Weaves b₁ flag where
  wellMade : b₁.WellMade
  nextId : b.nextId ≤ b₁.nextId
  nextLabel : b.nextLabel ≤ b₁.nextLabel

theorem WellMade.grown (h : b.WellMade) : b.Grown b flag where
  woven := .refl fun _ he => List.mem_map_of_mem he
  tryBlocks := rfl
  wellMade := h
  nextId := Nat.le_refl _
  nextLabel := Nat.le_refl _

theorem Grown.newLabel (h : b.Grown b₁ flag) : b.Grown b₁.newLabel.2 flag :=
  { h with wellMade := h.wellMade.newLabel, nextLabel := Nat.le_succ_of_le h.nextLabel }

theorem split_entries (h : b.entries[p]? = some e) :
    b.entries.toList = b.entries.toList.take p ++ e :: b.entries.toList.drop (p + 1) := by
  have hdrop : b.entries.toList.drop p = e :: b.entries.toList.drop (p + 1) := onward_cons h
  rw [← hdrop, List.take_append_drop]

/-- An insertion does no harm to a guard, unless it is right behind the jump. -/
theorem Shielded.place (ns : List Node) (h : b.Shielded b₁ id) (hp : p ≤ b₁.size) :
    b.Shielded (b₁.place p 0 ns) id ∨ ∃ r j l n, p = r + 1 ∧ j ∉ b.ids ∧
      b₁.entries[r]? = some (j, .branch (.ifZero .ne l)) ∧ b₁.entries[p]? = some (id, n) := by
  obtain ⟨r, j, l, n, hj, hnew, hid⟩ := h
  rcases Nat.lt_trichotomy p (r + 1) with hlt | rfl | hgt
  · have hhigh := place_high ns hp (Nat.le_of_lt_succ hlt)
    have hnext := place_high ns hp (Nat.le_of_lt hlt)
    rw [Nat.add_right_comm] at hnext
    exact .inl ⟨r + ns.length, j, l, n, hhigh.trans hj, hnew, hnext.trans hid⟩
  · exact .inr ⟨r, j, l, n, rfl, hnew, hj, hid⟩
  · have hlow := place_low ns hp (Nat.lt_of_succ_lt hgt)
    exact .inl ⟨r, j, l, n, hlow.trans hj, hnew, (place_low ns hp hgt).trans hid⟩

/-- What a guard consists of. -/
def guardNodes (flag : FieldRef) (l : Label) : List Node :=
  [.insn (.field .getStatic flag), .branch (.ifZero .ne l)]

theorem Woven.place_guard (h : b.Woven flag b.entries.toList b₁.entries.toList) (hb : b.WellMade)
    (hn : b₁.entries[p]? = some e) (he : e.1 ∈ b.ids) (hnext : b.nextId ≤ b₁.nextId) (l : Label) :
    b.Woven flag b.entries.toList (b₁.place p 0 (guardNodes flag l)).entries.toList := by
  have hread : (⟨b₁.nextId⟩ : NodeId) ∉ b.ids := hb.not_mem_ids hnext
  have hjump : (⟨b₁.nextId + 1⟩ : NodeId) ∉ b.ids := hb.not_mem_ids (Nat.le_succ_of_le hnext)
  have hdrop : b₁.entries.toList.drop p = e :: b₁.entries.toList.drop (p + 1) := onward_cons hn
  rw [split_entries hn] at h
  rw [place_entries, List.append_assoc, hdrop]
  exact h.insert_guard he hread hjump

theorem Woven.place_label (h : b.Woven flag b.entries.toList b₁.entries.toList) (hb : b.WellMade)
    (hn : b₁.entries[p]? = some e) (he : e.1 ∈ b.ids) (hnext : b.nextId ≤ b₁.nextId)
    (hl : b.nextLabel ≤ l.index) :
    b.Woven flag b.entries.toList (b₁.place (p + 1) 0 [.label l]).entries.toList := by
  have hid : (⟨b₁.nextId⟩ : NodeId) ∉ b.ids := hb.not_mem_ids hnext
  have htake : b₁.entries.toList.take (p + 1) = b₁.entries.toList.take p ++ [e] := by
    rw [List.take_add_one, Array.getElem?_toList, hn]
    rfl
  rw [split_entries hn] at h
  rw [place_entries, htake, List.append_assoc, List.append_assoc]
  exact h.insert_label he hid hl

/-- The jump of a guard comes to stand before the node. -/
theorem shielded_place (hb : b.WellMade) (hp : p ≤ b₁.size) {n : Node}
    (hn : b₁.entries[p]? = some (id, n)) (hnext : b.nextId ≤ b₁.nextId) (l : Label) :
    b.Shielded (b₁.place p 0 (guardNodes flag l)) id := by
  have hjump : (⟨b₁.nextId + 1⟩ : NodeId) ∉ b.ids := hb.not_mem_ids (Nat.le_succ_of_le hnext)
  have hnew := place_new (guardNodes flag l) hp (Nat.lt_succ_self 1)
  have hbehind := place_high (guardNodes flag l) hp (Nat.le_refl p)
  exact ⟨p + 1, _, l, n, hnew, hjump, hbehind.trans hn⟩

/-- A guard before a node keeps what is behind guards there, and adds the node to it. -/
theorem Grown.guard (hb : b.WellMade) (h : b.Grown b₁ flag) (hfirst : first ∈ b.ids)
    (hl : l.index < b₁.nextLabel) (hs : b₁.insertBefore first (guardNodes flag l) = .ok (ids, b₂)) :
    b.Grown b₂ flag ∧ b₂.nextLabel = b₁.nextLabel ∧ b.Shielded b₂ first ∧
      ∀ id, b.Shielded b₁ id → b.Shielded b₂ id := by
  obtain ⟨p, hp, hs⟩ := except_bind_ok.mp hs
  obtain ⟨n, hn⟩ := position_entry hp
  have hle : p ≤ b₁.size := Nat.le_of_lt (Array.getElem?_eq_some_iff.mp hn).1
  have hwell : b₂.WellMade := by
    refine h.wellMade.splice (fun n hn m hm => ?_) hs
    rcases List.mem_cons.mp hn with rfl | hn
    · cases hm
    · cases List.mem_singleton.mp hn
      cases List.mem_singleton.mp hm
      exact hl
  obtain ⟨edits, rfl⟩ := splice_place hs
  have hshield : b.Shielded (b₁.place p 0 (guardNodes flag l)) first :=
    shielded_place hb hle hn h.nextId l
  refine ⟨⟨⟨h.woven.place_guard hb hn hfirst h.nextId l, h.tryBlocks⟩, hwell,
    Nat.le_trans h.nextId (Nat.le_add_right _ _), h.nextLabel⟩, rfl, hshield, fun id hid => ?_⟩
  rcases hid.place (guardNodes flag l) hle with hid | ⟨r, j, l', m, -, -, -, hm⟩
  · exact hid
  · cases Option.some.inj (hn.symm.trans hm)
    exact hshield

/-- A label behind a node keeps what is behind guards there. -/
theorem Grown.label (hb : b.WellMade) (h : b.Grown b₁ flag) (hlast : last ∈ b.ids)
    (hnew : b.nextLabel ≤ l.index) (hl : l.index < b₁.nextLabel)
    (hs : b₁.insertAfter last [.label l] = .ok (ids, b₂)) :
    b.Grown b₂ flag ∧ ∀ id, b.Shielded b₁ id → b.Shielded b₂ id := by
  obtain ⟨p, hp, hs⟩ := except_bind_ok.mp hs
  obtain ⟨n, hn⟩ := position_entry hp
  have hle : p + 1 ≤ b₁.size := (Array.getElem?_eq_some_iff.mp hn).1
  have hwell : b₂.WellMade := by
    refine h.wellMade.splice (fun n hn m hm => ?_) hs
    cases List.mem_singleton.mp hn
    cases List.mem_singleton.mp hm
    exact hl
  obtain ⟨edits, rfl⟩ := splice_place hs
  refine ⟨⟨⟨h.woven.place_label hb hn hlast h.nextId hnew, h.tryBlocks⟩, hwell,
    Nat.le_trans h.nextId (Nat.le_add_right _ _), h.nextLabel⟩, fun id hid => ?_⟩
  rcases hid.place [.label l] hle with hid | ⟨r, j, l', m, heq, hj, hjump, -⟩
  · exact hid
  · cases Nat.succ.inj heq
    cases Option.some.inj (hn.symm.trans hjump)
    exact (hj hlast).elim

variable {k : Option InvokeKind} {owner : Option BinaryName} {name : MemberName}

theorem holdsAt_invoke : (Predicate.invoke k owner name).holdsAt b p = true ↔
    ∃ n, b.get? p = some n ∧ Predicate.matchesInvoke n k owner name = true := by
  rw [Predicate.holdsAt]
  cases b.get? p with
  | none => simp
  | some n => simp

theorem mem_allNodes {pred : Predicate} : id ∈ b.allNodes pred ↔
    ∃ p < b.size, pred.holdsAt b p = true ∧ b.idAt? p = some id := by
  simp only [allNodes, findAll, List.mem_filterMap, List.mem_filter, List.mem_range, and_assoc]

theorem call_mem_allNodes {n : Node} (h : b.entries[p]? = some (id, n))
    (hn : Predicate.matchesInvoke n k owner name = true) :
    id ∈ b.allNodes (.invoke k owner name) := by
  have hlt : p < b.size := (Array.getElem?_eq_some_iff.mp h).1
  refine mem_allNodes.mpr ⟨p, hlt, holdsAt_invoke.mpr ⟨n, get?_of_entry h, hn⟩, ?_⟩
  rw [idAt?, h]
  rfl

/-- Calls do not belong to guards. -/
theorem Grown.call (h : b.Grown b₁ flag) (hp : (Predicate.invoke k owner name).holdsAt b₁ q = true) :
    ∃ (id : NodeId) (i : Instruction) (p : Nat), b₁.entries[q]? = some (id, .insn i) ∧
      b.entries[p]? = some (id, .insn i) ∧ id ∈ b.ids ∧
      Predicate.matchesInvoke (Node.insn i) k owner name = true := by
  obtain ⟨n, hn, hcall⟩ := holdsAt_invoke.mp hp
  obtain ⟨⟨id, n⟩, he, rfl⟩ := Option.map_eq_some_iff.mp hn
  cases n with
  | insn i =>
    rcases h.found he with ⟨ho, p, hp, -⟩ | ⟨-, hguard⟩
    · exact ⟨id, i, p, he, hp, ho, hcall⟩
    · cases hguard
      cases hcall
  | _ => cases hcall

theorem Grown.call_mem (h : b.Grown b₁ flag)
    (hp : (Predicate.invoke k owner name).holdsAt b₁ q = true) (hid : b₁.idAt? q = some id) :
    id ∈ b.ids := by
  obtain ⟨id', i, p, he, -, ho, -⟩ := h.call hp
  rw [idAt?, he] at hid
  cases hid
  exact ho

theorem nextNode?_some {pred : Predicate} (h : b.nextNode? first pred = .ok (some last)) :
    ∃ p, pred.holdsAt b p = true ∧ b.idAt? p = some last := by
  obtain ⟨after, -, h⟩ := except_bind_ok.mp h
  obtain ⟨p, hp, hid⟩ := Option.bind_eq_some_iff.mp (Except.ok.inj h)
  exact ⟨p, List.find?_some hp, hid⟩

/-- Where all guards jump, no run comes to an instruction behind a guard. -/
theorem Grown.not_entered (h : b.Grown b₁ flag) (hb : b.WellMade) {i : Instruction}
    (hq : b₁.entries[q]? = some (id, Node.insn i)) (hshield : b.Shielded b₁ id) {s : Place}
    (hr : b₁.Run (.reading b flag true throws) ids s) : s.1 ≠ q := by
  rintro rfl
  obtain ⟨r, j, l, n, hjump, hnew, hid⟩ := hshield
  have hnext := h.wellMade.position_unique hq hid
  have nolabel {l : Label} (hl : b₁.labelPosition? l = some s.1) : False := by
    obtain ⟨⟨n, hn, hnl⟩, -⟩ := labelPosition?_eq_some.mp hl
    cases Option.some.inj (hn.symm.trans (get?_of_entry hq))
    cases hnl
  have inside : s.1 < b₁.size := (Array.getElem?_eq_some_iff.mp hq).1
  -- The only way in is from the jump, which the flag forces to be taken.
  cases hr with
  | start => cases hnext
  | @step ids s' _ e hr he hs =>
    obtain ⟨p, ha, -⟩ := h.run_right hb hr
    cases hs with
    | next he' hplain =>
      cases Nat.succ.inj hnext
      cases Option.some.inj (he'.symm.trans hjump)
      cases hplain
    | jump _ _ hl _ => exact nolabel hl
    | through hn _ _ hadmits =>
      cases Nat.succ.inj hnext
      cases Option.some.inj (hn.symm.trans (get?_of_entry hjump))
      cases ha with
      | meet hmeet =>
        rw [Meets, onward_cons hjump] at hmeet
        rcases hmeet.new_head hnew with ⟨⟨_, hl⟩, -⟩ | ⟨hread, -⟩
        · cases hl
        · cases hread
      | read => cases hadmits
    | back _ hcall hc =>
      cases Nat.succ.inj hnext
      cases Option.some.inj (hcall.symm.trans (get?_of_entry hjump))
      cases hc
    | handle _ _ _ hl => exact nolabel hl
    | leave _ => exact Nat.lt_irrefl _ inside
    | escape _ => exact Nat.lt_irrefl _ inside

end Body

namespace Rules

open Body

variable {b b₁ b₂ : Body} {flag : FieldRef} {first last id : NodeId} {k : Option InvokeKind}
  {owner : Option BinaryName} {name : MemberName}

theorem skipWhenSet_grown (hb : b.WellMade) (h : b.Grown b₁ flag) (hfirst : first ∈ b.ids)
    (hlast : last ∈ b.ids) (hs : skipWhenSet flag first last b₁ = .ok b₂) :
    b.Grown b₂ flag ∧ b.Shielded b₂ first ∧ ∀ id, b.Shielded b₁ id → b.Shielded b₂ id := by
  obtain ⟨⟨_, b₃⟩, hguard, hs⟩ := except_bind_ok.mp hs
  obtain ⟨⟨_, b₄⟩, hlabel, hs⟩ := except_bind_ok.mp hs
  cases hs
  have hfresh : b₁.nextLabel < b₁.newLabel.2.nextLabel := Nat.lt_succ_self _
  obtain ⟨h₃, hnext, hshield, hkeep⟩ := h.newLabel.guard hb hfirst hfresh hguard
  obtain ⟨h₄, hkeep'⟩ := h₃.label hb hlast h.nextLabel (hnext ▸ hfresh) hlabel
  exact ⟨h₄, hkeep' first hshield, fun id hid => hkeep' id (hkeep id hid)⟩

theorem blendEnd_mem {enable : Predicate} (h : b.Grown b₁ flag) (hfirst : first ∈ b.ids)
    (hend : blendEnd enable (.invoke k owner name) b₁ first = .ok last) : last ∈ b.ids := by
  obtain ⟨nextEnable, -, hend⟩ := except_bind_ok.mp hend
  obtain ⟨nextBlend, hblend, hend⟩ := except_bind_ok.mp hend
  cases nextBlend with
  | none =>
    cases hend
    exact hfirst
  | some f =>
    obtain ⟨p, hp, hid⟩ := nextNode?_some hblend
    have hf := h.call_mem hp hid
    cases nextEnable with
    | none =>
      cases hend
      exact hf
    | some n =>
      obtain ⟨before, -, hend⟩ := except_bind_ok.mp hend
      obtain ⟨place, -, hend⟩ := except_bind_ok.mp hend
      have hlast := Except.ok.inj hend
      split at hlast
      next => exact hlast ▸ hfirst
      next => exact hlast ▸ hf

theorem skipEnable_grown {enable : Predicate} (hb : b.WellMade) (h : b.Grown b₁ flag)
    (hfirst : first ∈ b.ids) (hs : skipEnable flag enable (.invoke k owner name) b₁ first = .ok b₂) :
    b.Grown b₂ flag ∧ b.Shielded b₂ first ∧ ∀ id, b.Shielded b₁ id → b.Shielded b₂ id := by
  obtain ⟨last, hend, hs⟩ := except_bind_ok.mp hs
  exact skipWhenSet_grown hb h hfirst (blendEnd_mem h hfirst hend) hs

theorem invokes_shape {t : SymbolTable} {kind : InvokeKind} {owner name : String} {pred : Predicate}
    (h : Predicate.invokes t kind owner name = .ok pred) :
    ∃ c n, pred = .invoke (some kind) (some c) n := by
  obtain ⟨c, -, h⟩ := except_bind_ok.mp h
  obtain ⟨n, -, h⟩ := except_bind_ok.mp h
  exact ⟨c, n, (Except.ok.inj h).symm⟩

/-- Every call that turns blending on or off gets a guard of its own. -/
theorem removeTransparency_grown {c : PatchContext} (hb : b.WellMade)
    (h : removeTransparency c b = .ok b₂) : ∃ enable disable flag,
    Predicate.invokes c.symbols .static glStateManager "enableBlend" = .ok enable ∧
    Predicate.invokes c.symbols .static glStateManager "disableBlend" = .ok disable ∧
    c.configFlag "removeCloudTransparency" = .ok flag ∧ b.Grown b₂ flag ∧
    ∀ q, enable.holdsAt b₂ q = true ∨ disable.holdsAt b₂ q = true →
      ∃ id i, b₂.entries[q]? = some (id, .insn i) ∧ b.Shielded b₂ id := by
  obtain ⟨enable, henable, h⟩ := except_bind_ok.mp h
  obtain ⟨disable, hdisable, h⟩ := except_bind_ok.mp h
  obtain ⟨blend, hblend, h⟩ := except_bind_ok.mp h
  obtain ⟨flag, hflag, h⟩ := except_bind_ok.mp h
  replace henable := except_mapError_ok.mp henable
  replace hdisable := except_mapError_ok.mp hdisable
  refine ⟨enable, disable, flag, henable, hdisable, hflag, ?_⟩
  obtain ⟨c₁, n₁, rfl⟩ := invokes_shape henable
  obtain ⟨c₂, n₂, rfl⟩ := invokes_shape hdisable
  obtain ⟨c₃, n₃, rfl⟩ := invokes_shape (except_mapError_ok.mp hblend)
  dsimp only at h
  split at h
  next => cases h
  next =>
    obtain ⟨b₁, hfirst, hsecond⟩ := except_bind_ok.mp h
    have hcalls {b₁ : Body} {m : MemberName} {c : BinaryName} (h : b.Grown b₁ flag) :
        ∀ id ∈ b₁.allNodes (.invoke (some .static) (some c) m), id ∈ b.ids := by
      intro id hid
      obtain ⟨p, -, hp, hid⟩ := mem_allNodes.mp hid
      exact h.call_mem hp hid
    obtain ⟨h₁, henabled, -⟩ := foldlM_each
      (fun call hcall b₃ b₄ h hs => skipEnable_grown hb h (hcalls hb.grown call hcall)
        (except_mapError_ok.mp hs)) hb.grown hfirst
    obtain ⟨h₂, hdisabled, hkeep⟩ := foldlM_each
      (fun call hcall b₃ b₄ h hs => skipWhenSet_grown hb h (hcalls h₁ call hcall)
        (hcalls h₁ call hcall) (except_mapError_ok.mp hs)) h₁ hsecond
    refine ⟨h₂, fun q hq => ?_⟩
    rcases hq with hq | hq
    · obtain ⟨id, i, p, he, hp, -, hcall⟩ := h₂.call hq
      exact ⟨id, i, he, hkeep id (henabled id (call_mem_allNodes hp hcall))⟩
    · obtain ⟨id, i, p, he, hp, -, hcall⟩ := h₂.call hq
      obtain ⟨q₁, hq₁, -⟩ := h₁.kept hp
      exact ⟨id, i, he, hdisabled id (call_mem_allNodes hq₁ hcall)⟩

/-- Where the flag is set, no run comes to a call that turns blending on or off. Where it is not set, the
runs are those from before, but for the guards. -/
theorem removeTransparency_guards {c : PatchContext} {b b' : Body} (hb : b.WellMade)
    (h : removeTransparency c b = .ok b') : ∃ enable disable flag,
    Predicate.invokes c.symbols .static glStateManager "enableBlend" = .ok enable ∧
    Predicate.invokes c.symbols .static glStateManager "disableBlend" = .ok disable ∧
    c.configFlag "removeCloudTransparency" = .ok flag ∧ ∀ throws : NodeId → Prop,
      (∀ ids s, b'.Run (.reading b flag true throws) ids s →
        enable.holdsAt b' s.1 = false ∧ disable.holdsAt b' s.1 = false) ∧
      (∀ ids, b.IsRun (.free throws) ids ↔
        ∃ ids', b'.IsRun (.reading b flag false throws) ids' ∧ b.ownPart ids' = ids) ∧
      ∀ ids, b.IsWholeRun (.free throws) ids ↔
        ∃ ids', b'.IsWholeRun (.reading b flag false throws) ids' ∧ b.ownPart ids' = ids := by
  obtain ⟨enable, disable, flag, henable, hdisable, hflag, hgrown, hshielded⟩ :=
    removeTransparency_grown hb h
  refine ⟨enable, disable, flag, henable, hdisable, hflag, fun throws => ⟨fun ids s hr => ?_,
    fun ids => hgrown.runs_iff hb, fun ids => hgrown.wholeRuns_iff hb⟩⟩
  have hnot : ¬ (enable.holdsAt b' s.1 = true ∨ disable.holdsAt b' s.1 = true) := by
    intro hcall
    obtain ⟨id, i, he, hshield⟩ := hshielded s.1 hcall
    exact hgrown.not_entered hb he hshield hr rfl
  simpa using hnot

end Rules

namespace BlendLoop

def call (name : MemberName) : Node :=
  .insn (.invoke .static ⟨.object ⟨Rules.glStateManager, by decide⟩, name, ⟨[], none⟩, false⟩)

def enableCall : Node := call ⟨"func_179147_l", by decide⟩

def disableCall : Node := call ⟨"func_179084_k", by decide⟩

def body : Body := { Body.ofNodes 1 [.label ⟨0⟩, enableCall, .insn (.load .int 0),
  .branch (.ifZero .ne ⟨0⟩), disableCall, .branch (.leave none)] with tryBlocks := [] }

def context (t : SymbolTable) : PatchContext :=
  ⟨t, Settings.standard, ⟨Rules.renderGlobal, by decide⟩⟩

def readFlag : Node := .insn (.field .getStatic ⟨Settings.standard.configClass,
  ⟨"removeCloudTransparency", by decide⟩, .base .boolean⟩)

def patchedNodes : List Node := [.label ⟨0⟩, readFlag, .branch (.ifZero .ne ⟨1⟩), enableCall,
  .label ⟨1⟩, .insn (.load .int 0), .branch (.ifZero .ne ⟨0⟩), readFlag, .branch (.ifZero .ne ⟨2⟩),
  disableCall, .label ⟨2⟩, .branch (.leave none)]

theorem patched : ∃ t b', SymbolTable.ofMappings .obfuscated Rules.builtinMappings = .ok t ∧
    Rules.removeTransparency (context t) body = .ok b' ∧ b'.nodes = patchedNodes := by
  have h : (SymbolTable.ofMappings .obfuscated Rules.builtinMappings).toOption.any (fun t =>
      (Rules.removeTransparency (context t) body).toOption.any fun b' =>
        b'.nodes = patchedNodes) = true := by
    decide +kernel
  obtain ⟨t, ht, h⟩ := toOption_any.mp h
  obtain ⟨b', hb, hnodes⟩ := toOption_any.mp h
  exact ⟨t, b', ht, hb, of_decide_eq_true hnodes⟩

end BlendLoop

open BlendLoop in
/-- In the patched loop neither call is come to while the flag is set. -/
theorem BlendLoop.calls_avoided : ∃ t b' enable disable flag, body.WellMade ∧
    Rules.removeTransparency (context t) body = .ok b' ∧ b'.nodes = patchedNodes ∧
    Predicate.invokes t .static Rules.glStateManager "enableBlend" = .ok enable ∧
    Predicate.invokes t .static Rules.glStateManager "disableBlend" = .ok disable ∧
    ∀ throws ids s, b'.Run (.reading body flag true throws) ids s →
      enable.holdsAt b' s.1 = false ∧ disable.holdsAt b' s.1 = false := by
  have hwell : body.WellMade := by decide
  obtain ⟨t, b', -, hpatch, hnodes⟩ := patched
  obtain ⟨enable, disable, flag, henable, hdisable, -, hruns⟩ :=
    Rules.removeTransparency_guards hwell hpatch
  exact ⟨t, b', enable, disable, flag, hwell, hpatch, hnodes, henable, hdisable,
    fun throws ids s hr => (hruns throws).1 ids s hr⟩

end ClassGraft
