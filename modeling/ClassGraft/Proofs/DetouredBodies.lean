import ClassGraft.Proofs.NullDetours
import ClassGraft.Rules.TabOverlay

namespace ClassGraft

namespace Body

variable {b b' b₁ : Body} {id anchor check stand : NodeId} {flag : FieldRef} {l m : Label}
  {p q r w k : Nat} {ns : List Node} {e : Entry} {n : Node}

theorem instructionBefore?_lt (h : b.instructionBefore? p = some q) : q < p := by
  induction p with
  | zero => cases h
  | succ p ih =>
    unfold instructionBefore? at h
    split at h
    next =>
      split at h
      next => exact Nat.lt_succ_of_lt (ih h)
      next =>
        cases h
        exact Nat.lt_succ_self _
    next => exact Nat.lt_succ_of_lt (ih h)

theorem idAt?_entry (h : b.idAt? p = some id) : ∃ n, b.entries[p]? = some (id, n) := by
  obtain ⟨⟨_, n⟩, he, rfl⟩ := Option.map_eq_some_iff.mp h
  exact ⟨n, he⟩

theorem WellMade.position_eq (hb : b.WellMade) (hp : b.entries[p]? = some (id, n))
    (hq : b.position id = .ok q) : q = p := by
  obtain ⟨m, hm⟩ := position_entry hq
  exact hb.position_unique hm hp

theorem WellMade.previousInstruction_lt (hb : b.WellMade) (hp : b.entries[p]? = some (id, n))
    (h : b.previousInstruction id = .ok (some anchor)) :
    ∃ q m, q < p ∧ b.entries[q]? = some (anchor, m) := by
  obtain ⟨r, hr, h⟩ := except_bind_ok.mp h
  cases hb.position_eq hp hr
  obtain ⟨q, hq, hid⟩ := Option.bind_eq_some_iff.mp (Except.ok.inj h)
  obtain ⟨m, hm⟩ := idAt?_entry hid
  exact ⟨q, m, instructionBefore?_lt hq, hm⟩

theorem WellMade.nextInstruction_gt (hb : b.WellMade) (hp : b.entries[p]? = some (id, n))
    (h : b.nextInstruction id = .ok (some anchor)) :
    ∃ q m, p < q ∧ b.entries[q]? = some (anchor, m) := by
  obtain ⟨r, hr, h⟩ := except_bind_ok.mp h
  cases hb.position_eq hp hr
  obtain ⟨q, hq, hid⟩ := Option.bind_eq_some_iff.mp (Except.ok.inj h)
  obtain ⟨m, hm⟩ := idAt?_entry hid
  exact ⟨q, m, (instructionFrom?_spec hq).1, hm⟩

theorem node_entry (h : b.node id = .ok n) : ∃ p : Nat, b.entries[p]? = some (id, n) := by
  unfold node at h
  split at h
  next e he =>
    obtain ⟨hid, p, hp, rfl, -⟩ := Array.find?_eq_some_iff_getElem.mp he
    cases Except.ok.inj h
    refine ⟨p, ?_⟩
    rw [Array.getElem?_eq_getElem hp, ← beq_iff_eq.mp hid]
  next => cases h

theorem replaced_toList (b : Body) (p : Nat) (ns : List Node) : (b.place p 1 ns).entries.toList =
    b.entries.toList.take p ++ (number b.nextId ns ++ b.entries.toList.drop (p + 1)) := by
  simp only [place, Array.toList_append, Array.toList_extract, List.extract_eq_take_drop,
    List.drop_zero, Nat.sub_zero, List.append_assoc]
  rw [List.take_of_length_le (i := b.entries.size - (p + 1)) (by simp)]

/-- The node at a position has been replaced. -/
structure Replaces (b b' : Body) (p : Nat) (ns : List Node) : Prop where
  low : ∀ q < p, b'.entries[q]? = b.entries[q]?
  new : ∀ i n, ns[i]? = some n → b'.entries[p + i]? = some (⟨b.nextId + i⟩, n)
  high : ∀ q, p < q → b'.entries[q - 1 + ns.length]? = b.entries[q]?
  size : b'.size = b.size - 1 + ns.length
  tryBlocks : b'.tryBlocks = b.tryBlocks

theorem replaces_place (hp : p < b.size) (ns : List Node) : b.Replaces (b.place p 1 ns) p ns := by
  have hlen : (b.entries.toList.take p).length = p := List.length_take_of_le (Nat.le_of_lt hp)
  have hnumber : (number b.nextId ns).length = ns.length := List.length_mapIdx
  refine ⟨fun q hq => ?_, fun i n hn => ?_, fun q hq => ?_, ?_, rfl⟩
  · rw [← Array.getElem?_toList, replaced_toList, List.getElem?_append_left (by omega),
      List.getElem?_take, if_pos hq, Array.getElem?_toList]
  · have hi : i < ns.length := (List.getElem?_eq_some_iff.mp hn).1
    rw [← Array.getElem?_toList, replaced_toList, List.getElem?_append_right (by omega), hlen,
      Nat.add_sub_cancel_left, List.getElem?_append_left (by omega), number, List.getElem?_mapIdx, hn]
    rfl
  · rw [← Array.getElem?_toList, replaced_toList, List.getElem?_append_right (by omega), hlen,
      List.getElem?_append_right (by omega), hnumber, List.getElem?_drop, Array.getElem?_toList]
    congr 1
    omega
  · have hsize := congrArg List.length (replaced_toList b p ns)
    simp only [List.length_append, List.length_drop, hlen, Array.length_toList, hnumber] at hsize
    unfold size at *
    omega

theorem splice_replaces {anchor : Option NodeId} {ids : List NodeId} (hp : p < b.size)
    (h : b.splice p 1 anchor ns = .ok (ids, b')) : b.Replaces b' p ns := by
  obtain ⟨_, -, h⟩ := except_bind_ok.mp h
  cases h
  exact { replaces_place hp ns with }

theorem place_size (b : Body) (hp : p ≤ b.size) (ns : List Node) :
    (b.place p 0 ns).size = b.size + ns.length := by
  have hnumber : (number b.nextId ns).length = ns.length := List.length_mapIdx
  have hlen := congrArg List.length (place_entries b p ns)
  simp only [List.length_append, List.length_drop, List.length_take, Array.length_toList, hnumber]
    at hlen
  unfold size at *
  omega

/-- A label may have been put behind the node at a position. -/
structure Trails (b b₁ : Body) (w k : Nat) : Prop where
  low : ∀ q ≤ w, b₁.entries[q]? = b.entries[q]?
  high : ∀ q, w < q → b₁.entries[q + k]? = b.entries[q]?
  label : k = 0 ∨ k = 1 ∧ ∃ id m, b₁.entries[w + 1]? = some (id, .label m) ∧
    b.nextId ≤ id.index ∧ id.index < b₁.nextId ∧ b.nextLabel ≤ m.index
  size : b₁.size = b.size + k
  tryBlocks : b₁.tryBlocks = b.tryBlocks
  nextId : b.nextId ≤ b₁.nextId
  nextLabel : b.nextLabel ≤ b₁.nextLabel
  wellMade : b₁.WellMade

theorem WellMade.trails (hb : b.WellMade) (w : Nat) : b.Trails b w 0 where
  low _ _ := rfl
  high _ _ := rfl
  label := .inl rfl
  size := rfl
  tryBlocks := rfl
  nextId := Nat.le_refl _
  nextLabel := Nat.le_refl _
  wellMade := hb

theorem WellMade.trails_label (hb : b.WellMade) (hw : b.entries[w]? = some (id, n)) {ids : List NodeId}
    (h : b.newLabel.2.insertAfter id [.label ⟨b.nextLabel⟩] = .ok (ids, b₁)) : b.Trails b₁ w 1 := by
  obtain ⟨r, hr, hs⟩ := except_bind_ok.mp h
  cases hb.newLabel.position_eq hw hr
  have hle : w + 1 ≤ b.size := (Array.getElem?_eq_some_iff.mp hw).1
  have hwell : b₁.WellMade := by
    refine hb.newLabel.splice (fun n hn m hm => ?_) hs
    cases List.mem_singleton.mp hn
    cases List.mem_singleton.mp hm
    exact Nat.lt_succ_self _
  obtain ⟨edits, rfl⟩ := splice_place hs
  have hlabel : (number b.nextId [Node.label ⟨b.nextLabel⟩])[0]? =
      some (⟨b.nextId⟩, .label ⟨b.nextLabel⟩) := rfl
  have hnew := place_new (b := b.newLabel.2) [.label ⟨b.nextLabel⟩] hle Nat.one_pos
  exact {
    low := fun q hq => place_low (b := b.newLabel.2) _ hle (Nat.lt_succ_of_le hq)
    high := fun q hq => place_high (b := b.newLabel.2) _ hle hq
    label := .inr ⟨rfl, _, _, hnew.trans hlabel, Nat.le_refl _, Nat.lt_succ_self _, Nat.le_refl _⟩
    size := place_size b.newLabel.2 hle [.label ⟨b.nextLabel⟩]
    tryBlocks := rfl
    nextId := Nat.le_succ _
    nextLabel := Nat.le_succ _
    wellMade := hwell }

/-- Where the nodes of a body are when a check has been replaced by five nodes and `k` more have been put
behind the node at `w`. -/
def afterDetour (p w k q : Nat) : Nat := if q ≤ p then q else if q ≤ w then q + 4 else q + 4 + k

theorem afterDetour_mono : StrictMono (afterDetour p w k) := by
  intro q r hlt
  unfold afterDetour
  split_ifs <;> omega

theorem afterDetour_low (h : q ≤ p) : afterDetour p w k q = q := if_pos h

theorem afterDetour_mid (h : p < q) (hq : q ≤ w) : afterDetour p w k q = q + 4 := by
  rw [afterDetour, if_neg (Nat.not_le.mpr h), if_pos hq]

theorem afterDetour_high (hpw : p ≤ w) (h : w < q) : afterDetour p w k q = q + 4 + k := by
  rw [afterDetour, if_neg (by omega), if_neg (Nat.not_le.mpr h)]

/-- A check for the opposite, and for null a read of a flag and two jumps. -/
def detourNodes (flag : FieldRef) (m skip draw : Label) : List Node := [
  .branch (.ifNull .ne m),
  .insn (.field .getStatic flag),
  .branch (.ifZero .eq skip),
  .branch (.goto draw),
  .label m]

theorem detourNodes_plain {m skip draw : Label} {i : Nat} (hi : i < 4) : ∃ n,
    (detourNodes flag m skip draw)[i]? = some n ∧ n.label? = none ∧
    ∀ br, n = .branch br → br.isCall = false := by
  match i, hi with
  | 0, _ => exact ⟨_, rfl, rfl, by simp [Branch.isCall]⟩
  | 1, _ => exact ⟨_, rfl, rfl, by simp⟩
  | 2, _ => exact ⟨_, rfl, rfl, by simp [Branch.isCall]⟩
  | 3, _ => exact ⟨_, rfl, rfl, by simp [Branch.isCall]⟩

section Detour

variable {skip draw : Label} (h : b.Trails b₁ w k)
  (hr : b₁.newLabel.2.Replaces b' p (detourNodes flag ⟨b₁.nextLabel⟩ skip draw))

theorem WellMade.former_new (hb : b.WellMade) (hid : b.nextId ≤ id.index) (hne : id ≠ stand) :
    former check stand id ∉ (b.aim check skip).ids := by
  rw [former_of_ne hne, aim_ids]
  exact hb.not_mem_ids hid

include h in
theorem Trails.former_next (hb : b.WellMade) {i : Nat} (hi : 0 < i) :
    former check ⟨b₁.nextId⟩ ⟨b₁.nextId + i⟩ ∉ (b.aim check skip).ids := by
  refine hb.former_new (Nat.le_trans h.nextId (Nat.le_add_right _ _)) fun heq => ?_
  have := NodeId.mk.inj heq
  omega

include hr in
theorem entry_behind_detour (hq : p < q) : b'.entries[q + 4]? = b₁.entries[q]? := by
  have hidx : q - 1 + 5 = q + 4 := by omega
  have hhigh : b'.entries[q - 1 + 5]? = b₁.entries[q]? := hr.high q hq
  rwa [hidx] at hhigh

include h hr

theorem Trails.entry_kept (hpw : p < w) (hq : q ≠ p) :
    b'.entries[afterDetour p w k q]? = b.entries[q]? := by
  rcases Nat.lt_or_gt_of_ne hq with hlt | hgt
  · rw [afterDetour_low (Nat.le_of_lt hlt)]
    exact (hr.low q hlt).trans (h.low q (Nat.le_of_lt (Nat.lt_trans hlt hpw)))
  · by_cases hqw : q ≤ w
    · rw [afterDetour_mid hgt hqw, entry_behind_detour hr hgt, h.low q hqw]
    · have hqk : p < q + k := Nat.lt_add_right k hgt
      have hwq : w < q := Nat.lt_of_not_le hqw
      rw [afterDetour_high (Nat.le_of_lt hpw) hwq, Nat.add_right_comm, entry_behind_detour hr hqk,
        h.high q hwq]

/-- The new label of the detour is placed behind it. -/
theorem Trails.resume_placed : b'.labelPosition? ⟨b₁.nextLabel⟩ = some (p + 4) := by
  refine labelPosition?_eq_some.mpr
    ⟨⟨_, get?_of_entry (hr.new 4 _ rfl), rfl⟩, fun j hj n hn hlabel => ?_⟩
  by_cases hjp : j < p
  · -- All labels that were there before are older.
    have hold : b₁.get? j = some n := by
      rw [← hn, get?, get?, hr.low j hjp]
      rfl
    exact Nat.lt_irrefl _ (h.wellMade.labels ⟨b₁.nextLabel⟩ (label_mem_labels hold hlabel))
  · obtain ⟨i, rfl⟩ := Nat.exists_eq_add_of_le (Nat.le_of_not_lt hjp)
    obtain ⟨n', hn', hnone, -⟩ := detourNodes_plain (Nat.lt_of_add_lt_add_left hj)
    cases Option.some.inj (hn.symm.trans (get?_of_entry (hr.new i n' hn')))
    cases hnone.symm.trans hlabel

/-- From one node to the next there is at most the label in between. -/
theorem Trails.next_detoured (hb : b.WellMade) (hpw : p < w) (hq : q ≠ p) :
    afterDetour p w k (q + 1) = afterDetour p w k q + 1 ∨
      afterDetour p w k (q + 1) = afterDetour p w k q + 2 ∧
      ∃ id m, former check ⟨b₁.nextId⟩ id ∉ (b.aim check skip).ids ∧
        b'.entries[afterDetour p w k q + 1]? = some (id, .label m) := by
  rcases Nat.lt_or_gt_of_ne hq with hlt | hpq
  · exact .inl (by rw [afterDetour_low (Nat.le_of_lt hlt), afterDetour_low hlt])
  · rcases Nat.lt_trichotomy q w with hqw | rfl | hqw
    · rw [afterDetour_mid hpq (Nat.le_of_lt hqw), afterDetour_mid (Nat.lt_succ_of_lt hpq) hqw]
      exact .inl (Nat.add_right_comm q 1 4)
    · rw [afterDetour_mid hpq (Nat.le_refl q),
        afterDetour_high (Nat.le_of_lt hpq) (Nat.lt_succ_self q)]
      rcases h.label with rfl | ⟨rfl, id, m, hlabel, hid, hid', -⟩
      · exact .inl (Nat.add_right_comm q 1 4)
      · have hne : id ≠ ⟨b₁.nextId⟩ := fun heq => Nat.ne_of_lt hid' (congrArg NodeId.index heq)
        have hentry := entry_behind_detour hr (Nat.lt_succ_of_lt hpq)
        exact .inr ⟨by omega, id, m, hb.former_new hid hne, hentry.trans hlabel⟩
    · rw [afterDetour_high (Nat.le_of_lt hpw) hqw,
        afterDetour_high (Nat.le_of_lt hpw) (Nat.lt_succ_of_lt hqw)]
      exact .inl (by omega)

/-- What is behind the detour was there before, or is the label. -/
theorem Trails.found_behind (hpw : p < w) (hpq : p < q) (he : b'.entries[q + 4]? = some e) :
    (∃ r ≠ p, q + 4 = afterDetour p w k r) ∨ ∃ m, e.2 = .label m ∧ b.nextLabel ≤ m.index := by
  rw [entry_behind_detour hr hpq] at he
  rcases Nat.lt_trichotomy q (w + 1) with hqw | rfl | hqw
  · exact .inl ⟨q, Nat.ne_of_gt hpq, (afterDetour_mid hpq (Nat.le_of_lt_succ hqw)).symm⟩
  · rcases h.label with rfl | ⟨rfl, id, m, hlabel, -, -, hm⟩
    · refine .inl ⟨w + 1, Nat.ne_of_gt hpq, ?_⟩
      rw [afterDetour_high (Nat.le_of_lt hpw) (Nat.lt_succ_self w)]
    · cases Option.some.inj (he.symm.trans hlabel)
      exact .inr ⟨m, rfl, hm⟩
  · have hk : k ≤ 1 := h.label.elim (fun hk => by omega) fun hk => by omega
    refine .inl ⟨q - k, by omega, ?_⟩
    rw [afterDetour_high (Nat.le_of_lt hpw) (by omega)]
    omega

theorem Trails.found_detoured {r : Nat} (hpw : p < w) (he : b'.entries[r]? = some e) :
    (∃ q ≠ p, r = afterDetour p w k q) ∨ r = p ∨
      (∀ br, e.2 = .branch br → br.isCall = false) ∧ ∀ m, e.2 = .label m → b.nextLabel ≤ m.index := by
  by_cases hlow : r < p
  · exact .inl ⟨r, Nat.ne_of_lt hlow, (afterDetour_low (Nat.le_of_lt hlow)).symm⟩
  obtain ⟨i, rfl⟩ := Nat.exists_eq_add_of_le (Nat.le_of_not_lt hlow)
  rcases Nat.lt_trichotomy i 4 with hi | rfl | hi
  · obtain ⟨n, hn, hnone, hcall⟩ := detourNodes_plain hi
    cases Option.some.inj (he.symm.trans (hr.new i n hn))
    refine .inr (.inr ⟨hcall, fun m hm => ?_⟩)
    cases hm
    cases hnone
  · cases Option.some.inj (he.symm.trans (hr.new 4 _ rfl))
    refine .inr (.inr ⟨by simp, fun m hm => ?_⟩)
    cases hm
    exact h.nextLabel
  · obtain ⟨q, hq⟩ : ∃ q, p + i = q + 4 := ⟨p + i - 4, by omega⟩
    rw [hq] at he ⊢
    rcases h.found_behind hr hpw (by omega) he with hold | ⟨m, hm, hnew⟩
    · exact .inl hold
    · refine .inr (.inr ⟨by simp [hm], fun m' hm' => ?_⟩)
      cases hm.symm.trans hm'
      exact hnew

/-- The check is replaced by a detour. -/
theorem Trails.detours (hb : b.WellMade)
    (hp : b.entries[p]? = some (check, .branch (.ifNull .eq l))) (hpw : p < w) (hw : w < b.size) :
    (b.aim check skip).Detours b' check ⟨b₁.nextId⟩ flag skip p (afterDetour p w k) where
  tryBlocks := hr.tryBlocks.trans h.tryBlocks
  mono := afterDetour_mono
  start := afterDetour_low (Nat.zero_le p)
  stop := by
    have hsize : b'.size = b₁.size - 1 + 5 := hr.size
    have := h.size
    rw [aim_size, afterDetour_high (Nat.le_of_lt hpw) hw]
    omega
  here := afterDetour_low (Nat.le_refl p)
  checked := by
    rw [aim_entry hp, if_pos rfl]
    rfl
  fresh := by
    rw [aim_ids]
    exact hb.not_mem_ids h.nextId
  opposite := ⟨⟨b₁.nextLabel⟩, hr.new 0 _ rfl, h.resume_placed hr⟩
  read := ⟨_, h.former_next hb Nat.one_pos, hr.new 1 _ rfl⟩
  judge := ⟨_, h.former_next hb Nat.two_pos, hr.new 2 _ rfl⟩
  resume := ⟨afterDetour_mid (Nat.lt_succ_self p) hpw, _, _, h.former_next hb (by decide),
    hr.new 4 _ rfl⟩
  kept q hq := by rw [h.entry_kept hr hpw hq, hb.aim_other hp hq]
  next q hq := h.next_detoured hr hb hpw hq
  found r e he := h.found_detoured hr hpw he

end Detour

end Body

end ClassGraft
