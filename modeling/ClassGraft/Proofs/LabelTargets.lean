import ClassGraft.Proofs.ArenaChanges
import ClassGraft.Proofs.WellMadeBodies

namespace ClassGraft

/-- Where a change inserts nodes into a body, and which. -/
def BodyChange.insertion? (b : Body) : BodyChange → Option (Nat × List Node)
  | .insertBefore anchor ns => (b.position? anchor).map fun p => (p, ns)
  | .insertAfter anchor ns => (b.position? anchor).map fun p => (p + 1, ns)
  | .insertAtStart ns => some (0, ns)
  | _ => none

/-- The first instruction of a list. -/
def firstReal? (es : List Entry) : Option Entry := es.find? fun e => !e.2.isPseudo

theorem firstReal?_append (es fs : List Entry) :
    firstReal? (es ++ fs) = (firstReal? es).or (firstReal? fs) := List.find?_append

theorem firstReal?_eq_none {es : List Entry} :
    firstReal? es = none ↔ ∀ e ∈ es, e.2.isPseudo = true := by
  unfold firstReal?
  rw [List.find?_eq_none]
  simp only [Bool.not_eq_true', Bool.not_eq_false]

theorem firstReal?_zip_eq_none {ids : List NodeId} {ns : List Node} (h : ids.length = ns.length) :
    firstReal? (ids.zip ns) = none ↔ ∀ n ∈ ns, n.isPseudo = true := by
  have hns : (ids.zip ns).map Prod.snd = ns := List.map_snd_zip h.ge
  rw [firstReal?_eq_none]
  constructor
  · intro hes n hn
    obtain ⟨e, he, rfl⟩ := List.mem_map.mp (hns ▸ hn)
    exact hes e he
  · exact fun hall e he => hall e.2 (List.of_mem_zip he).2

namespace Body

/-- The instruction that a label designates, with its id. At the very end there is none. -/
def designated (b : Body) (l : Label) : Except ClassError (Option Entry) :=
  (b.labelTarget l).map fun p => p.bind fun p => b.entries[p]?

/-- The label lies before the position, and only pseudo nodes lie between. -/
def RunsInto (b : Body) (l : Label) (p : Nat) : Prop :=
  ∃ q < p, b.labelPosition? l = some q ∧
    ∀ k n, q < k → k < p → b.get? k = some n → n.isPseudo = true

variable {b b' : Body} {p q : Nat} {l : Label} {ns : List Node} {ids : List NodeId} {c : BodyChange}

theorem instructionFrom?_entry (b : Body) (p : Nat) :
    ((b.instructionFrom? p).bind fun p => b.entries[p]?) = firstReal? (b.entries.toList.drop p) := by
  fun_induction b.instructionFrom? p with
  | case1 p hlt hp ih =>
    rw [ih, List.drop_eq_getElem_cons (i := p) hlt]
    exact (List.find?_cons_of_neg (by simpa using hp)).symm
  | case2 p hlt hp =>
    rw [List.drop_eq_getElem_cons (i := p) hlt, Option.bind_some, Array.getElem?_eq_getElem hlt]
    exact (List.find?_cons_of_pos (by simpa using hp)).symm
  | case3 p hge =>
    rw [List.drop_eq_nil_of_le (Nat.le_of_not_lt hge)]
    rfl

theorem designated_at (hl : b.labelPosition? l = some q) :
    b.designated l = .ok (firstReal? (b.entries.toList.drop q)) := by
  rw [designated, labelTarget, labelPosition_ok.mpr hl]
  exact congrArg Except.ok (instructionFrom?_entry b q)

theorem runsInto_iff (hl : b.labelPosition? l = some q) : b.RunsInto l p ↔
    q < p ∧ firstReal? ((b.entries.toList.take p).drop q) = none := by
  have hentry {k : Nat} {e : Entry} : ((b.entries.toList.take p).drop q)[k]? = some e ↔
      q + k < p ∧ b.entries[q + k]? = some e := by
    rw [List.getElem?_drop, List.getElem?_take, Array.getElem?_toList]
    split
    next hlt => simp [hlt]
    next hge => simp [hge]
  rw [firstReal?_eq_none]
  constructor
  · rintro ⟨r, hr, hl', hpseudo⟩
    cases Option.some.inj (hl.symm.trans hl')
    refine ⟨hr, fun e he => ?_⟩
    obtain ⟨k, hk⟩ := List.mem_iff_getElem?.mp he
    obtain ⟨hlt, hk⟩ := hentry.mp hk
    cases k with
    | zero =>
      -- the label itself
      obtain ⟨⟨n, hn, hnl⟩, -⟩ := labelPosition?_eq_some.mp hl
      cases Option.some.inj (hn.symm.trans (get?_of_entry hk))
      cases hreal : e.2.isPseudo with
      | true => rfl
      | false =>
        rw [label?_real hreal] at hnl
        cases hnl
    | succ k => exact hpseudo (q + (k + 1)) e.2 (by omega) hlt (get?_of_entry hk)
  · rintro ⟨hlt, hpseudo⟩
    refine ⟨q, hlt, hl, fun k n hqk hkp hn => ?_⟩
    obtain ⟨e, he, rfl⟩ := Option.map_eq_some_iff.mp hn
    obtain ⟨i, rfl⟩ := Nat.exists_eq_add_of_lt hqk
    exact hpseudo e (List.mem_iff_getElem?.mpr ⟨i + 1, hentry.mpr ⟨hkp, he⟩⟩)

theorem splice_length {anchor : Option NodeId} (h : b.splice p 0 anchor ns = .ok (ids, b')) :
    ids.length = ns.length := by
  obtain ⟨_, -, h⟩ := except_bind_ok.mp h
  cases h
  rw [List.length_map, number, List.length_mapIdx]

theorem splice_entries {anchor : Option NodeId} (h : b.splice p 0 anchor ns = .ok (ids, b')) :
    b'.entries.toList = b.entries.toList.take p ++ (ids.zip ns ++ b.entries.toList.drop p) := by
  obtain ⟨_, -, h⟩ := except_bind_ok.mp h
  cases h
  rw [Arena.number_ids_nodes, ← List.append_assoc]
  exact place_entries b p ns

theorem anchored_splice {f : Nat → Nat} {anchor : NodeId} {at? : Option NodeId} {ms : List Node}
    (hc : (b.position? anchor).map (fun r => (f r, ms)) = some (p, ns))
    (h : (b.position anchor >>= fun r => b.splice (f r) 0 at? ms).map
      (fun (ids, b) => (ChangeResult.ids ids, b)) = .ok (.ids ids, b')) :
    (∃ r < b.size, f r = p) ∧ b.splice p 0 at? ns = .ok (ids, b') := by
  obtain ⟨r, hr, he⟩ := Option.map_eq_some_iff.mp hc
  cases he
  obtain ⟨x, hx, he⟩ := except_map_ok h
  cases he
  rw [position_ok.mpr hr] at hx
  exact ⟨⟨r, position_lt hr, rfl⟩, hx⟩

theorem insertion_splice (hc : c.insertion? b = some (p, ns))
    (h : b.change c = .ok (.ids ids, b')) :
    p ≤ b.size ∧ ∃ anchor, b.splice p 0 anchor ns = .ok (ids, b') := by
  cases c with
  | insertBefore anchor ms =>
    obtain ⟨⟨r, hr, rfl⟩, hsplice⟩ := anchored_splice (f := fun r => r) hc h
    exact ⟨Nat.le_of_lt hr, _, hsplice⟩
  | insertAfter anchor ms =>
    obtain ⟨⟨r, hr, rfl⟩, hsplice⟩ := anchored_splice (f := fun r => r + 1) hc h
    exact ⟨hr, _, hsplice⟩
  | insertAtStart ms =>
    cases hc
    obtain ⟨x, hx, he⟩ := except_map_ok h
    cases he
    exact ⟨Nat.zero_le _, _, hx⟩
  | _ => cases hc

/-- Where a label designates what comes first: up to the insertion, in it, and behind it. -/
theorem designated_inserted {anchor : Option NodeId} (hp : p ≤ b.size)
    (h : b.splice p 0 anchor ns = .ok (ids, b')) (hl : b.labelPosition? l = some q) :
    (q < p → b'.designated l = .ok ((firstReal? ((b.entries.toList.take p).drop q)).or
        ((firstReal? (ids.zip ns)).or (firstReal? (b.entries.toList.drop p)))) ∧
      b.designated l = .ok ((firstReal? ((b.entries.toList.take p).drop q)).or
        (firstReal? (b.entries.toList.drop p)))) ∧
    (p ≤ q → b'.designated l = b.designated l) := by
  have hentries := splice_entries h
  have hl' := (splice_inserts hp h).labelPosition? hl
  have hlen : (b.entries.toList.take p).length = p := List.length_take_of_le hp
  constructor
  · intro hlt
    have hqle : q ≤ (b.entries.toList.take p).length := by omega
    rw [if_pos hlt] at hl'
    constructor
    · rw [designated_at hl', hentries, List.drop_append_of_le_length hqle, firstReal?_append,
        firstReal?_append]
    · have hsplit := congrArg (List.drop q) (List.take_append_drop p b.entries.toList)
      rw [List.drop_append_of_le_length hqle] at hsplit
      rw [designated_at hl, ← hsplit, firstReal?_append]
  · intro hle
    obtain ⟨edits, rfl⟩ := splice_place h
    have hdrop : (b.place p 0 ns).entries.toList.drop (q + ns.length) = b.entries.toList.drop q := by
      refine List.ext_getElem? fun k => ?_
      rw [List.getElem?_drop, List.getElem?_drop, Array.getElem?_toList, Array.getElem?_toList,
        ← place_high ns hp (Nat.le_add_right_of_le hle), Nat.add_right_comm]
    rw [if_neg (Nat.not_lt.mpr hle)] at hl'
    rw [designated_at hl', designated_at hl]
    exact congrArg (fun es => Except.ok (firstReal? es)) hdrop

/-- Insertions redirect the labels that run into them, and no others. -/
theorem change_designated (hc : c.insertion? b = some (p, ns)) (hl : b.isPlaced l = true)
    (h : b.change c = .ok (.ids ids, b')) :
    ids.length = ns.length ∧
      (b.RunsInto l p → (∃ n ∈ ns, n.isPseudo = false) →
        ∃ e, firstReal? (ids.zip ns) = some e ∧ b'.designated l = .ok (some e)) ∧
      (¬ (b.RunsInto l p ∧ ∃ n ∈ ns, n.isPseudo = false) → b'.designated l = b.designated l) := by
  obtain ⟨hp, anchor, hsplice⟩ := insertion_splice hc h
  obtain ⟨q, hq⟩ := Option.isSome_iff_exists.mp hl
  obtain ⟨hbefore, hbehind⟩ := designated_inserted hp hsplice hq
  have hlen := splice_length hsplice
  have hreal : firstReal? (ids.zip ns) = none ↔ ¬ ∃ n ∈ ns, n.isPseudo = false := by
    rw [firstReal?_zip_eq_none hlen]
    simp only [not_exists, not_and, Bool.not_eq_false]
  refine ⟨hlen, fun hruns hn => ?_, fun hnot => ?_⟩
  · obtain ⟨hlt, hnone⟩ := (runsInto_iff hq).mp hruns
    obtain ⟨e, he⟩ := Option.ne_none_iff_exists'.mp fun hfirst => hreal.mp hfirst hn
    refine ⟨e, he, ?_⟩
    rw [(hbefore hlt).1, hnone, he]
    rfl
  · by_cases hlt : q < p
    · obtain ⟨hnew, hold⟩ := hbefore hlt
      rw [hnew, hold]
      cases hfirst : firstReal? ((b.entries.toList.take p).drop q) with
      | some e => rfl
      | none =>
        -- the label runs into the insertion, so nothing that is inserted is real
        rw [hreal.mpr fun hn => hnot ⟨(runsInto_iff hq).mpr ⟨hlt, hfirst⟩, hn⟩]
        rfl
    · exact hbehind (Nat.le_of_not_lt hlt)

/-- A line that jumps go to. -/
def line : Body := {
  empty with
  entries := #[(⟨0⟩, .label ⟨0⟩), (⟨1⟩, .line 12), (⟨2⟩, .branch (.leave none))]
  nextId := 3
  nextLabel := 1 }

def longerLine : Body := {
  line with
  entries := #[(⟨0⟩, .label ⟨0⟩), (⟨1⟩, .line 12), (⟨3⟩, .line 13), (⟨4⟩, .insn .nop),
    (⟨2⟩, .branch (.leave none))]
  nextId := 5
  version := 1
  edits := #[⟨some ⟨2⟩, [⟨3⟩, ⟨4⟩], [], 0, 0⟩] }

theorem longerLine_designated :
    let c : BodyChange := .insertBefore ⟨2⟩ [.line 13, .insn .nop]
    c.insertion? line = some (2, [.line 13, .insn .nop]) ∧ line.isPlaced ⟨0⟩ = true ∧
      line.change c = .ok (.ids [⟨3⟩, ⟨4⟩], longerLine) ∧ line.RunsInto ⟨0⟩ 2 ∧
      line.designated ⟨0⟩ = .ok (some (⟨2⟩, .branch (.leave none))) ∧
      longerLine.designated ⟨0⟩ = .ok (some (⟨4⟩, .insn .nop)) := by
  intro c
  have hc : c.insertion? line = some (2, [.line 13, .insn .nop]) := by cbv
  have hplaced : line.isPlaced ⟨0⟩ = true := by cbv
  have hchange : line.change c = .ok (.ids [⟨3⟩, ⟨4⟩], longerLine) := by cbv
  have hlabel : line.labelPosition? ⟨0⟩ = some 0 := by cbv
  have hruns : line.RunsInto ⟨0⟩ 2 := (runsInto_iff hlabel).mpr ⟨by decide, by cbv⟩
  obtain ⟨-, hredirected, -⟩ := change_designated hc hplaced hchange
  obtain ⟨e, he, hdesignated⟩ := hredirected hruns ⟨.insn .nop, by simp, rfl⟩
  cases he
  exact ⟨hc, hplaced, hchange, hruns, designated_at hlabel, hdesignated⟩

end Body

end ClassGraft
