import ClassGraft.Patch.Matching
import ClassGraft.Proofs.LabelTargets

namespace ClassGraft

section

variable {P : Nat → Bool} {n k p : Nat}

theorem filter_range_split (hp : p < n) (hP : P p = true) : (List.range n).filter P =
    (List.range p).filter P ++ p :: (List.range' (p + 1) (n - (p + 1))).filter P := by
  have hsplit : List.range n = List.range p ++ p :: List.range' (p + 1) (n - (p + 1)) := by
    obtain ⟨m, rfl⟩ := Nat.exists_eq_add_of_lt hp
    rw [Nat.add_right_comm, Nat.add_sub_cancel_left, Nat.add_right_comm, Nat.add_assoc,
      List.range_eq_range', List.range_eq_range', ← List.range'_append_1, List.range'_succ, Nat.zero_add]
  rw [hsplit, List.filter_append, List.filter_cons_of_pos hP]

/-- As many numbers before it pass the test as its place among them says. -/
theorem filter_range_place (h : ((List.range n).filter P)[k]? = some p) :
    p < n ∧ P p = true ∧ ((List.range p).filter P).length = k := by
  obtain ⟨hp, hP⟩ := List.mem_filter.mp (List.mem_of_getElem? h)
  have hp := List.mem_range.mp hp
  refine ⟨hp, hP, ?_⟩
  have hnodup : ((List.range n).filter P).Nodup := List.nodup_range.filter _
  have hplace : ((List.range n).filter P)[((List.range p).filter P).length]? = some p := by
    rw [filter_range_split hp hP, List.getElem?_append_right (Nat.le_refl _), Nat.sub_self]
    rfl
  exact (List.getElem?_inj (List.getElem?_eq_some_iff.mp hplace).1 hnodup).mp (hplace.trans h.symm)

theorem filter_range_next (h : ((List.range n).filter P)[k]? = some p) :
    ((List.range n).filter P)[k + 1]? = (List.range' (p + 1) (n - (p + 1))).find? P := by
  obtain ⟨hp, hP, rfl⟩ := filter_range_place h
  rw [filter_range_split hp hP, List.getElem?_append_right (Nat.le_add_right _ 1),
    Nat.add_sub_cancel_left, List.getElem?_cons_succ, ← List.head?_eq_getElem?, List.head?_filter]

theorem filter_range_previous (h : ((List.range n).filter P)[k]? = some p) :
    (List.range p).reverse.find? P = if k = 0 then none else ((List.range n).filter P)[k - 1]? := by
  obtain ⟨hp, hP, rfl⟩ := filter_range_place h
  rw [← List.head?_filter, List.filter_reverse, List.head?_reverse, List.getLast?_eq_getElem?]
  split
  next hzero => rw [List.length_eq_zero_iff.mp hzero]; rfl
  next hpos => rw [filter_range_split hp hP, List.getElem?_append_left (by omega)]

end

/-- What passes a test in a list, by position. -/
theorem filter_positions {α : Type} (P : α → Bool) (as : List α) :
    ((List.range as.length).filter fun p => as[p]?.any P).map (as[·]?) = (as.filter P).map some := by
  induction as with
  | nil => rfl
  | cons a as ih =>
    have hrest : ((List.map Nat.succ (List.range as.length)).filter fun p => (a :: as)[p]?.any P).map
        ((a :: as)[·]?) = (as.filter P).map some := by
      rw [List.filter_map, List.map_map, ← ih]
      rfl
    rw [List.length_cons, List.range_succ_eq_map, List.filter_cons]
    cases ha : P a with
    | true =>
      rw [List.filter_cons_of_pos ha, if_pos (by simpa using ha), List.map_cons, hrest]
      rfl
    | false =>
      rw [List.filter_cons_of_neg (by simp [ha]), if_neg (by simp [ha]), hrest]

namespace Body

variable {b : Body} {k q : Nat}

def isInstruction (b : Body) (position : Nat) : Bool := (b.get? position).any fun n => !n.isPseudo

def instructionPositions (b : Body) : List Nat := (List.range b.size).filter b.isInstruction

/-- The position of an instruction, by the number of instructions before it. -/
def instructionAt? (b : Body) (k : Nat) : Option Nat := b.instructionPositions[k]?

/-- The instructions in order, without all that lies between them. -/
def stripped (b : Body) : List Node := b.nodes.filter fun n => !n.isPseudo

theorem stripped_at (b : Body) : b.instructionPositions.map b.get? = b.stripped.map some := by
  have hsize : b.size = b.nodes.length := by rw [nodes, List.length_map, Array.length_toList, size]
  have hget : b.get? = (b.nodes[·]?) := funext fun p => (nodes_get? b p).symm
  unfold instructionPositions isInstruction
  rw [hsize, hget]
  exact filter_positions _ b.nodes

theorem instructionPositions_length : b.instructionPositions.length = b.stripped.length := by
  have h := congrArg List.length b.stripped_at
  rwa [List.length_map, List.length_map] at h

theorem get?_instructionAt? (h : b.instructionAt? k = some q) : b.get? q = b.stripped[k]? := by
  have hk := congrArg (·[k]?) b.stripped_at
  simp only [List.getElem?_map] at hk
  rw [← instructionAt?, h] at hk
  cases hn : b.stripped[k]? with
  | none => rw [hn] at hk; cases hk
  | some n => rw [hn] at hk; exact Option.some.inj hk

theorem instructionFrom?_find (b : Body) (p : Nat) :
    b.instructionFrom? p = (List.range' p (b.size - p)).find? b.isInstruction := by
  fun_induction b.instructionFrom? p with
  | case1 p hlt hp ih =>
    have hsize : b.size - p = b.size - (p + 1) + 1 := by unfold size; omega
    have hn : b.isInstruction p = false := by
      simp [isInstruction, get?, Array.getElem?_eq_getElem hlt, hp]
    rw [hsize, List.range'_succ, List.find?_cons_of_neg (by simp [hn]), ih]
  | case2 p hlt hp =>
    have hsize : b.size - p = b.size - (p + 1) + 1 := by unfold size; omega
    have hn : b.isInstruction p = true := by
      simp [isInstruction, get?, Array.getElem?_eq_getElem hlt, hp]
    rw [hsize, List.range'_succ, List.find?_cons_of_pos hn]
  | case3 p hge =>
    have hsize : b.size - p = 0 := by unfold size; omega
    rw [hsize]
    rfl

theorem instructionBefore?_find (b : Body) (p : Nat) :
    b.instructionBefore? p = (List.range p).reverse.find? b.isInstruction := by
  induction p with
  | zero => rfl
  | succ p ih =>
    rw [List.range_succ, List.reverse_append, List.reverse_singleton, List.singleton_append,
      List.find?_cons, ← ih, isInstruction, instructionBefore?]
    cases b.get? p with
    | none => rfl
    | some n => cases hn : n.isPseudo <;> simp [hn]

/-- The next instruction has the next number. -/
theorem instructionFrom?_at (h : b.instructionAt? k = some q) :
    b.instructionFrom? (q + 1) = b.instructionAt? (k + 1) :=
  (b.instructionFrom?_find (q + 1)).trans (filter_range_next h).symm

theorem instructionBefore?_at (h : b.instructionAt? k = some q) :
    b.instructionBefore? q = if k = 0 then none else b.instructionAt? (k - 1) :=
  (b.instructionBefore?_find q).trans (filter_range_previous h)

end Body

namespace Predicate

/-- Positions that have the same nodes, and neighbours of the same kind, match alike. -/
theorem matchesBy_congr {get? get?' : Nat → Option Node} {next? next?' : Nat → Option Nat}
    {previous? previous?' : Nat → Option Nat} {R : Nat → Nat → Prop}
    (hget : ∀ p q, R p q → get? p = get?' q)
    (hnext : ∀ p q, R p q → Option.Rel R (next? p) (next?' q))
    (hprevious : ∀ p q, R p q → Option.Rel R (previous? p) (previous?' q)) (pred : Predicate)
    {p q : Nat} (h : R p q) :
    pred.matchesBy get? next? previous? p = pred.matchesBy get?' next?' previous?' q := by
  have beside {f g : Nat → Bool} {x y : Option Nat} (hfg : ∀ {p q}, R p q → f p = g q)
      (hxy : Option.Rel R x y) : (x.map f).getD false = (y.map g).getD false := by
    cases hxy with
    | none => rfl
    | some hr => exact hfg hr
  induction pred generalizing p q with
  | followedBy left right ihl ihr =>
    rw [matchesBy, matchesBy, hget p q h]
    dsimp only
    rw [ihl h, beside ihr (hnext p q h)]
  | precededBy left right ihl ihr =>
    rw [matchesBy, matchesBy, hget p q h]
    dsimp only
    rw [ihl h, beside ihr (hprevious p q h)]
  | and left right ihl ihr | or left right ihl ihr =>
    rw [matchesBy, matchesBy, hget p q h]
    dsimp only
    rw [ihl h, ihr h]
  | not inner ih =>
    rw [matchesBy, matchesBy, hget p q h]
    dsimp only
    rw [ih h]
  | _ => rw [matchesBy, matchesBy, hget p q h]

theorem holdsAt_eq (b : Body) (pred : Predicate) :
    pred.holdsAt b = pred.matchesBy b.get? (fun p => b.instructionFrom? (p + 1)) b.instructionBefore? := by
  funext p
  induction pred generalizing p with
  | followedBy left right ihl ihr | precededBy left right ihl ihr =>
    rw [holdsAt, matchesBy]
    cases b.get? p with
    | none => rfl
    | some n => dsimp only; rw [ihl, funext ihr]
  | and left right ihl ihr | or left right ihl ihr =>
    rw [holdsAt, matchesBy]
    cases b.get? p with
    | none => rfl
    | some n => dsimp only; rw [ihl, ihr]
  | not inner ih =>
    rw [holdsAt, matchesBy]
    cases b.get? p with
    | none => rfl
    | some n => dsimp only; rw [ih]
  | _ => cases hn : b.get? p <;> simp only [holdsAt, matchesBy, hn]

/-- Does an instruction match, among instructions that follow one another? -/
def holdsAmong (ns : List Node) : Predicate → Nat → Bool :=
  matchesBy (ns[·]?) (fun k => if k + 1 < ns.length then some (k + 1) else none)
    (fun k => if k = 0 then none else some (k - 1))

variable {b : Body} {k q : Nat}

/-- What matches is settled by the instructions. -/
theorem holdsAt_instructionAt? (pred : Predicate) (h : b.instructionAt? k = some q) :
    pred.holdsAt b q = pred.holdsAmong b.stripped k := by
  rw [holdsAt_eq, holdsAmong]
  refine matchesBy_congr (R := fun q k => b.instructionAt? k = some q)
    (fun q k h => Body.get?_instructionAt? h) (fun q k h => ?_) (fun q k h => ?_) pred h
  · rw [Body.instructionFrom?_at h]
    split
    next hlt =>
      obtain ⟨r, hr⟩ : ∃ r, b.instructionAt? (k + 1) = some r :=
        ⟨_, List.getElem?_eq_getElem (Body.instructionPositions_length ▸ hlt)⟩
      rw [hr]
      exact .some hr
    next hge =>
      have hnone : b.instructionAt? (k + 1) = none :=
        List.getElem?_eq_none (Body.instructionPositions_length ▸ Nat.le_of_not_lt hge)
      rw [hnone]
      exact .none
  · rw [Body.instructionBefore?_at h]
    split
    next => exact .none
    next hpos =>
      obtain ⟨hlt, -⟩ := List.getElem?_eq_some_iff.mp h
      obtain ⟨r, hr⟩ : ∃ r, b.instructionAt? (k - 1) = some r :=
        ⟨_, List.getElem?_eq_getElem (by omega)⟩
      rw [hr]
      exact .some hr

end Predicate

namespace Arena

variable {a : Arena}

theorem Sound.order_get? (h : a.Sound) (p : Nat) : a.order[p]? = (a.pairs[p]?).map Prod.fst := by
  rw [← h.ids, List.getElem?_map]

theorem Sound.body_get? (h : a.Sound) (p : Nat) : a.body.get? p = a.get? p := by
  have hentry : a.body.entries[p]? = a.pairs[p]? := List.getElem?_toArray
  rw [Body.get?, hentry, get?, h.order_get?]
  cases he : a.pairs[p]? with
  | none => rfl
  | some e => exact (h.mem_pairs.mp (List.mem_of_getElem? he)).symm

/-- The first instruction is the same, whether it is found by its id or by its position. -/
theorem Sound.body_instructionFrom? (h : a.Sound) (p : Nat) :
    a.body.instructionFrom? p = (a.instructionFrom? p).bind a.position? := by
  have hentry := a.body.instructionFrom?_entry p
  have hfind : a.instructionFrom? p = (firstReal? (a.pairs.drop p)).map Prod.fst := by
    rw [instructionFrom?, ← h.ids, ← List.map_drop, List.find?_map, firstReal?]
    refine congrArg _ (List.find?_congr fun e he => ?_)
    rw [Function.comp_apply, h.mem_pairs.mp (List.mem_of_mem_drop he)]
    rfl
  rw [hfind, ← (show a.body.entries.toList = a.pairs from rfl), ← hentry]
  cases hr : a.body.instructionFrom? p with
  | none => rfl
  | some r =>
    obtain ⟨-, n, hn, -⟩ := Body.instructionFrom?_spec hr
    obtain ⟨e, he, -⟩ := Option.map_eq_some_iff.mp hn
    have hid : a.order[r]? = some e.1 := by
      rw [h.order_get?, ← List.getElem?_toArray]
      exact congrArg (Option.map Prod.fst) he
    rw [Option.bind_some, he]
    exact ((h.placed e.1 r).mpr hid).symm

theorem Sound.body_instructionBefore? (h : a.Sound) (p : Nat) :
    a.body.instructionBefore? p = a.previousInstruction? p := by
  rw [Body.instructionBefore?_find, previousInstruction?]
  refine List.find?_congr fun q _ => ?_
  rw [Body.isInstruction, h.body_get?]

theorem Sound.holdsAt_body (h : a.Sound) (pred : Predicate) : a.holdsAt pred = pred.holdsAt a.body := by
  have hnext : (fun p => a.body.instructionFrom? (p + 1)) = a.nextInstruction? :=
    funext fun p => h.body_instructionFrom? (p + 1)
  rw [Predicate.holdsAt_eq, holdsAt, hnext, funext h.body_get?, funext h.body_instructionBefore?]

theorem Sound.body_allNodes (h : a.Sound) (pred : Predicate) :
    a.body.allNodes pred = a.allNodes pred := by
  have hid : a.body.idAt? = (a.order[·]?) := by
    funext p
    rw [h.order_get?, ← List.getElem?_toArray]
    rfl
  rw [Body.allNodes, Body.findAll, h.body_size, ← h.holdsAt_body, hid, allNodes]

/-- Nodes are pushed one after the other. -/
def ofNodes (ns : List Node) : Arena := ns.foldl (fun a n => (Arena.change (.push n) a).2) empty

theorem ofNodes_sound (ns : List Node) : (ofNodes ns).Sound := by
  suffices h : (ofNodes ns).Reached from (empty_sound.leads h).1
  induction ns using List.reverseRecOn with
  | nil => exact .refl
  | append_singleton ns n ih =>
    rw [ofNodes, List.foldl_append]
    exact .step ih trivial

end Arena

namespace Predicate

/-- A predicate that matches an instruction matches it among the same instructions, whatever else there is.
It is the same where nodes are held. -/
theorem holdsAt_instructions (pred : Predicate) :
    (∀ b c : Body, b.stripped = c.stripped → ∀ k,
      (b.instructionAt? k).map (pred.holdsAt b) = (c.instructionAt? k).map (pred.holdsAt c)) ∧
    ∀ a : Arena, a.Sound → a.holdsAt pred = pred.holdsAt a.body := by
  refine ⟨fun b c h k => ?_, fun a ha => ha.holdsAt_body pred⟩
  have hlength : b.instructionPositions.length = c.instructionPositions.length := by
    rw [Body.instructionPositions_length, Body.instructionPositions_length, h]
  cases hb : b.instructionAt? k with
  | none =>
    have hc : c.instructionAt? k = none :=
      List.getElem?_eq_none (hlength ▸ List.getElem?_eq_none_iff.mp hb)
    rw [hc, Option.map_none, Option.map_none]
  | some p =>
    obtain ⟨hlt, -⟩ := List.getElem?_eq_some_iff.mp hb
    obtain ⟨q, hc⟩ : ∃ q, c.instructionAt? k = some q := ⟨_, List.getElem?_eq_getElem (hlength ▸ hlt)⟩
    rw [hc, Option.map_some, Option.map_some, pred.holdsAt_instructionAt? hb,
      pred.holdsAt_instructionAt? hc, h]

/-- A constant between something else and a return. -/
def lastConstant : Predicate :=
  .precededBy (.followedBy (.literal (.int 2)) (.category .return)) (.not (.category .constant))

/-- It is matched where only lines are known, and where all that a compiler writes is there. -/
def linedNodes : List Node :=
  [.insn .nop, .line 7, .insn (.constInt ⟨3, by decide⟩), .line 8, .branch (.leave none)]

def debugBody : Body := {
  Body.empty with
  entries := #[(⟨0⟩, .label ⟨0⟩), (⟨1⟩, .line 7), (⟨2⟩, .insn .nop), (⟨3⟩, .label ⟨1⟩),
    (⟨4⟩, .frame ⟨[], []⟩), (⟨5⟩, .insn (.constInt ⟨3, by decide⟩)), (⟨6⟩, .branch (.leave none))]
  nextId := 7
  nextLabel := 2 }

theorem lastConstant_stripped :
    let a := Arena.ofNodes linedNodes
    a.Sound ∧ a.body.stripped = debugBody.stripped ∧ a.body.instructionAt? 1 = some 2 ∧
      debugBody.instructionAt? 1 = some 5 ∧ a.holdsAt lastConstant 2 = true ∧
      lastConstant.holdsAt debugBody 5 = true := by
  intro a
  have hsound : a.Sound := Arena.ofNodes_sound linedNodes
  have hsame : a.body.stripped = debugBody.stripped := by decide +kernel
  have ha : a.body.instructionAt? 1 = some 2 := by decide +kernel
  have hb : debugBody.instructionAt? 1 = some 5 := by decide +kernel
  have hmatch : lastConstant.holdsAt debugBody 5 = true := by decide +kernel
  obtain ⟨hstripped, hheld⟩ := holdsAt_instructions lastConstant
  have hboth := hstripped a.body debugBody hsame 1
  rw [ha, hb] at hboth
  refine ⟨hsound, hsame, ha, hb, ?_, hmatch⟩
  rw [hheld a hsound]
  exact (Option.some.inj hboth).trans hmatch

end Predicate

end ClassGraft
