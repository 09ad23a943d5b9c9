import ClassGraft.Proofs.RepeatedValidation
import ClassGraft.Proofs.WellMadeBodies

namespace ClassGraft

namespace Node

/-- The depth with which the flow goes on to the next node, if it does. Behind a subroutine call it is
that from before the call. -/
def onward? (n : Node) (d : Nat) : Option Nat :=
  match n with
  | .branch br =>
    if br.isCall then some d
    else if br.fallsThrough then some ((Node.branch br).depthAfter d)
    else none
  | n => some (n.depthAfter d)

/-- The depth behind straight code. -/
def depthBehind (ns : List Node) (d : Nat) : Nat := ns.foldl (fun d n => n.depthAfter d) d

/-- Straight code finds all that it pops. -/
def Fits : List Node → Nat → Prop
  | [], _ => True
  | n :: ns, d => n.slots.popped ≤ d ∧ Fits ns (n.depthAfter d)

variable {n : Node} {ns : List Node} {d i : Nat}

theorem onward?_plain (h : n.branch? = none) (d : Nat) : n.onward? d = some (n.depthAfter d) := by
  cases n with
  | branch br => cases h
  | _ => rfl

theorem depthBehind_take_succ (h : ns[i]? = some n) (d : Nat) :
    depthBehind (ns.take (i + 1)) d = n.depthAfter (depthBehind (ns.take i) d) := by
  rw [depthBehind, List.take_add_one, h, List.foldl_append]
  rfl

theorem Fits.depthBehind (h : Fits ns d) : (Node.depthBehind ns d : Int) = d + totalEffect ns := by
  induction ns generalizing d with
  | nil => exact (Int.add_zero _).symm
  | cons n ns ih =>
    have hstep : (n.depthAfter d : Int) = d + n.effect := by
      have := h.1
      unfold depthAfter effect
      omega
    calc (Node.depthBehind ns (n.depthAfter d) : Int)
      _ = n.depthAfter d + totalEffect ns := ih h.2
      _ = d + totalEffect (n :: ns) := by rw [hstep, Int.add_assoc]; rfl

theorem Fits.popped (h : Fits ns d) (hn : ns[i]? = some n) :
    n.slots.popped ≤ Node.depthBehind (ns.take i) d := by
  induction ns generalizing d i with
  | nil => cases hn
  | cons m ns ih =>
    cases i with
    | zero =>
      cases hn
      exact h.1
    | succ i => exact ih h.2 hn

end Node

namespace Body

/-- The flow comes to a place between two nodes without a jump. -/
inductive Crosses (b : Body) : Nat → Nat → Prop
  | start : Crosses b 0 0
  | onward {p d e : Nat} {n : Node} : b.Reaches p d → b.get? p = some n → n.onward? d = some e →
      Crosses b (p + 1) e

/-- Where the node at a position is behind an insertion. -/
def shiftBy (p count q : Nat) : Nat := if q < p then q else q + count

/-- Where the flow from before a position comes to behind an insertion. -/
def arrival (p count q : Nat) : Nat := if q ≤ p then q else q + count

/-- Straight code has been inserted next to an instruction. It finds what it pops and leaves as much as
it finds. -/
structure Interposes (b b' : Body) (q : Nat) (ns : List Node) : Prop extends Inserts b b' q ns where
  tryBlocks : b'.tryBlocks = b.tryBlocks
  plain : ∀ n ∈ ns, n.branch? = none ∧ n.label? = none
  fits : ∀ d, b.Crosses q d → Node.Fits ns d
  neutral : Node.totalEffect ns = 0
  beside : ∃ p n, b.get? p = some n ∧ n.isPseudo = false ∧ (q = p ∨ q = p + 1)

/-- Where the paths behind an insertion come from: they lead to old nodes as before, and to new ones
from the place of the insertion. -/
inductive Origin (b : Body) (q : Nat) (ns : List Node) : Nat → Nat → Prop
  | old {k r d : Nat} : r = shiftBy q ns.length k → b.Reaches k d → Origin b q ns r d
  | new {i r d e : Nat} : i < ns.length → r = q + i → b.Crosses q d →
      e = Node.depthBehind (ns.take i) d → Origin b q ns r e

/-- Depths are computed for the changed body too. They are the same at the nodes that were there, and
what could be reached still can. -/
def Undisturbed (b : Body) (parameters : Nat) (a : StackAnalysis) (b' : Body) : Prop :=
  ∃ a', b'.analyzeStack parameters = .ok a' ∧
    (∀ id ∈ b.ids, ∀ d, (id, d) ∈ b'.depthsById a' ↔ (id, d) ∈ b.depthsById a) ∧
    b'.checkReachable (b.reachable a) a' = .ok ()

variable {b b' : Body} {p q k m r d e i count parameters : Nat} {n : Node} {ns : List Node} {l : Label}
  {t : TryBlock} {a : StackAnalysis} {id anchor : NodeId} {ids : List NodeId}

theorem shiftBy_low (h : k < q) (count : Nat) : shiftBy q count k = k := if_pos h

theorem shiftBy_high (h : q ≤ k) (count : Nat) : shiftBy q count k = k + count :=
  if_neg (Nat.not_lt.mpr h)

theorem shiftBy_le : shiftBy q count k ≤ shiftBy q count m ↔ k ≤ m := by
  unfold shiftBy
  split <;> split <;> omega

theorem shiftBy_lt : shiftBy q count k < shiftBy q count m ↔ k < m := by
  rw [← Nat.not_le, shiftBy_le, Nat.not_le]

theorem shiftBy_inj (h : shiftBy q count k = shiftBy q count m) : k = m :=
  Nat.le_antisymm (shiftBy_le.mp (Nat.le_of_eq h)) (shiftBy_le.mp (Nat.le_of_eq h.symm))

theorem shiftBy_ne (h : i < count) : shiftBy q count k ≠ q + i := by
  unfold shiftBy
  split <;> omega

theorem shiftBy_cases (q count r : Nat) :
    (∃ k, r = shiftBy q count k) ∨ ∃ i < count, r = q + i := by
  by_cases hlow : r < q
  · exact .inl ⟨r, (shiftBy_low hlow count).symm⟩
  · by_cases hnew : r < q + count
    · exact .inr ⟨r - q, by omega, by omega⟩
    · exact .inl ⟨r - count, by rw [shiftBy_high (by omega)]; omega⟩

theorem arrival_self (q count : Nat) : arrival q count q = q := if_pos (Nat.le_refl q)

theorem arrival_ne (h : k ≠ q) (count : Nat) : arrival q count k = shiftBy q count k := by
  unfold arrival shiftBy
  split <;> split <;> omega

theorem arrival_succ (q count k : Nat) : arrival q count (k + 1) = shiftBy q count k + 1 := by
  unfold arrival shiftBy
  split <;> split <;> omega

/-- Flow goes on to the next node or to the target of a jump. -/
theorem flow_iff : b.Flow p d q e ↔ ∃ n, b.get? p = some n ∧
    ((q = p + 1 ∧ n.onward? d = some e) ∨
      (e = n.depthAfter d ∧ ∃ br l, n = .branch br ∧ l ∈ br.targets ∧ b.labelPosition? l = some q)) := by
  constructor
  · intro h
    cases h with
    | next hn hb => exact ⟨_, hn, .inl ⟨rfl, Node.onward?_plain hb d⟩⟩
    | jump hn hl hq => exact ⟨_, hn, .inr ⟨rfl, _, _, rfl, hl, hq⟩⟩
    | through hn hf hc => exact ⟨_, hn, .inl ⟨rfl, by simp only [Node.onward?, hc, hf]; rfl⟩⟩
    | resume hn hc => exact ⟨_, hn, .inl ⟨rfl, if_pos hc⟩⟩
  · rintro ⟨n, hn, ⟨rfl, hon⟩ | ⟨rfl, br, l, rfl, hl, hq⟩⟩
    · cases n with
      | branch br =>
        simp only [Node.onward?] at hon
        split at hon
        next hc =>
          cases hon
          exact .resume hn hc
        next hc =>
          split at hon
          next hf =>
            cases hon
            exact .through hn hf (Bool.eq_false_iff.mpr hc)
          next => cases hon
      | _ =>
        cases hon
        exact .next hn rfl
    · exact .jump hn hl hq

theorem Crosses.reaches (h : b.Crosses q d) : b.Reaches q d := by
  cases h with
  | start => exact .start
  | onward hr hn hon => exact hr.flow (flow_iff.mpr ⟨_, hn, .inl ⟨rfl, hon⟩⟩)

namespace Interposes

section

variable (h : b.Interposes b' q ns)
include h

theorem get?_shift (k : Nat) : b'.get? (shiftBy q ns.length k) = b.get? k := h.get?_old k

theorem label_shift (hl : b.labelPosition? l = some k) :
    b'.labelPosition? l = some (shiftBy q ns.length k) := h.labelPosition? hl

theorem label_back (hl : b'.labelPosition? l = some r) :
    ∃ k, b.labelPosition? l = some k ∧ r = shiftBy q ns.length k := by
  obtain ⟨⟨n, hn, hnl⟩, -⟩ := labelPosition?_eq_some.mp hl
  have hplaced : b.isPlaced l = true := by
    rcases shiftBy_cases q ns.length r with ⟨k, rfl⟩ | ⟨i, hi, rfl⟩
    · exact isPlaced_iff.mpr ⟨k, n, (h.get?_shift k).symm.trans hn, hnl⟩
    · rw [h.get?_new hi] at hn
      cases hnl.symm.trans (h.plain n (List.mem_of_getElem? hn)).2
  obtain ⟨k, hk⟩ := Option.isSome_iff_exists.mp hplaced
  exact ⟨k, hk, Option.some.inj (hl.symm.trans (h.label_shift hk))⟩

theorem protects_shift : b'.Protects t (shiftBy q ns.length k) ↔ b.Protects t k := by
  constructor
  · rintro ⟨start', stop', n, hs', he', hle, hlt, hn, hreal⟩
    obtain ⟨start, hs, rfl⟩ := h.label_back hs'
    obtain ⟨stop, he, rfl⟩ := h.label_back he'
    exact ⟨start, stop, n, hs, he, shiftBy_le.mp hle, shiftBy_lt.mp hlt,
      (h.get?_shift k).symm.trans hn, hreal⟩
  · rintro ⟨start, stop, n, hs, he, hle, hlt, hn, hreal⟩
    exact ⟨_, _, n, h.label_shift hs, h.label_shift he, shiftBy_le.mpr hle, shiftBy_lt.mpr hlt,
      (h.get?_shift k).trans hn, hreal⟩

theorem size_eq : b'.size = b.size + ns.length := by
  have hlen : (b.nodes.take q).length = q := List.length_take_of_le h.le
  have hle := h.le
  rw [← nodes_length, ← nodes_length, h.nodes, List.length_append, List.length_append, hlen,
    List.length_drop]
  omega

/-- The inserted code leaves the depth as it was. -/
theorem depthBehind_eq (hc : b.Crosses q d) : Node.depthBehind ns d = d := by
  have hdepth := (h.fits d hc).depthBehind
  rw [h.neutral, Int.add_zero] at hdepth
  exact Int.ofNat_inj.mp hdepth

theorem threads (hr : b'.Reaches q d) (hi : i ≤ ns.length) :
    b'.Reaches (q + i) (Node.depthBehind (ns.take i) d) := by
  induction i with
  | zero => exact hr
  | succ i ih =>
    have hlt : i < ns.length := hi
    have hn : ns[i]? = some ns[i] := List.getElem?_eq_getElem hlt
    rw [Node.depthBehind_take_succ hn]
    exact (ih (Nat.le_of_lt hlt)).flow (.next ((h.get?_new hlt).trans hn)
      (h.plain _ (List.getElem_mem hlt)).1)

/-- The flow that came to a node comes to it through what has been inserted before it. -/
theorem arrives (hc : b.Crosses k d) (hr : b'.Reaches (arrival q ns.length k) d) :
    b'.Reaches (shiftBy q ns.length k) d := by
  by_cases hkq : k = q
  · subst hkq
    rw [arrival_self] at hr
    have hend := h.threads hr (Nat.le_refl _)
    rw [List.take_length, h.depthBehind_eq hc] at hend
    rwa [shiftBy_high (Nat.le_refl k)]
  · rwa [arrival_ne hkq] at hr

theorem reaches_shift (hr : b.Reaches k d) : b'.Reaches (shiftBy q ns.length k) d := by
  induction hr with
  | start => exact h.arrives .start .start
  | @flow k d k' e hr hf ih =>
    obtain ⟨n, hn, ⟨rfl, hon⟩ | ⟨rfl, br, l, rfl, hl, hk'⟩⟩ := flow_iff.mp hf
    · refine h.arrives (.onward hr hn hon) ?_
      rw [arrival_succ]
      exact ih.flow (flow_iff.mpr ⟨n, (h.get?_shift k).trans hn, .inl ⟨rfl, hon⟩⟩)
    · exact ih.flow (.jump ((h.get?_shift k).trans hn) hl (h.label_shift hk'))
  | handle _ ht hp hh ih =>
    exact ih.handle (h.tryBlocks ▸ ht) (h.protects_shift.mpr hp) (h.label_shift hh)

theorem crosses_origin (hc : b.Crosses k d) : Origin b q ns (arrival q ns.length k) d := by
  by_cases hkq : k = q
  · subst hkq
    rw [arrival_self]
    cases hns : ns with
    | nil => exact .old (shiftBy_high (Nat.le_refl k) 0).symm hc.reaches
    | cons n ns => exact .new (Nat.succ_pos _) rfl hc rfl
  · exact .old (arrival_ne hkq _) hc.reaches

/-- A range that covers new code covers the instruction next to it, which is reached if the code is. -/
theorem guarded (ho : Origin b q ns r d) (hp : b'.Protects t r) :
    ∃ k e, b.Reaches k e ∧ b.Protects t k := by
  cases ho with
  | old hr hk => exact ⟨_, _, hk, h.protects_shift.mp (hr ▸ hp)⟩
  | @new i _ d _ hi hr hc =>
    obtain ⟨start', stop', -, hs', he', hle, hlt, -, -⟩ := hp
    obtain ⟨start, hs, rfl⟩ := h.label_back hs'
    obtain ⟨stop, he, rfl⟩ := h.label_back he'
    have hstart : start < q := by
      unfold shiftBy at hle
      split at hle <;> omega
    have hstop : q ≤ stop := by
      unfold shiftBy at hlt
      split at hlt <;> omega
    obtain ⟨p, n, hn, hreal, hq⟩ := h.beside
    have hcovers (hp : p < stop) : b.Protects t p :=
      ⟨start, stop, n, hs, he, by omega, hp, hn, hreal⟩
    rcases hq with rfl | rfl
    · refine ⟨q, d, hc.reaches, hcovers (Nat.lt_of_le_of_ne hstop ?_)⟩
      -- there is a label where the range ends
      rintro rfl
      obtain ⟨⟨m, hm, hml⟩, -⟩ := labelPosition?_eq_some.mp he
      cases Option.some.inj (hn.symm.trans hm)
      rw [label?_real hreal] at hml
      cases hml
    · cases hc with
      | onward hr => exact ⟨p, _, hr, hcovers (by omega)⟩

/-- By induction on the new path. Inside the new code it goes on node by node, and it leaves with the
depth with which it came in. -/
theorem origin (hr : b'.Reaches r d) : Origin b q ns r d := by
  induction hr with
  | start => exact h.crosses_origin .start
  | @flow r d r' e _ hf ih =>
    obtain ⟨n, hn, hstep⟩ := flow_iff.mp hf
    cases ih with
    | @old k _ _ hr hk =>
      subst hr
      have hn := (h.get?_shift k).symm.trans hn
      rcases hstep with ⟨rfl, hon⟩ | ⟨rfl, br, l, rfl, hl, hr'⟩
      · rw [← arrival_succ]
        exact h.crosses_origin (.onward hk hn hon)
      · obtain ⟨k', hk', rfl⟩ := h.label_back hr'
        exact .old rfl (hk.flow (.jump hn hl hk'))
    | @new i _ d₀ _ hi hr hc hd =>
      subst hr hd
      have hn := (h.get?_new hi).symm.trans hn
      have hplain := (h.plain n (List.mem_of_getElem? hn)).1
      rcases hstep with ⟨rfl, hon⟩ | ⟨-, br, -, rfl, -, -⟩
      · rw [Node.onward?_plain hplain, ← Node.depthBehind_take_succ hn] at hon
        cases hon
        by_cases hnext : i + 1 < ns.length
        · exact .new hnext rfl hc rfl
        · have hlast : i + 1 = ns.length := Nat.le_antisymm hi (Nat.le_of_not_lt hnext)
          rw [hlast, List.take_length, h.depthBehind_eq hc, Nat.add_assoc, hlast]
          exact .old (shiftBy_high (Nat.le_refl q) _).symm hc.reaches
      · cases hplain
  | handle _ ht hp hh ih =>
    obtain ⟨k, hk, rfl⟩ := h.label_back hh
    obtain ⟨m, c, hm, hprotects⟩ := h.guarded ih hp
    exact .old rfl (hm.handle (h.tryBlocks ▸ ht) hprotects hk)

theorem reaches_shift_iff : b'.Reaches (shiftBy q ns.length k) d ↔ b.Reaches k d := by
  refine ⟨fun hr => ?_, h.reaches_shift⟩
  cases h.origin hr with
  | old he hk => exact shiftBy_inj he ▸ hk
  | new hi he => exact (shiftBy_ne hi he).elim

theorem closed (hc : b.Closed) : b'.Closed where
  targets r d br hr hn l hl := by
    cases h.origin hr with
    | old he hk =>
      subst he
      obtain ⟨p, hp⟩ := hc.targets _ d br hk ((h.get?_shift _).symm.trans hn) l hl
      exact ⟨_, h.label_shift hp⟩
    | new hi he =>
      subst he
      rw [h.get?_new hi] at hn
      cases (h.plain _ (List.mem_of_getElem? hn)).1
  bounds t ht := by
    obtain ⟨start, stop, hs, he⟩ := hc.bounds t (h.tryBlocks ▸ ht)
    exact ⟨_, _, h.label_shift hs, h.label_shift he⟩
  handlers t ht r d hr hp := by
    obtain ⟨k, e, hk, hprotects⟩ := h.guarded (h.origin hr) hp
    obtain ⟨p, hp⟩ := hc.handlers t (h.tryBlocks ▸ ht) k e hk hprotects
    exact ⟨_, h.label_shift hp⟩

theorem balanced (hb : b.Balanced) : b'.Balanced := by
  intro r d hr
  cases h.origin hr with
  | @old k _ _ he hk =>
    subst he
    obtain ⟨hlt, honly, hpops⟩ := hb k d hk
    refine ⟨?_, fun e he => honly e (h.reaches_shift_iff.mp he),
      fun n hn => hpops n ((h.get?_shift k).symm.trans hn)⟩
    rw [h.size_eq]
    unfold shiftBy
    split <;> omega
  | @new i _ d₀ _ hi he hc hd =>
    subst he hd
    refine ⟨?_, fun e he => ?_, fun n hn => (h.fits d₀ hc).popped ((h.get?_new hi).symm.trans hn)⟩
    · rw [h.size_eq]
      have := h.le
      rw [nodes_length] at this
      omega
    · cases h.origin he with
      | old he => exact (shiftBy_ne hi he.symm).elim
      | @new j _ e₀ _ hj he hc' hd' =>
        obtain rfl := Nat.add_left_cancel he
        rw [hd', (hb q d₀ hc.reaches).2.1 e₀ hc'.reaches]

/-- Where old ids stay with their nodes, what was found out about them stays too. -/
theorem analysis (hne : b.entries.isEmpty = false) (hids : b.ids.Nodup)
    (hkept : ∀ r, ∀ id ∈ b.ids, b'.idAt? r = some id ↔
      ∃ k, r = shiftBy q ns.length k ∧ b.idAt? k = some id)
    (ha : b.analyzeStack parameters = .ok a) : b.Undisturbed parameters a b' := by
  obtain ⟨hd, hb, hc⟩ := analyzeStack_ok hne ha
  have hne' : b'.entries.isEmpty = false := by
    have hpos : 0 < b.size := Array.size_pos_iff.mpr (by simpa using hne)
    have hsize := h.size_eq
    have hpos' : 0 < b'.size := by omega
    simpa using Array.size_pos_iff.mp hpos'
  obtain ⟨a', ha'⟩ := analyzeStack_total hne' (h.closed hc) (h.balanced hb) parameters
  obtain ⟨hd', -, -⟩ := analyzeStack_ok hne' ha'
  have hdepths (id : NodeId) (hid : id ∈ b.ids) (d : Nat) :
      (id, d) ∈ b'.depthsById a' ↔ (id, d) ∈ b.depthsById a := by
    rw [hd.depthsById, hd'.depthsById]
    constructor
    · rintro ⟨r, hr, hreach⟩
      obtain ⟨k, rfl, hk⟩ := (hkept r id hid).mp hr
      exact ⟨k, hk, h.reaches_shift_iff.mp hreach⟩
    · rintro ⟨k, hk, hreach⟩
      exact ⟨_, (hkept _ id hid).mpr ⟨k, rfl, hk⟩, h.reaches_shift hreach⟩
  refine ⟨a', ha', hdepths, (checkReachable_ok (analyzeStack_size hne' ha')).mpr ?_⟩
  intro r id n he _ hid
  obtain ⟨⟨id, d⟩, hd₀, rfl⟩ := List.mem_map.mp hid
  obtain ⟨k, hk, hreach⟩ := (hd.depthsById id d).mp hd₀
  have hr : b'.idAt? r = some id := by rw [idAt?, he]; rfl
  obtain ⟨m, rfl, hm⟩ := (hkept r id (mem_ids_of_idAt? hk)).mp hr
  cases idAt?_unique hids hk hm
  exact ⟨d, (hd'.depths _ d).mpr (h.reaches_shift hreach)⟩

end

end Interposes

theorem clash?_plain {placed : List Label} (h : ∀ n ∈ ns, n.label? = none) :
    clash? placed b ns = none := by
  induction ns generalizing placed with
  | nil => rfl
  | cons n ns ih =>
    obtain ⟨hn, hns⟩ := List.forall_mem_cons.mp h
    rw [clash?, hn]
    exact ih hns

theorem splice_plain (h : ∀ n ∈ ns, n.label? = none) (b : Body) (q : Nat) (at? : Option NodeId) :
    ∃ ids b', b.splice q 0 at? ns = .ok (ids, b') := by
  unfold splice checkFresh
  rw [clash?_plain h]
  exact ⟨_, _, rfl⟩

/-- Insertions give new ids to new nodes only. -/
theorem splice_idAt? {at? : Option NodeId} (hq : q ≤ b.size) (h : b.splice q 0 at? ns = .ok (ids, b'))
    (hid : id.index < b.nextId) :
    b'.idAt? r = some id ↔ ∃ k, r = shiftBy q ns.length k ∧ b.idAt? k = some id := by
  obtain ⟨edits, rfl⟩ := splice_place h
  have hold (k : Nat) : (b.place q 0 ns).entries[shiftBy q ns.length k]? = b.entries[k]? := by
    unfold shiftBy
    split
    next hlt => exact place_low ns hq hlt
    next hge => exact place_high ns hq (Nat.le_of_not_lt hge)
  constructor
  · intro hr
    rcases shiftBy_cases q ns.length r with ⟨k, rfl⟩ | ⟨i, hi, rfl⟩
    · refine ⟨k, rfl, ?_⟩
      rw [idAt?, ← hold]
      exact hr
    · have hnew : ((number b.nextId ns)[i]?).map Prod.fst = some id := by
        rw [← place_new ns hq hi]
        exact hr
      rw [← List.getElem?_map] at hnew
      have := (mem_number_ids.mp (List.mem_of_getElem? hnew)).1
      omega
  · rintro ⟨k, rfl, hk⟩
    rw [idAt?, ← hold] at hk
    exact hk

section

variable (hids : b.ids.Nodup) (hnext : ∀ id ∈ b.ids, id.index < b.nextId)
  (ha : b.analyzeStack parameters = .ok a) (hn : b.get? p = some n) (hreal : n.isPseudo = false)
  (hns : ∀ m ∈ ns, m.branch? = none ∧ m.label? = none) (hzero : Node.totalEffect ns = 0)
include hids hnext ha hn hreal hns hzero

theorem splice_undisturbed (hq : q = p ∨ q = p + 1) (hfits : ∀ d, b.Crosses q d → Node.Fits ns d)
    (at? : Option NodeId) :
    ∃ ids b', b.splice q 0 at? ns = .ok (ids, b') ∧ b.Undisturbed parameters a b' := by
  have hlt : p < b.size := lt_size_of_get? hn
  have hle : q ≤ b.size := by omega
  have hne : b.entries.isEmpty = false := by
    simpa using Array.size_pos_iff.mp (Nat.zero_lt_of_lt hlt)
  obtain ⟨ids, b', hsplice⟩ := splice_plain (fun m hm => (hns m hm).2) b q at?
  have htry : b'.tryBlocks = b.tryBlocks := by
    obtain ⟨edits, rfl⟩ := splice_place hsplice
    rfl
  have h : b.Interposes b' q ns :=
    ⟨splice_inserts hle hsplice, htry, hns, hfits, hzero, p, n, hn, hreal, hq⟩
  exact ⟨ids, b', hsplice,
    h.analysis hne hids (fun r id hid => splice_idAt? hle hsplice (hnext id hid)) ha⟩

/-- Straight code that leaves the stack as it finds it, and finds what it pops where it comes in, leaves
the analysis of a body alone. The ids of the body are its own, as ids that are given out in turn are. -/
theorem inserted_undisturbed (hanchor : b.position? anchor = some p) :
    ((∀ d, b.Crosses p d → Node.Fits ns d) →
      ∃ ids b', b.insertBefore anchor ns = .ok (ids, b') ∧ b.Undisturbed parameters a b') ∧
    ((∀ d, b.Crosses (p + 1) d → Node.Fits ns d) →
      ∃ ids b', b.insertAfter anchor ns = .ok (ids, b') ∧ b.Undisturbed parameters a b') := by
  unfold insertBefore insertAfter
  rw [position_ok.mpr hanchor]
  constructor
  · exact fun hfits => splice_undisturbed hids hnext ha hn hreal hns hzero (.inl rfl) hfits _
  · exact fun hfits => splice_undisturbed hids hnext ha hn hreal hns hzero (.inr rfl) hfits _

end

def countedLoop : Body := { guardedLoop with nextId := 6, nextLabel := 2 }

theorem countedLoop_analyzed : countedLoop.analyzeStack 0 =
    .ok ⟨#[some 0, some 0, some 1, some 0, some 1, some 1], 1, 1⟩ := by
  have hpaths : countedLoop.drain ⟨Array.replicate 6 none, 0, 0, [(0, 0)]⟩ =
      .ok ⟨#[some 0, some 0, some 1, some 0, none, none], 1, 1, []⟩ := by
    rw [drain_next (t := ⟨#[some 0, some 0, some 1, some 0, none, none], 1, 1, [(0, 0)]⟩) rfl (by cbv),
      drain_next (t := ⟨#[some 0, some 0, some 1, some 0, none, none], 1, 1, []⟩) rfl (by cbv)]
    exact drain_done rfl
  have hhandler : countedLoop.drain ⟨#[some 0, some 0, some 1, some 0, none, none], 1, 1, [(4, 1)]⟩ =
      .ok ⟨#[some 0, some 0, some 1, some 0, some 1, some 1], 1, 1, []⟩ := by
    rw [drain_next (t := ⟨#[some 0, some 0, some 1, some 0, some 1, some 1], 1, 1, []⟩) rfl (by cbv)]
    exact drain_done rfl
  have hentered : countedLoop.enterHandlers countedLoop.tryBlocks
      ⟨#[some 0, some 0, some 1, some 0, none, none], 1, 1, []⟩ =
      .ok ([], ⟨#[some 0, some 0, some 1, some 0, none, none], 1, 1, [(4, 1)]⟩) := by cbv
  refine analyzeStack_settled
    (s := ⟨#[some 0, some 0, some 1, some 0, some 1, some 1], 1, 1, []⟩) rfl ?_
  refine (settleDepths_next hpaths hentered).trans ?_
  exact settleDepths_next hhandler rfl

/-- Before the jump back what it is about to test can be copied and dropped. -/
theorem countedLoop_undisturbed :
    let a : StackAnalysis := ⟨#[some 0, some 0, some 1, some 0, some 1, some 1], 1, 1⟩
    let ns : List Node := [.line 7, .insn (.stack .dup), .insn (.stack .pop)]
    countedLoop.ids.Nodup ∧ (∀ id ∈ countedLoop.ids, id.index < countedLoop.nextId) ∧
      countedLoop.analyzeStack 0 = .ok a ∧
      countedLoop.get? 2 = some (.branch (.ifZero .eq ⟨0⟩)) ∧
      (∀ m ∈ ns, m.branch? = none ∧ m.label? = none) ∧ Node.totalEffect ns = 0 ∧
      countedLoop.position? ⟨2⟩ = some 2 ∧ (∀ d, countedLoop.Crosses 2 d → Node.Fits ns d) ∧
      ∃ ids b', countedLoop.insertBefore ⟨2⟩ ns = .ok (ids, b') ∧ countedLoop.Undisturbed 0 a b' := by
  intro a ns
  have hids : countedLoop.ids.Nodup := by decide
  have hnext : ∀ id ∈ countedLoop.ids, id.index < countedLoop.nextId := by decide
  have hns : ∀ m ∈ ns, m.branch? = none ∧ m.label? = none := by
    simp [ns, Node.branch?, Node.label?]
  have hposition : countedLoop.position? ⟨2⟩ = some 2 := by cbv
  have hfits (d : Nat) (hc : countedLoop.Crosses 2 d) : Node.Fits ns d := by
    have hknown := ((analyzeStack_ok rfl countedLoop_analyzed).1.depths 2 d).mpr hc.reaches
    cases hknown
    exact ⟨by decide, by decide, by decide, trivial⟩
  exact ⟨hids, hnext, countedLoop_analyzed, rfl, hns, rfl, hposition, hfits,
    (inserted_undisturbed hids hnext countedLoop_analyzed rfl rfl hns rfl hposition).1 hfits⟩

end Body

end ClassGraft
