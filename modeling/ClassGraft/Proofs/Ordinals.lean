import ClassGraft.Proofs.NodeLookup

namespace ClassGraft

/-- The instruction of a node, with something else in place of labels. -/
def Node.item? {M : Type} (f : Label → M) : Node → Option (Instruction ⊕ Branch M)
  | .insn i => some (.inl i)
  | .branch br => some (.inr (br.map f))
  | _ => none

/-- Nodes with the number of instructions before each, where `k` is that before the first. -/
def numbered (k : Nat) : List Node → List (Nat × Node)
  | [] => []
  | n :: ns => (k, n) :: numbered (if n.isPseudo then k else k + 1) ns

/-- A try block by the ordinals of its labels. -/
structure BlockView where
  start : Option Nat
  stop : Option Nat
  handler : Option Nat
  caught : Option BinaryName

/-- A local variable by the ordinals of its labels. -/
structure LocalView where
  name : String
  descriptor : String
  start : Option Nat
  stop : Option Nat
  index : UInt16
  isSignature : Bool

/-- An object that is not constructed yet by the ordinal of its label. -/
structure SiteView where
  type : BinaryName
  made : Option Nat
  deriving DecidableEq

/-- A frame by the ordinals of its labels. -/
abbrev FrameView := FrameOf RefType SiteView

def TryBlock.view (f : Label → Option Nat) (t : TryBlock) : BlockView :=
  ⟨f t.start, f t.stop, f t.handler, t.caught⟩

def LocalRange.view (f : Label → Option Nat) (v : LocalRange) : LocalView :=
  ⟨v.name, v.descriptor, f v.start, f v.stop, v.index, v.isSignature⟩

def VerifyType.view (f : Label → Option Nat) : VerifyType → SlotType RefType SiteView
  | .uninitialized u => .uninitialized ⟨u.type, f u.label⟩
  | .object c => .object c
  | .top => .top
  | .integer => .integer
  | .float => .float
  | .double => .double
  | .long => .long
  | .null => .null
  | .uninitializedThis => .uninitializedThis

def Frame.view (f : Label → Option Nat) (g : Frame) : FrameView :=
  ⟨g.locals.map (VerifyType.view f), g.stack.map (VerifyType.view f)⟩

@[simp] theorem Frame.view_locals (f : Label → Option Nat) (g : Frame) :
    (g.view f).locals = g.locals.map (VerifyType.view f) := rfl

@[simp] theorem Frame.view_stack (f : Label → Option Nat) (g : Frame) :
    (g.view f).stack = g.stack.map (VerifyType.view f) := rfl

/-- Is there an instruction in the range of a block? -/
def TryBlock.isUsed (f : Label → Option Nat) (t : TryBlock) : Bool :=
  match f t.start, f t.stop with
  | some start, some stop => start < stop
  | _, _ => false

/-- Does a range end where it starts or later? -/
def LocalRange.isForward (f : Label → Option Nat) (v : LocalRange) : Bool :=
  match f v.start, f v.stop with
  | some start, some stop => start ≤ stop
  | _, _ => false

namespace Body

/-- The number of instructions before a label. -/
def ordinal? (b : Body) (l : Label) : Option Nat :=
  ((numbered 0 b.nodes).find? fun e => e.2.label? == some l).map Prod.fst

/-- The instructions in order, with ordinals for jump targets. -/
def program (b : Body) : List (Instruction ⊕ Branch (Option Nat)) :=
  b.nodes.filterMap (Node.item? b.ordinal?)

/-- The line numbers of instructions, each with the ordinal of its instruction. -/
def lineNumbers (b : Body) : List (Nat × UInt16) :=
  (numbered 0 b.nodes).filterMap fun
    | (k, .line n) => if k < b.program.length then some (k, n) else none
    | _ => none

/-- The frames before instructions, each with the ordinal of its instruction. -/
def carriedFrames (b : Body) : List (Nat × FrameView) :=
  (numbered 0 b.nodes).filterMap fun
    | (k, .frame f) => if k < b.program.length then some (k, f.view b.ordinal?) else none
    | _ => none

end Body

/-- Nodes lie one behind the other from an offset on, up to `stop`. Only instructions take room. -/
def Spaced (stop : Nat) : Nat → List (Nat × Node) → Prop
  | o, [] => o = stop
  | o, e :: es => e.1 = o ∧ ∃ next, (if e.2.isPseudo then next = o else o < next) ∧ Spaced stop next es

/-- The offsets of instructions. -/
def starts (es : List (Nat × Node)) : List Nat := (es.filter fun e => !e.2.isPseudo).map Prod.fst

/-- The labels with their offsets. -/
def marked (es : List (Nat × Node)) : List (Label × Nat) :=
  es.filterMap fun e => e.2.label?.map fun l => (l, e.1)

/-- How many of some offsets come before one. -/
def rank (os : List Nat) (o : Nat) : Nat := os.countP fun s => decide (s < o)

variable {stop o : Nat} {e : Nat × Node} {es : List (Nat × Node)}

theorem starts_pseudo (h : e.2.isPseudo = true) : starts (e :: es) = starts es := by
  simp [starts, h]

theorem starts_instruction (h : e.2.isPseudo = false) : starts (e :: es) = e.1 :: starts es := by
  simp [starts, h]

namespace Spaced

theorem le (h : Spaced stop o es) : o ≤ stop := by
  induction es generalizing o with
  | nil => exact Nat.le_of_eq h
  | cons e es ih =>
    obtain ⟨-, next, hn, h⟩ := h
    have := ih h
    split at hn <;> omega

theorem bounds (h : Spaced stop o es) : ∀ e ∈ es, o ≤ e.1 ∧ e.1 ≤ stop := by
  induction es generalizing o with
  | nil => intro e he; cases he
  | cons d es ih =>
    have hle := h.le
    obtain ⟨hd, next, hn, h⟩ := h
    intro e he
    rcases List.mem_cons.mp he with rfl | he
    · omega
    · have := ih h e he
      split at hn <;> omega

theorem starts_bounds (h : Spaced stop o es) : ∀ s ∈ starts es, o ≤ s ∧ s < stop := by
  induction es generalizing o with
  | nil => intro s hs; cases hs
  | cons e es ih =>
    obtain ⟨he, next, hn, h⟩ := h
    intro s hs
    cases hp : e.2.isPseudo with
    | true =>
      rw [starts_pseudo hp] at hs
      rw [hp, if_pos rfl] at hn
      have := ih h s hs
      omega
    | false =>
      rw [starts_instruction hp] at hs
      rw [hp, if_neg Bool.false_ne_true] at hn
      have hle := h.le
      rcases List.mem_cons.mp hs with rfl | hs
      · omega
      · have := ih h s hs
        omega

/-- Offsets of instructions ascend. -/
theorem starts_ascend (h : Spaced stop o es) : (starts es).Pairwise (· < ·) := by
  induction es generalizing o with
  | nil => exact .nil
  | cons e es ih =>
    obtain ⟨he, next, hn, h⟩ := h
    cases hp : e.2.isPseudo with
    | true =>
      rw [starts_pseudo hp]
      exact ih h
    | false =>
      rw [starts_instruction hp]
      rw [hp, if_neg Bool.false_ne_true] at hn
      refine .cons (fun s hs => ?_) (ih h)
      have := h.starts_bounds s hs
      omega

/-- Wherever a node lies an instruction lies too, unless it is the end. -/
theorem boundary (h : Spaced stop o es) : ∀ e ∈ es, e.1 = stop ∨ e.1 ∈ starts es := by
  induction es generalizing o with
  | nil => intro e he; cases he
  | cons d es ih =>
    obtain ⟨hd, next, hn, h⟩ := h
    intro e he
    cases hp : d.2.isPseudo with
    | true =>
      rw [starts_pseudo hp]
      rw [hp, if_pos rfl] at hn
      rcases List.mem_cons.mp he with rfl | he
      · cases es with
        | nil =>
          have hs : next = stop := h
          exact .inl (by omega)
        | cons c es =>
          have hc := ih h c List.mem_cons_self
          have ho : c.1 = next := h.1
          have heq : e.1 = c.1 := by omega
          rwa [← heq] at hc
      · exact ih h e he
    | false =>
      rw [starts_instruction hp]
      rcases List.mem_cons.mp he with rfl | he
      · exact .inr List.mem_cons_self
      · exact (ih h e he).imp_right (List.mem_cons_of_mem _)

end Spaced

theorem mem_of_numbered {k : Nat} {ns : List Node} {e : Nat × Node} (h : e ∈ numbered k ns) :
    e.2 ∈ ns := by
  induction ns generalizing k with
  | nil => cases h
  | cons n ns ih =>
    rcases List.mem_cons.mp h with rfl | h
    · exact List.mem_cons_self
    · exact List.mem_cons_of_mem _ (ih h)

theorem rank_low {os : List Nat} (h : ∀ s ∈ os, o ≤ s) : rank os o = 0 := by
  rw [rank, List.countP_eq_zero]
  intro s hs
  have := h s hs
  simpa using this

/-- The number of instructions before a node is the rank of its offset. -/
theorem numbered_eq (h : Spaced stop o es) (k : Nat) :
    numbered k (es.map Prod.snd) = es.map fun e => (k + rank (starts es) e.1, e.2) := by
  induction es generalizing o k with
  | nil => rfl
  | cons e es ih =>
    have hb := h.starts_bounds
    obtain ⟨he, next, hn, h⟩ := h
    have hlow : rank (starts (e :: es)) e.1 = 0 := rank_low fun s hs => by
      have := hb s hs
      omega
    rw [List.map_cons, numbered, List.map_cons, hlow, Nat.add_zero]
    congr 1
    cases hp : e.2.isPseudo with
    | true =>
      rw [if_pos rfl, ih h, starts_pseudo hp]
    | false =>
      rw [hp, if_neg Bool.false_ne_true] at hn
      rw [if_neg Bool.false_ne_true, ih h, starts_instruction hp]
      refine List.map_congr_left fun d hd => ?_
      have hlt : e.1 < d.1 := by
        have := h.bounds d hd
        omega
      have hr : rank (e.1 :: starts es) d.1 = rank (starts es) d.1 + 1 := by
        rw [rank, rank, List.countP_cons, if_pos (by simpa using hlt)]
      rw [hr]
      congr 1
      omega

theorem lookup_marked (l : Label) (es : List (Nat × Node)) :
    (marked es).lookup l = (es.find? fun e => e.2.label? == some l).map Prod.fst := by
  induction es with
  | nil => rfl
  | cons e es ih =>
    rw [List.find?_cons]
    cases hl : e.2.label? with
    | none =>
      have hm : marked (e :: es) = marked es := by simp [marked, hl]
      rw [hm, ih]
      simp
    | some l' =>
      have hm : marked (e :: es) = (l', e.1) :: marked es := by simp [marked, hl]
      rw [hm, List.lookup_cons, ih]
      by_cases hll : l = l'
      · simp [hll]
      · have hbeq : (l == l') = false := beq_false_of_ne hll
        have hne : (some l' == some l) = false := beq_false_of_ne fun h => hll (Option.some.inj h).symm
        rw [hbeq, hne]

/-- The ordinal of a label is the rank of its offset. -/
theorem Body.ordinal?_eq {b : Body} (h : Spaced stop 0 es) (hn : es.map Prod.snd = b.nodes)
    (l : Label) : b.ordinal? l = ((marked es).lookup l).map (rank (starts es)) := by
  rw [Body.ordinal?, ← hn, numbered_eq h, lookup_marked, List.find?_map, Option.map_map,
    Option.map_map]
  congr 1
  funext e
  simp

theorem Node.item?_isSome {M : Type} (f : Label → M) (n : Node) :
    (n.item? f).isSome = !n.isPseudo := by cases n <;> rfl

theorem Spaced.sorted (h : Spaced stop o es) : (es.map Prod.fst).Pairwise (· ≤ ·) := by
  induction es generalizing o with
  | nil => exact .nil
  | cons e es ih =>
    obtain ⟨he, next, hn, h⟩ := h
    refine .cons (fun p hp => ?_) (ih h)
    obtain ⟨d, hd, rfl⟩ := List.mem_map.mp hp
    have := h.bounds d hd
    split at hn <;> omega

/-- Offsets grow from node to node, and strictly so behind an instruction. -/
theorem Spaced.grows (h : Spaced stop o es) {i j : Nat} {d : Nat × Node} (hi : es[i]? = some d)
    (hj : es[j]? = some e) (hij : i < j) : d.1 ≤ e.1 ∧ (d.2.isPseudo = false → d.1 < e.1) := by
  induction es generalizing o i j with
  | nil => cases hi
  | cons c es ih =>
    obtain ⟨hc, next, hn, h⟩ := h
    cases j with
    | zero => omega
    | succ j =>
      rw [List.getElem?_cons_succ] at hj
      cases i with
      | zero =>
        cases hi
        have hle := (h.bounds e (List.mem_of_getElem? hj)).1
        constructor
        · split at hn <;> omega
        · intro hreal
          rw [if_neg (by simp [hreal])] at hn
          omega
      | succ i => exact ih h hi hj (by omega)

/-- Pseudo nodes lie at the offset of what comes behind them. -/
theorem Spaced.level (h : Spaced stop o es) {i j : Nat} {d : Nat × Node} (hi : es[i]? = some d)
    (hj : es[j]? = some e) (hij : i ≤ j)
    (hp : ∀ k, i ≤ k → k < j → ∃ c, es[k]? = some c ∧ c.2.isPseudo = true) : d.1 = e.1 := by
  induction es generalizing o i j d with
  | nil => cases hi
  | cons c es ih =>
    obtain ⟨hc, next, hn, h⟩ := h
    cases j with
    | zero =>
      obtain rfl : i = 0 := by omega
      cases hi
      cases hj
      rfl
    | succ j =>
      rw [List.getElem?_cons_succ] at hj
      have hp' {m : Nat} (hm : i ≤ m + 1) (k : Nat) (hk : m ≤ k) (hlt : k < j) :
          ∃ c, es[k]? = some c ∧ c.2.isPseudo = true :=
        hp (k + 1) (by omega) (by omega)
      cases i with
      | zero =>
        obtain ⟨x, hx, hpseudo⟩ := hp 0 (Nat.le_refl 0) (by omega)
        cases hi
        cases hx
        rw [if_pos hpseudo] at hn
        cases es with
        | nil => cases hj
        | cons y es =>
          have hy : y.1 = next := h.1
          have := ih h rfl hj (Nat.zero_le j) (hp' (Nat.zero_le 1))
          omega
      | succ i => exact ih h hi hj (by omega) (hp' (Nat.le_refl _))

namespace Body

variable {b : Body} {l : Label} {n : Node}

theorem get?_of_nodes (hn : es.map Prod.snd = b.nodes) {r : Nat} :
    b.get? r = some n ↔ ∃ p, es[r]? = some (p, n) := by
  rw [← nodes_get?, ← hn, List.getElem?_map, Option.map_eq_some_iff]
  constructor
  · rintro ⟨⟨p, _⟩, he, rfl⟩
    exact ⟨p, he⟩
  · rintro ⟨p, he⟩
    exact ⟨_, he, rfl⟩

theorem lookup_marked_position (hn : es.map Prod.snd = b.nodes) :
    (marked es).lookup l = (b.labelPosition? l).bind fun p => (es[p]?).map Prod.fst := by
  have hfind : es.findIdx? (fun e => e.2.label? == some l) = b.labelPosition? l := by
    have hb : b.nodes.findIdx? (fun n => n.label? == some l) = b.labelPosition? l := by
      rw [Body.nodes, List.findIdx?_map, ← List.findIdx?_toArray]
      rfl
    rw [← hn, List.findIdx?_map] at hb
    exact hb
  rw [lookup_marked, List.find?_eq_bind_findIdx?_getElem?, hfind, Option.map_bind]
  rfl

/-- A label designates the instruction at its offset, wherever that stands. -/
theorem labelTarget_at (h : Spaced stop o es) (hn : es.map Prod.snd = b.nodes) {p r : Nat}
    (hl : (marked es).lookup l = some p) (hr : es[r]? = some (p, n)) (hreal : n.isPseudo = false) :
    b.labelTarget l = .ok (some r) := by
  rw [lookup_marked_position hn] at hl
  obtain ⟨q, hq, hp⟩ := Option.bind_eq_some_iff.mp hl
  obtain ⟨⟨p', k⟩, hk, rfl⟩ := Option.map_eq_some_iff.mp hp
  have hlabel : k.isPseudo = true := by
    obtain ⟨⟨m, hm, hml⟩, -⟩ := labelPosition?_eq_some.mp hq
    obtain ⟨s, hs⟩ := (get?_of_nodes hn).mp hm
    cases Option.some.inj (hk.symm.trans hs)
    cases k with
    | label _ => rfl
    | _ => cases hml
  have hle : q ≤ r := by
    by_cases hlt : r < q
    · have := (h.grows hr hk hlt).2 hreal
      omega
    · omega
  refine labelTarget_ok.mpr ⟨q, hq, instructionFrom?_eq_some.mpr
    ⟨hle, ⟨n, (get?_of_nodes hn).mpr ⟨_, hr⟩, hreal⟩, fun j hj hlt => ?_⟩⟩
  obtain ⟨hrlt, -⟩ := List.getElem?_eq_some_iff.mp hr
  have hx : es[j]? = some es[j] := List.getElem?_eq_getElem (by omega)
  refine ⟨es[j].2, (get?_of_nodes hn).mpr ⟨_, hx⟩, ?_⟩
  cases hp : es[j].2.isPseudo with
  | true => rfl
  | false =>
    have hnext := (h.grows hx hr hlt).2 hp
    rcases Nat.lt_or_eq_of_le hj with hqj | rfl
    · have := (h.grows hk hx hqj).1
      omega
    · have hfirst : es[q].1 = p' := by rw [← Option.some.inj (hk.symm.trans hx)]
      omega

/-- A label designates the instruction at its offset. -/
theorem labelTarget_offset (h : Spaced stop o es) (hn : es.map Prod.snd = b.nodes) :
    (∃ r, b.labelTarget l = .ok (some r) ∧ b.get? r = some n) ↔
      ∃ p, (marked es).lookup l = some p ∧ (p, n) ∈ es ∧ n.isPseudo = false := by
  constructor
  · rintro ⟨r, hr, hget⟩
    obtain ⟨q, hq, hi⟩ := labelTarget_ok.mp hr
    obtain ⟨hle, ⟨m, hm, hreal⟩, hskip⟩ := instructionFrom?_eq_some.mp hi
    cases Option.some.inj (hget.symm.trans hm)
    obtain ⟨⟨k, hk, -⟩, -⟩ := labelPosition?_eq_some.mp hq
    obtain ⟨p, hp⟩ := (get?_of_nodes hn).mp hk
    obtain ⟨p', hp'⟩ := (get?_of_nodes hn).mp hget
    have hlevel : p = p' := h.level hp hp' hle fun k hk hlt => by
      obtain ⟨x, hx, hpseudo⟩ := hskip k hk hlt
      obtain ⟨s, hs⟩ := (get?_of_nodes hn).mp hx
      exact ⟨(s, x), hs, hpseudo⟩
    refine ⟨p', ?_, List.mem_of_getElem? hp', hreal⟩
    rw [lookup_marked_position hn, hq, Option.bind_some, hp, hlevel]
    rfl
  · rintro ⟨p, hp, hmem, hreal⟩
    obtain ⟨r, hr⟩ := List.mem_iff_getElem?.mp hmem
    exact ⟨r, labelTarget_at h hn hp hr hreal, (get?_of_nodes hn).mpr ⟨_, hr⟩⟩

/-- A label that designates an instruction lies before the end. -/
theorem label_offset {r : Nat} (h : Spaced stop o es) (hn : es.map Prod.snd = b.nodes)
    (hl : b.labelTarget l = .ok (some r)) : ∃ p, (marked es).lookup l = some p ∧ p < stop := by
  obtain ⟨q, -, hi⟩ := labelTarget_ok.mp hl
  obtain ⟨-, n, hget, -⟩ := instructionFrom?_spec hi
  obtain ⟨p, hp, hmem, hreal⟩ := (labelTarget_offset h hn).mp ⟨r, hl, hget⟩
  refine ⟨p, hp, (h.starts_bounds p ?_).2⟩
  exact List.mem_map.mpr ⟨(p, n), List.mem_filter.mpr ⟨hmem, by simp [hreal]⟩, rfl⟩

end Body

theorem rank_le {os : List Nat} {o p : Nat} (h : o ≤ p) : rank os o ≤ rank os p := by
  refine List.countP_mono_left fun s _ hs => ?_
  have : s < o := by simpa using hs
  exact decide_eq_true (by omega)

theorem rank_lt {os : List Nat} {o p : Nat} (hm : o ∈ os) (h : o < p) :
    rank os o < rank os p := by
  induction os with
  | nil => cases hm
  | cons s os ih =>
    rw [rank, rank, List.countP_cons, List.countP_cons]
    have hle : rank os o ≤ rank os p := rank_le (Nat.le_of_lt h)
    unfold rank at hle ih
    rcases List.mem_cons.mp hm with rfl | hm
    · rw [if_neg (by simp), if_pos (by simpa using h)]
      omega
    · have := ih hm
      by_cases hs : s < o
      · rw [if_pos (by simpa using hs), if_pos (by simp; omega)]
        omega
      · rw [if_neg (by simpa using hs)]
        omega

theorem rank_lt_iff {os : List Nat} {o p : Nat} (ho : o = stop ∨ o ∈ os) (hp : p ≤ stop) :
    rank os o < rank os p ↔ o < p := by
  constructor
  · intro h
    by_cases hle : p ≤ o
    · have : rank os p ≤ rank os o := rank_le hle
      omega
    · omega
  · intro h
    rcases ho with rfl | ho
    · omega
    · exact rank_lt ho h

theorem Spaced.rank_lt_length (h : Spaced stop o es) {p : Nat} (hp : p = stop ∨ p ∈ starts es) :
    rank (starts es) p < (starts es).length ↔ p < stop := by
  have hs : rank (starts es) stop = (starts es).length := by
    rw [rank, List.countP_eq_length]
    intro s hs
    exact decide_eq_true (h.starts_bounds s hs).2
  rw [← hs]
  exact rank_lt_iff hp (Nat.le_refl _)

theorem Body.program_length {b : Body} (hn : es.map Prod.snd = b.nodes) :
    b.program.length = (starts es).length := by
  rw [Body.program, ← hn, List.length_filterMap_eq_countP, List.countP_map, starts,
    List.length_map, ← List.countP_eq_length_filter]
  exact List.countP_congr fun e _ => by simp [Node.item?_isSome]

end ClassGraft
