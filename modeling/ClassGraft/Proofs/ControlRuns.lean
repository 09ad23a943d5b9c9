import ClassGraft.Proofs.DepthPaths
import ClassGraft.Proofs.WellMadeBodies

namespace ClassGraft

/-- What is known beforehand: the booleans that some nodes push, and which nodes may throw. -/
structure World where
  pushed? : Entry → Option Bool
  throws : NodeId → Prop

/-- How a boolean compares with zero. -/
def Comparison.holdsOf (v : Bool) : Comparison → Bool
  | .eq | .le => !v
  | .ne | .gt => v
  | .lt => false
  | .ge => true

/-- May a branch be taken, or not be taken, with this value on top of the stack? -/
def Branch.Admits {L : Type} (taken : Bool) : Branch L → Option Bool → Prop
  | .ifZero c _, some v => c.holdsOf v = taken
  | _, _ => True

namespace Body

/-- Where a run is, and the boolean on top of the stack if it is known. -/
abbrev Place := Nat × Option Bool

/-- May the node at a position throw? -/
def Throws (b : Body) (w : World) (p : Nat) : Prop :=
  ∃ e, b.entries[p]? = some e ∧ e.2.isPseudo = false ∧ (w.throws e.1 ∨ e.2 = .branch .athrow)

/-- One step of a run. A subroutine returns behind any call, and what is thrown goes to any handler
around or out of the body. The end of a body is where runs are that are over. -/
inductive Steps (b : Body) (w : World) : Place → Place → Prop
  | next {p : Nat} {top : Option Bool} {e : Entry} : b.entries[p]? = some e →
      e.2.branch? = none → Steps b w (p, top) (p + 1, if e.2.isPseudo then top else w.pushed? e)
  | jump {p q : Nat} {top : Option Bool} {br : Branch Label} {l : Label} :
      b.get? p = some (.branch br) → l ∈ br.targets → b.labelPosition? l = some q →
      br.Admits true top → Steps b w (p, top) (q, none)
  | through {p : Nat} {top : Option Bool} {br : Branch Label} : b.get? p = some (.branch br) →
      br.fallsThrough = true → br.isCall = false → br.Admits false top →
      Steps b w (p, top) (p + 1, none)
  | back {p c : Nat} {top : Option Bool} {br : Branch Label} {s : UInt16} :
      b.get? p = some (.branch (.ret s)) → b.get? c = some (.branch br) → br.isCall = true →
      Steps b w (p, top) (c + 1, none)
  | handle {p q : Nat} {top : Option Bool} {t : TryBlock} : b.Throws w p → t ∈ b.tryBlocks →
      b.Protects t p → b.labelPosition? t.handler = some q → Steps b w (p, top) (q, none)
  | leave {p : Nat} {top : Option Bool} {k : Option ValueKind} :
      b.get? p = some (.branch (.leave k)) → Steps b w (p, top) (b.size, none)
  | escape {p : Nat} {top : Option Bool} : b.Throws w p → Steps b w (p, top) (b.size, none)

/-- The nodes that runs from the start go through, and where they lead. -/
inductive Run (b : Body) (w : World) : List NodeId → Place → Prop
  | start : Run b w [] (0, none)
  | step {ids : List NodeId} {s t : Place} {e : Entry} : Run b w ids s →
      b.entries[s.1]? = some e → b.Steps w s t → Run b w (ids ++ [e.1]) t

/-- The nodes of a run, which may be over or go on. -/
def IsRun (b : Body) (w : World) (ids : List NodeId) : Prop := ∃ s, b.Run w ids s

/-- The nodes of a run that is over. -/
def IsWholeRun (b : Body) (w : World) (ids : List NodeId) : Prop :=
  ∃ s, b.Run w ids s ∧ b.size ≤ s.1

variable {b : Body} {w : World} {p : Nat} {top : Option Bool} {t : Place} {e : Entry} {l : Label}

/-- A node that is no branch is left for the next one, unless it throws. -/
theorem Steps.plain (h : b.Steps w (p, top) t) (he : b.entries[p]? = some e)
    (hb : e.2.branch? = none) (hthrow : ¬ b.Throws w p) :
    t = (p + 1, if e.2.isPseudo then top else w.pushed? e) := by
  have nobranch {br : Branch Label} (hn : b.get? p = some (.branch br)) : False := by
    rw [Option.some.inj ((get?_of_entry he).symm.trans hn)] at hb
    cases hb
  cases h with
  | next he' _ =>
    cases Option.some.inj (he.symm.trans he')
    rfl
  | jump hn _ _ _ => exact (nobranch hn).elim
  | through hn _ _ _ => exact (nobranch hn).elim
  | back hn _ _ => exact (nobranch hn).elim
  | handle ht _ _ _ => exact (hthrow ht).elim
  | leave hn => exact (nobranch hn).elim
  | escape ht => exact (hthrow ht).elim

/-- A comparison goes to its label or on to the next node. -/
theorem Steps.ifZero {c : Comparison} (h : b.Steps w (p, top) t)
    (hn : b.get? p = some (.branch (.ifZero c l))) (hthrow : ¬ b.Throws w p) :
    (∃ q, b.labelPosition? l = some q ∧ (Branch.ifZero c l).Admits true top ∧ t = (q, none)) ∨
      (Branch.ifZero c l).Admits false top ∧ t = (p + 1, none) := by
  cases h with
  | next he hb =>
    rw [Option.some.inj ((get?_of_entry he).symm.trans hn)] at hb
    cases hb
  | jump hn' hl hq ha =>
    cases Option.some.inj (hn.symm.trans hn')
    cases List.mem_singleton.mp hl
    exact .inl ⟨_, hq, ha, rfl⟩
  | through hn' _ _ ha =>
    cases Option.some.inj (hn.symm.trans hn')
    exact .inr ⟨ha, rfl⟩
  | back hn' _ _ => cases Option.some.inj (hn.symm.trans hn')
  | handle ht _ _ _ => exact (hthrow ht).elim
  | leave hn' => cases Option.some.inj (hn.symm.trans hn')
  | escape ht => exact (hthrow ht).elim

end Body

end ClassGraft
