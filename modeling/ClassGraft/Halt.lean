import ClassGraft.Pool

namespace ClassGraft

/-- Why a run ends without a result. A step that cannot be done stops it for good, while an error can be
answered. -/
inductive Halt (ε : Type) where
  /-- A result does not fit its type. -/
  | overflow
  /-- A value does not fit the narrower type that it is cut to. -/
  | lossy
  | assertion
  /-- An index lies beyond the end. -/
  | range
  | error (e : ε)

namespace Halt

variable {ε δ : Type} {f : ε → δ} {h : Halt ε}

def map (f : ε → δ) : Halt ε → Halt δ
  | .overflow => .overflow
  | .lossy => .lossy
  | .assertion => .assertion
  | .range => .range
  | .error e => .error (f e)

/-- There is no error to answer. -/
def IsStop : Halt ε → Prop
  | .error _ => False
  | _ => True

@[simp] theorem not_isStop_error (e : ε) : ¬IsStop (.error e) := id

@[simp] theorem isStop_map : (h.map f).IsStop ↔ h.IsStop := by cases h <;> rfl

theorem map_eq_error {d : δ} : h.map f = .error d ↔ ∃ e, h = .error e ∧ f e = d := by
  cases h <;> simp [map]

theorem not_isStop_iff : ¬h.IsStop ↔ ∃ e, h = .error e := by
  cases h <;> simp [IsStop]

end Halt

abbrev Halting := Except (Halt ClassError)

abbrev HaltingM := ExceptT (Halt ClassError) (StateM Pool)

instance {ε : Type} : MonadLift (Except ε) (Except (Halt ε)) := ⟨Except.mapError .error⟩

instance : MonadLift PoolM HaltingM := ⟨ExceptT.adapt .error⟩

end ClassGraft
