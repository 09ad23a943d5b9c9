import ClassGraft.Descriptor
import ClassGraft.StackMap

namespace ClassGraft

/-- A label marks a position once a node that carries it is placed. -/
structure Label where
  index : Nat
  deriving DecidableEq, Hashable

def Label.text (l : Label) : String := s!"L{l.index}"

/-- An object that has been allocated but not constructed, with a label right before its `new`. -/
structure NewSite where
  type : BinaryName
  label : Label
  deriving DecidableEq

/-- The types of the local variable slots and of the values on the stack, whose top comes first. The
slot after a wide local is unusable, while a wide value on the stack is one entry. -/
structure FrameOf (C U : Type) where
  locals : List (SlotType C U)
  stack : List (SlotType C U)
  deriving DecidableEq

abbrev VerifyType := SlotType RefType NewSite

abbrev Frame := FrameOf RefType NewSite

/-- A frame as it is written. -/
abbrev RawFrame := FrameOf UInt16 UInt16

variable {C U : Type}

/-- The slots taken by values that are listed once each. -/
def spreadLocals : List (SlotType C U) → List (SlotType C U)
  | [] => []
  | t :: ts => if t.isWide then t :: .top :: spreadLocals ts else t :: spreadLocals ts

/-- The values in a list of slots, each once: what follows a wide local is passed over. -/
def packLocals : List (SlotType C U) → List (SlotType C U)
  | [] => []
  | t :: ts =>
    if t.isWide then
      match ts with
      | [] => [t]
      | _ :: ts' => t :: packLocals ts'
    else t :: packLocals ts

/-- Drops unusable slots at the end, given last first, but not the second half of a wide local. -/
def trimReversed : List (SlotType C U) → List (SlotType C U)
  | [] => []
  | t :: ts =>
    if t.isTop then
      match ts with
      | [] => []
      | u :: us => if u.isWide then t :: u :: us else trimReversed (u :: us)
    else t :: ts

def trimLocals (ts : List (SlotType C U)) : List (SlotType C U) := (trimReversed ts.reverse).reverse

namespace FrameOf

def ofPacked (locals stack : List (SlotType C U)) : FrameOf C U := ⟨spreadLocals locals, stack⟩

def packed (f : FrameOf C U) : List (SlotType C U) := packLocals f.locals

def trim (f : FrameOf C U) : FrameOf C U := { f with locals := trimLocals f.locals }

end FrameOf

namespace VerifyType

def ofClass (n : BinaryName) : VerifyType := .object (.object n)

/-- Small integers are held as `int`. -/
def ofField : FieldType → VerifyType
  | .base .float => .float
  | .base .long => .long
  | .base .double => .double
  | .base _ => .integer
  | .ref t => .object t

end VerifyType

/-- The frame at the start of a method. The receiver of a constructor is not constructed yet, except
in the class that has no superclass. -/
def Frame.entry (owner : BinaryName) (isStatic isConstructor : Bool) (type : MethodType) : Frame :=
  let receiver : List VerifyType :=
    if isStatic then []
    else if isConstructor && owner ≠ BinaryName.object then [.uninitializedThis]
    else [VerifyType.ofClass owner]
  FrameOf.ofPacked (receiver ++ type.parameters.map VerifyType.ofField) []

end ClassGraft
