import ClassGraft.Code.Instruction
import ClassGraft.Frame.Basic

namespace ClassGraft

/-- An element of a method body. A label, a line number or a frame belongs to the first instruction
after it. -/
inductive Node where
  | insn (i : Instruction)
  | branch (b : Branch Label)
  | label (l : Label)
  | line (n : UInt16)
  | frame (f : Frame)
  deriving DecidableEq

/-- A node keeps its id for as long as it stays in a body, whatever happens around it. -/
structure NodeId where
  index : Nat
  deriving DecidableEq, Hashable

namespace Literal

def width : Literal → Nat
  | .long _ | .double _ => 2
  | .dynamic _ t => t.width
  | _ => 1

def isNaN32 (bits : UInt32) : Bool := 0x7F800000 < bits &&& 0x7FFFFFFF

def isNaN64 (bits : UInt64) : Bool := 0x7FF0000000000000 < bits &&& 0x7FFFFFFFFFFFFFFF

/-- Equality of values, where floating point numbers compare as numbers: the two zeros are equal, and
no NaN is equal to itself. -/
def numericEq : Literal → Literal → Bool
  | .float a, .float b =>
    !isNaN32 a && !isNaN32 b && (a == b || (a ||| b) &&& 0x7FFFFFFF == 0)
  | .double a, .double b =>
    !isNaN64 a && !isNaN64 b && (a == b || (a ||| b) &&& 0x7FFFFFFFFFFFFFFF == 0)
  | a, b => decide (a = b)

end Literal

namespace Instruction

def constIntValue (n : Fin 7) : Int32 := Int32.ofInt (n.val - 1)

def constFloatBits : Fin 3 → UInt32
  | 0 => 0
  | 1 => 0x3F800000
  | 2 => 0x40000000

def constDoubleBits : Fin 2 → UInt64
  | 0 => 0
  | 1 => 0x3FF0000000000000

/-- The shortest instruction that pushes a constant. -/
def push : Literal → Instruction
  | .int n =>
    if n = -1 then .constInt 0
    else if n = 0 then .constInt 1
    else if n = 1 then .constInt 2
    else if n = 2 then .constInt 3
    else if n = 3 then .constInt 4
    else if n = 4 then .constInt 5
    else if n = 5 then .constInt 6
    else if n.toInt8.toInt32 = n then .bipush n.toInt8
    else if n.toInt16.toInt32 = n then .sipush n.toInt16
    else .ldc (.int n)
  | .long n => if n = 0 then .constLong 0 else if n = 1 then .constLong 1 else .ldc (.long n)
  | .float bits =>
    if bits = 0 then .constFloat 0
    else if bits = 0x3F800000 then .constFloat 1
    else if bits = 0x40000000 then .constFloat 2
    else .ldc (.float bits)
  | .double bits =>
    if bits = 0 then .constDouble 0
    else if bits = 0x3FF0000000000000 then .constDouble 1
    else .ldc (.double bits)
  | l => .ldc l

/-- The constant that an instruction pushes. -/
def literal? : Instruction → Option Literal
  | .constInt n => some (.int (constIntValue n))
  | .constLong n => some (.long (Int64.ofInt n.val))
  | .constFloat n => some (.float (constFloatBits n))
  | .constDouble n => some (.double (constDoubleBits n))
  | .bipush n => some (.int n.toInt32)
  | .sipush n => some (.int n.toInt32)
  | .ldc l => some l
  | _ => none

/-- The local variable slot that an instruction reads or writes. -/
def slot? : Instruction → Option UInt16
  | .load _ s | .store _ s | .increment s _ => some s
  | _ => none

def category : Instruction → OpcodeCategory
  | .nop => .nop
  | .constNull | .constInt _ | .constLong _ | .constFloat _ | .constDouble _ | .bipush _
  | .sipush _ | .ldc _ => .constant
  | .load _ _ => .load
  | .store _ _ => .store
  | .arrayLoad _ | .arrayLength => .arrayLoad
  | .arrayStore _ => .arrayStore
  | .stack _ => .stack
  | .arithmetic _ _ | .shift _ _ | .bitwise _ _ => .arithmetic
  | .increment _ _ => .increment
  | .convert _ => .conversion
  | .compareLong | .compareFloat _ | .compareDouble _ => .comparison
  | .field _ _ => .fieldAccess
  | .invoke _ _ => .invoke
  | .invokeDynamic _ => .invokeDynamic
  | .new _ | .newArray _ | .newRefArray _ | .newMultiArray _ _ => .allocation
  | .checkCast _ | .instanceOf _ => .typeCheck
  | .monitorEnter | .monitorExit => .monitor

end Instruction

def ValueKind.width : ValueKind → Nat
  | .long | .double => 2
  | _ => 1

def NumberKind.width : NumberKind → Nat
  | .long | .double => 2
  | _ => 1

def ElementKind.width : ElementKind → Nat
  | .long | .double => 2
  | _ => 1

/-- The slots that an instruction pops and pushes. -/
structure StackSlots where
  popped : Nat
  pushed : Nat
  deriving DecidableEq

def StackOp.slots : StackOp → StackSlots
  | .pop => ⟨1, 0⟩
  | .pop2 => ⟨2, 0⟩
  | .dup => ⟨1, 2⟩
  | .dupX1 => ⟨2, 3⟩
  | .dupX2 => ⟨3, 4⟩
  | .dup2 => ⟨2, 4⟩
  | .dup2X1 => ⟨3, 5⟩
  | .dup2X2 => ⟨4, 6⟩
  | .swap => ⟨2, 2⟩

def Conversion.slots : Conversion → StackSlots
  | .i2f | .f2i | .i2b | .i2c | .i2s => ⟨1, 1⟩
  | .i2l | .i2d | .f2l | .f2d => ⟨1, 2⟩
  | .l2i | .l2f | .d2i | .d2f => ⟨2, 1⟩
  | .l2d | .d2l => ⟨2, 2⟩

def FieldAccess.slots (a : FieldAccess) (t : FieldType) : StackSlots :=
  match a with
  | .getStatic => ⟨0, t.width⟩
  | .putStatic => ⟨t.width, 0⟩
  | .getField => ⟨1, t.width⟩
  | .putField => ⟨1 + t.width, 0⟩

def Instruction.slots : Instruction → StackSlots
  | .nop | .increment _ _ => ⟨0, 0⟩
  | .constNull | .constInt _ | .constFloat _ | .bipush _ | .sipush _ | .new _ => ⟨0, 1⟩
  | .constLong _ | .constDouble _ => ⟨0, 2⟩
  | .ldc l => ⟨0, l.width⟩
  | .load k _ => ⟨0, k.width⟩
  | .store k _ => ⟨k.width, 0⟩
  | .arrayLoad k => ⟨2, k.width⟩
  | .arrayStore k => ⟨2 + k.width, 0⟩
  | .stack op => op.slots
  | .arithmetic .neg k => ⟨k.width, k.width⟩
  | .arithmetic _ k => ⟨2 * k.width, k.width⟩
  | .shift _ long => if long then ⟨3, 2⟩ else ⟨2, 1⟩
  | .bitwise _ long => if long then ⟨4, 2⟩ else ⟨2, 1⟩
  | .convert c => c.slots
  | .compareLong | .compareDouble _ => ⟨4, 1⟩
  | .compareFloat _ => ⟨2, 1⟩
  | .field a f => a.slots f.type
  | .invoke k m => ⟨m.type.parameterSlots (k ≠ .static), m.type.resultSlots⟩
  | .invokeDynamic c => ⟨c.type.parameterSlots false, c.type.resultSlots⟩
  | .newArray _ | .newRefArray _ | .arrayLength | .checkCast _ | .instanceOf _ => ⟨1, 1⟩
  | .monitorEnter | .monitorExit => ⟨1, 0⟩
  | .newMultiArray _ dimensions => ⟨dimensions.toNat, 1⟩

namespace Branch

variable {L M : Type}

/-- Can the next instruction come next? A subroutine is taken to return. -/
def fallsThrough : Branch L → Bool
  | .ifZero _ _ | .ifInt _ _ | .ifRef _ _ | .ifNull _ _ | .jsr _ | .jsrWide _ => true
  | _ => false

def isCall : Branch L → Bool
  | .jsr _ | .jsrWide _ => true
  | _ => false

/-- The targets in order, a default first. -/
def targets : Branch L → List L
  | .ifZero _ l | .ifInt _ l | .ifRef _ l | .ifNull _ l | .goto l | .gotoWide l | .jsr l
  | .jsrWide l => [l]
  | .tableSwitch default _ ls => default :: ls
  | .lookupSwitch default cases => default :: cases.map Prod.snd
  | .ret _ | .leave _ | .athrow => []

def mapM {m : Type → Type} [Monad m] (f : L → m M) : Branch L → m (Branch M)
  | .ifZero c l => return .ifZero c (← f l)
  | .ifInt c l => return .ifInt c (← f l)
  | .ifRef c l => return .ifRef c (← f l)
  | .ifNull c l => return .ifNull c (← f l)
  | .goto l => return .goto (← f l)
  | .gotoWide l => return .gotoWide (← f l)
  | .jsr l => return .jsr (← f l)
  | .jsrWide l => return .jsrWide (← f l)
  | .ret s => return .ret s
  | .tableSwitch default low ls => return .tableSwitch (← f default) low (← ls.mapM f)
  | .lookupSwitch default cases =>
    return .lookupSwitch (← f default) (← cases.mapM fun (k, l) => return (k, ← f l))
  | .leave k => return .leave k
  | .athrow => return .athrow

def map (f : L → M) (b : Branch L) : Branch M := Id.run (b.mapM fun l => pure (f l))

def category : Branch L → OpcodeCategory
  | .ifZero _ _ | .ifInt _ _ | .ifRef _ _ | .ifNull _ _ | .goto _ | .gotoWide _ => .branch
  | .jsr _ | .jsrWide _ | .ret _ => .subroutine
  | .tableSwitch _ _ _ | .lookupSwitch _ _ => .switch
  | .leave _ => .return
  | .athrow => .throw

def slots : Branch L → StackSlots
  | .ifZero _ _ | .ifNull _ _ | .tableSwitch _ _ _ | .lookupSwitch _ _ | .athrow => ⟨1, 0⟩
  | .ifInt _ _ | .ifRef _ _ => ⟨2, 0⟩
  | .goto _ | .gotoWide _ | .ret _ => ⟨0, 0⟩
  | .jsr _ | .jsrWide _ => ⟨0, 1⟩
  | .leave none => ⟨0, 0⟩
  | .leave (some k) => ⟨k.width, 0⟩

end Branch

namespace Node

/-- Does the node stand for no bytes? -/
def isPseudo : Node → Bool
  | .label _ | .line _ | .frame _ => true
  | .insn _ | .branch _ => false

def category : Node → OpcodeCategory
  | .insn i => i.category
  | .branch b => b.category
  | .label _ => .label
  | .line _ => .lineNumber
  | .frame _ => .frame

def slots : Node → StackSlots
  | .insn i => i.slots
  | .branch b => b.slots
  | _ => ⟨0, 0⟩

/-- The net change of the stack depth. -/
def effect (n : Node) : Int := n.slots.pushed - n.slots.popped

/-- The net change of the stack depth by all of some nodes. -/
def totalEffect : List Node → Int
  | [] => 0
  | n :: ns => n.effect + totalEffect ns

def insn? : Node → Option Instruction
  | .insn i => some i
  | _ => none

def branch? : Node → Option (Branch Label)
  | .branch b => some b
  | _ => none

def label? : Node → Option Label
  | .label l => some l
  | _ => none

def literal? (n : Node) : Option Literal := n.insn?.bind Instruction.literal?

end Node

end ClassGraft
