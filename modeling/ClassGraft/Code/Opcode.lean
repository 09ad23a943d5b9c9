import ClassGraft.Code.Node

namespace ClassGraft

def ValueKind.code : ValueKind → UInt8
  | .int => 0
  | .long => 1
  | .float => 2
  | .double => 3
  | .ref => 4

def ValueKind.ofCode : UInt8 → ValueKind
  | 0 => .int
  | 1 => .long
  | 2 => .float
  | 3 => .double
  | _ => .ref

def NumberKind.code : NumberKind → UInt8
  | .int => 0
  | .long => 1
  | .float => 2
  | .double => 3

def NumberKind.ofCode : UInt8 → NumberKind
  | 0 => .int
  | 1 => .long
  | 2 => .float
  | _ => .double

def ElementKind.code : ElementKind → UInt8
  | .int => 0
  | .long => 1
  | .float => 2
  | .double => 3
  | .ref => 4
  | .byte => 5
  | .char => 6
  | .short => 7

def ElementKind.ofCode : UInt8 → ElementKind
  | 0 => .int
  | 1 => .long
  | 2 => .float
  | 3 => .double
  | 4 => .ref
  | 5 => .byte
  | 6 => .char
  | _ => .short

def StackOp.code : StackOp → UInt8
  | .pop => 0
  | .pop2 => 1
  | .dup => 2
  | .dupX1 => 3
  | .dupX2 => 4
  | .dup2 => 5
  | .dup2X1 => 6
  | .dup2X2 => 7
  | .swap => 8

def StackOp.ofCode : UInt8 → StackOp
  | 0 => .pop
  | 1 => .pop2
  | 2 => .dup
  | 3 => .dupX1
  | 4 => .dupX2
  | 5 => .dup2
  | 6 => .dup2X1
  | 7 => .dup2X2
  | _ => .swap

def ArithmeticOp.code : ArithmeticOp → UInt8
  | .add => 0
  | .sub => 1
  | .mul => 2
  | .div => 3
  | .rem => 4
  | .neg => 5

def ArithmeticOp.ofCode : UInt8 → ArithmeticOp
  | 0 => .add
  | 1 => .sub
  | 2 => .mul
  | 3 => .div
  | 4 => .rem
  | _ => .neg

def ShiftOp.code : ShiftOp → UInt8
  | .left => 0
  | .arithmeticRight => 1
  | .logicalRight => 2

def ShiftOp.ofCode : UInt8 → ShiftOp
  | 0 => .left
  | 1 => .arithmeticRight
  | _ => .logicalRight

def BitOp.code : BitOp → UInt8
  | .and => 0
  | .or => 1
  | .xor => 2

def BitOp.ofCode : UInt8 → BitOp
  | 0 => .and
  | 1 => .or
  | _ => .xor

def Conversion.code : Conversion → UInt8
  | .i2l => 0
  | .i2f => 1
  | .i2d => 2
  | .l2i => 3
  | .l2f => 4
  | .l2d => 5
  | .f2i => 6
  | .f2l => 7
  | .f2d => 8
  | .d2i => 9
  | .d2l => 10
  | .d2f => 11
  | .i2b => 12
  | .i2c => 13
  | .i2s => 14

def Conversion.ofCode : UInt8 → Conversion
  | 0 => .i2l
  | 1 => .i2f
  | 2 => .i2d
  | 3 => .l2i
  | 4 => .l2f
  | 5 => .l2d
  | 6 => .f2i
  | 7 => .f2l
  | 8 => .f2d
  | 9 => .d2i
  | 10 => .d2l
  | 11 => .d2f
  | 12 => .i2b
  | 13 => .i2c
  | _ => .i2s

def NaNMode.code : NaNMode → UInt8
  | .less => 0
  | .greater => 1

def Comparison.code : Comparison → UInt8
  | .eq => 0
  | .ne => 1
  | .lt => 2
  | .ge => 3
  | .gt => 4
  | .le => 5

def Comparison.ofCode : UInt8 → Comparison
  | 0 => .eq
  | 1 => .ne
  | 2 => .lt
  | 3 => .ge
  | 4 => .gt
  | _ => .le

def Equality.code : Equality → UInt8
  | .eq => 0
  | .ne => 1

def FieldAccess.code : FieldAccess → UInt8
  | .getStatic => 0
  | .putStatic => 1
  | .getField => 2
  | .putField => 3

def FieldAccess.ofCode : UInt8 → FieldAccess
  | 0 => .getStatic
  | 1 => .putStatic
  | 2 => .getField
  | _ => .putField

def InvokeKind.code : InvokeKind → UInt8
  | .virtual => 0
  | .special => 1
  | .static => 2
  | .interface => 3

def InvokeKind.ofCode : UInt8 → InvokeKind
  | 0 => .virtual
  | 1 => .special
  | 2 => .static
  | _ => .interface

/-- The code of an element type in `newarray`. -/
def BaseType.arrayCode : BaseType → UInt8
  | .boolean => 4
  | .char => 5
  | .float => 6
  | .double => 7
  | .byte => 8
  | .short => 9
  | .int => 10
  | .long => 11

def BaseType.ofArrayCode? : UInt8 → Option BaseType
  | 4 => some .boolean
  | 5 => some .char
  | 6 => some .float
  | 7 => some .double
  | 8 => some .byte
  | 9 => some .short
  | 10 => some .int
  | 11 => some .long
  | _ => none

/-- The opcode of an instruction of one byte, loads and stores apart. -/
def Instruction.opcode? : Instruction → Option UInt8
  | .nop => some 0x00
  | .constNull => some 0x01
  | .constInt n => some (0x02 + n.val.toUInt8)
  | .constLong n => some (0x09 + n.val.toUInt8)
  | .constFloat n => some (0x0B + n.val.toUInt8)
  | .constDouble n => some (0x0E + n.val.toUInt8)
  | .arrayLoad k => some (0x2E + k.code)
  | .arrayStore k => some (0x4F + k.code)
  | .stack op => some (0x57 + op.code)
  | .arithmetic op k => some (0x60 + 4 * op.code + k.code)
  | .shift op long => some (0x78 + 2 * op.code + if long then 1 else 0)
  | .bitwise op long => some (0x7E + 2 * op.code + if long then 1 else 0)
  | .convert c => some (0x85 + c.code)
  | .compareLong => some 0x94
  | .compareFloat m => some (0x95 + m.code)
  | .compareDouble m => some (0x97 + m.code)
  | .arrayLength => some 0xBE
  | .monitorEnter => some 0xC2
  | .monitorExit => some 0xC3
  | _ => none

/-- The instruction of one byte that an opcode stands for. -/
def Instruction.ofOpcode? (op : UInt8) : Option Instruction :=
  if op = 0x00 then some .nop
  else if op = 0x01 then some .constNull
  else if h : op.toNat - 0x02 < 7 then some (.constInt ⟨op.toNat - 0x02, h⟩)
  else if h : op.toNat - 0x09 < 2 then some (.constLong ⟨op.toNat - 0x09, h⟩)
  else if h : op.toNat - 0x0B < 3 then some (.constFloat ⟨op.toNat - 0x0B, h⟩)
  else if h : op.toNat - 0x0E < 2 then some (.constDouble ⟨op.toNat - 0x0E, h⟩)
  else if op < 0x1A then none
  else if op ≤ 0x2D then
    some (.load (.ofCode ((op - 0x1A) / 4)) ((op - 0x1A) % 4).toUInt16)
  else if op ≤ 0x35 then some (.arrayLoad (.ofCode (op - 0x2E)))
  else if op < 0x3B then none
  else if op ≤ 0x4E then
    some (.store (.ofCode ((op - 0x3B) / 4)) ((op - 0x3B) % 4).toUInt16)
  else if op ≤ 0x56 then some (.arrayStore (.ofCode (op - 0x4F)))
  else if op ≤ 0x5F then some (.stack (.ofCode (op - 0x57)))
  else if op ≤ 0x77 then
    some (.arithmetic (.ofCode ((op - 0x60) / 4)) (.ofCode ((op - 0x60) % 4)))
  else if op ≤ 0x7D then some (.shift (.ofCode ((op - 0x78) / 2)) ((op - 0x78) % 2 = 1))
  else if op ≤ 0x83 then some (.bitwise (.ofCode ((op - 0x7E) / 2)) ((op - 0x7E) % 2 = 1))
  else if op = 0x84 then none
  else if op ≤ 0x93 then some (.convert (.ofCode (op - 0x85)))
  else if op = 0x94 then some .compareLong
  else if op = 0x95 then some (.compareFloat .less)
  else if op = 0x96 then some (.compareFloat .greater)
  else if op = 0x97 then some (.compareDouble .less)
  else if op = 0x98 then some (.compareDouble .greater)
  else if op = 0xBE then some .arrayLength
  else if op = 0xC2 then some .monitorEnter
  else if op = 0xC3 then some .monitorExit
  else none

/-- The branch of one byte that an opcode stands for. -/
def Branch.ofOpcode? {L : Type} (op : UInt8) : Option (Branch L) :=
  if op = 0xBF then some .athrow
  else if op < 0xAC then none
  else if op ≤ 0xB0 then some (.leave (some (.ofCode (op - 0xAC))))
  else if op = 0xB1 then some (.leave none)
  else none

end ClassGraft
