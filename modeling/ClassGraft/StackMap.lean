import ClassGraft.Bytes

namespace ClassGraft

/-- The type of a slot, where `C` stands for classes and `U` for objects not yet constructed. -/
inductive SlotType (C U : Type) where
  | top | integer | float | double | long | null | uninitializedThis
  | object (c : C)
  | uninitialized (u : U)
  deriving DecidableEq

namespace SlotType

variable {C U C' U' : Type}

def width : SlotType C U → Nat
  | .double | .long => 2
  | _ => 1

def isWide (t : SlotType C U) : Bool := t.width = 2

def isReference : SlotType C U → Bool
  | .null | .uninitializedThis | .object _ | .uninitialized _ => true
  | _ => false

def isTop : SlotType C U → Bool
  | .top => true
  | _ => false

def mapM {m : Type → Type} [Monad m] (f : C → m C') (g : U → m U') :
    SlotType C U → m (SlotType C' U')
  | .top => pure .top
  | .integer => pure .integer
  | .float => pure .float
  | .double => pure .double
  | .long => pure .long
  | .null => pure .null
  | .uninitializedThis => pure .uninitializedThis
  | .object c => do return .object (← f c)
  | .uninitialized u => do return .uninitialized (← g u)

end SlotType

/-- A type as it is written: a class by its index and an object not yet constructed by the offset
of its `new`. -/
abbrev RawType := SlotType UInt16 UInt16

namespace RawType

def write : RawType → Bytes
  | .top => [0]
  | .integer => [1]
  | .float => [2]
  | .double => [3]
  | .long => [4]
  | .null => [5]
  | .uninitializedThis => [6]
  | .object c => 7 :: Write.u16 c
  | .uninitialized u => 8 :: Write.u16 u

def readBody : UInt8 → Reader RawType
  | 0 => return .top
  | 1 => return .integer
  | 2 => return .float
  | 3 => return .double
  | 4 => return .long
  | 5 => return .null
  | 6 => return .uninitializedThis
  | 7 => return .object (← Reader.u16)
  | 8 => return .uninitialized (← Reader.u16)
  | tag => Reader.fail (.unknownTypeTag tag)

def read : Reader RawType := do readBody (← Reader.u8)

end RawType

/-- A stack map entry says how a frame differs from the one before it. -/
inductive StackMapFrame where
  | same (delta : UInt16)
  | sameOne (delta : UInt16) (item : RawType)
  | chop (delta : UInt16) (count : UInt8)
  | append (delta : UInt16) (locals : List RawType)
  | full (delta : UInt16) (locals stack : List RawType)
  deriving DecidableEq

namespace StackMapFrame

def delta : StackMapFrame → UInt16
  | .same d | .sameOne d _ | .chop d _ | .append d _ | .full d _ _ => d

def write : StackMapFrame → Bytes
  | .same d => if d ≤ 63 then [d.toUInt8] else 251 :: Write.u16 d
  | .sameOne d item =>
    (if d ≤ 63 then [d.toUInt8 + 64] else 247 :: Write.u16 d) ++ item.write
  | .chop d count => (251 - count) :: Write.u16 d
  | .append d locals =>
    (251 + locals.length.toUInt8) :: Write.u16 d ++ locals.flatMap RawType.write
  | .full d locals stack =>
    255 :: Write.u16 d ++ Write.counted RawType.write locals ++ Write.counted RawType.write stack

open Reader in
def readBody (tag : UInt8) : Reader StackMapFrame :=
  if tag ≤ 63 then return .same tag.toUInt16
  else if tag ≤ 127 then return .sameOne (tag.toUInt16 - 64) (← RawType.read)
  else if tag < 247 then fail (.reservedFrameType tag)
  else if tag = 247 then return .sameOne (← u16) (← RawType.read)
  else if tag ≤ 250 then return .chop (← u16) (251 - tag)
  else if tag = 251 then return .same (← u16)
  else if tag ≤ 254 then return .append (← u16) (← times (tag.toNat - 251) RawType.read)
  else return .full (← u16) (← counted RawType.read) (← counted RawType.read)

def read : Reader StackMapFrame := do readBody (← Reader.u8)

end StackMapFrame

end ClassGraft
