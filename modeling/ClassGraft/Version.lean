import ClassGraft.Bytes

namespace ClassGraft

structure Version where
  major : UInt16
  minor : UInt16
  deriving DecidableEq

namespace Version

/-- The formats from Java 1.1 to Java 17 are known. -/
def isSupported (v : Version) : Bool := 45 ≤ v.major && v.major ≤ 61

/-- Since Java 6 methods are checked against their stack map frames. -/
def hasFrames (v : Version) : Bool := 50 ≤ v.major

def read : Reader Version := do
  let minor ← Reader.u16
  let major ← Reader.u16
  return ⟨major, minor⟩

def write (v : Version) : Bytes := Write.u16 v.minor ++ Write.u16 v.major

end Version

/-- What a set of access flags belongs to. -/
inductive FlagOwner where
  | ofClass | ofMethod | ofField
  deriving DecidableEq

namespace FlagOwner

/-- The bits that are assigned; the others are dropped when flags are read. -/
def assigned : FlagOwner → UInt16
  | .ofClass => 0xF631
  | .ofMethod => 0x1DFF
  | .ofField => 0x50DF

def keep (o : FlagOwner) (bits : UInt16) : UInt16 := bits &&& o.assigned

def read (o : FlagOwner) : Reader UInt16 := return o.keep (← Reader.u16)

end FlagOwner

def Flags.isStatic (bits : UInt16) : Bool := bits &&& 0x0008 ≠ 0

/-- The flags of a public member. -/
def Flags.publicOnly : UInt16 := 0x0001

/-- The flags of an ordinary public class. -/
def Flags.publicSuper : UInt16 := 0x0021

end ClassGraft
