import ClassGraft.ModifiedText

namespace ClassGraft

/-- Index 0 names no entry. -/
abbrev PoolIndex := UInt16

inductive HandleKind where
  | getField | getStatic | putField | putStatic
  | invokeVirtual | invokeStatic | invokeSpecial | newInvokeSpecial | invokeInterface
  deriving DecidableEq, Hashable

namespace HandleKind

def tag : HandleKind → UInt8
  | .getField => 1
  | .getStatic => 2
  | .putField => 3
  | .putStatic => 4
  | .invokeVirtual => 5
  | .invokeStatic => 6
  | .invokeSpecial => 7
  | .newInvokeSpecial => 8
  | .invokeInterface => 9

def ofTag? : UInt8 → Option HandleKind
  | 1 => some .getField
  | 2 => some .getStatic
  | 3 => some .putField
  | 4 => some .putStatic
  | 5 => some .invokeVirtual
  | 6 => some .invokeStatic
  | 7 => some .invokeSpecial
  | 8 => some .newInvokeSpecial
  | 9 => some .invokeInterface
  | _ => none

def read : Reader HandleKind := do
  let t ← Reader.u8
  match ofTag? t with
  | some k => return k
  | none => Reader.fail (.unknownHandleKind t)

end HandleKind

/-- Floating point numbers stand as their bits, so that two constants are equal exactly when they
are written alike. -/
inductive Constant where
  | utf8 (text : String)
  | integer (n : Int32)
  | float (bits : UInt32)
  | long (n : Int64)
  | double (bits : UInt64)
  | classRef (name : PoolIndex)
  | string (text : PoolIndex)
  | fieldRef (owner nameAndType : PoolIndex)
  | methodRef (owner nameAndType : PoolIndex) (isInterface : Bool)
  | nameAndType (name descriptor : PoolIndex)
  | methodHandle (kind : HandleKind) (member : PoolIndex)
  | methodType (descriptor : PoolIndex)
  | dynamic (bootstrap : UInt16) (nameAndType : PoolIndex)
  | invokeDynamic (bootstrap : UInt16) (nameAndType : PoolIndex)
  | moduleName (name : PoolIndex)
  | packageName (name : PoolIndex)
  deriving DecidableEq, Hashable

namespace Constant

/-- A wide constant makes the slot after its own unusable. -/
def isWide : Constant → Bool
  | .long _ | .double _ => true
  | _ => false

def width (c : Constant) : Nat := if c.isWide then 2 else 1

def write : Constant → Bytes
  | .utf8 text =>
    let encoded := ModifiedText.encode text
    1 :: Write.u16 encoded.length.toUInt16 ++ encoded
  | .integer n => 3 :: Write.i32 n
  | .float bits => 4 :: Write.u32 bits
  | .long n => 5 :: Write.i64 n
  | .double bits => 6 :: Write.u64 bits
  | .classRef name => 7 :: Write.u16 name
  | .string text => 8 :: Write.u16 text
  | .fieldRef owner nt => 9 :: Write.u16 owner ++ Write.u16 nt
  | .methodRef owner nt false => 10 :: Write.u16 owner ++ Write.u16 nt
  | .methodRef owner nt true => 11 :: Write.u16 owner ++ Write.u16 nt
  | .nameAndType name descriptor => 12 :: Write.u16 name ++ Write.u16 descriptor
  | .methodHandle kind member => 15 :: kind.tag :: Write.u16 member
  | .methodType descriptor => 16 :: Write.u16 descriptor
  | .dynamic bootstrap nt => 17 :: Write.u16 bootstrap ++ Write.u16 nt
  | .invokeDynamic bootstrap nt => 18 :: Write.u16 bootstrap ++ Write.u16 nt
  | .moduleName name => 19 :: Write.u16 name
  | .packageName name => 20 :: Write.u16 name

open Reader in
/-- The body of a constant behind its tag. -/
def readBody : UInt8 → Reader Constant
  | 1 => do
    let n ← u16
    return .utf8 (ModifiedText.decode (← raw n.toNat))
  | 3 => return .integer (← i32)
  | 4 => return .float (← u32)
  | 5 => return .long (← i64)
  | 6 => return .double (← u64)
  | 7 => return .classRef (← u16)
  | 8 => return .string (← u16)
  | 9 => return .fieldRef (← u16) (← u16)
  | 10 => return .methodRef (← u16) (← u16) false
  | 11 => return .methodRef (← u16) (← u16) true
  | 12 => return .nameAndType (← u16) (← u16)
  | 15 => return .methodHandle (← HandleKind.read) (← u16)
  | 16 => return .methodType (← u16)
  | 17 => return .dynamic (← u16) (← u16)
  | 18 => return .invokeDynamic (← u16) (← u16)
  | 19 => return .moduleName (← u16)
  | 20 => return .packageName (← u16)
  | tag => fail (.unknownConstantTag tag)

def read : Reader Constant := do readBody (← Reader.u8)

end Constant

end ClassGraft
