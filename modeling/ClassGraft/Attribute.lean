import ClassGraft.Constant
import ClassGraft.StackMap

namespace ClassGraft

/-- An attribute whose content is left as it stands. -/
structure Attribute where
  name : PoolIndex
  info : Bytes
  deriving DecidableEq

namespace Attribute

def read : Reader Attribute := return ⟨← Reader.u16, ← Reader.sized⟩

def write (a : Attribute) : Bytes := Write.u16 a.name ++ Write.sized a.info

end Attribute

/-- A range of code offsets, its end excluded, whose exceptions go to a handler. Catch index 0
catches everything. -/
structure ExceptionEntry where
  start : UInt16
  stop : UInt16
  handler : UInt16
  catchIndex : PoolIndex
  deriving DecidableEq

namespace ExceptionEntry

def read : Reader ExceptionEntry :=
  return ⟨← Reader.u16, ← Reader.u16, ← Reader.u16, ← Reader.u16⟩

def write (e : ExceptionEntry) : Bytes :=
  Write.u16 e.start ++ Write.u16 e.stop ++ Write.u16 e.handler ++ Write.u16 e.catchIndex

end ExceptionEntry

structure CodeAttribute where
  maxStack : UInt16
  maxLocals : UInt16
  code : Bytes
  exceptions : List ExceptionEntry
  attributes : List Attribute
  deriving DecidableEq

namespace CodeAttribute

open Reader in
def read : Reader CodeAttribute :=
  return ⟨← u16, ← u16, ← sized, ← counted ExceptionEntry.read, ← counted Attribute.read⟩

def write (c : CodeAttribute) : Bytes :=
  Write.u16 c.maxStack ++ Write.u16 c.maxLocals ++ Write.sized c.code ++
    Write.counted ExceptionEntry.write c.exceptions ++ Write.counted Attribute.write c.attributes

end CodeAttribute

structure LineEntry where
  start : UInt16
  line : UInt16
  deriving DecidableEq

namespace LineEntry

def read : Reader LineEntry := return ⟨← Reader.u16, ← Reader.u16⟩

def write (l : LineEntry) : Bytes := Write.u16 l.start ++ Write.u16 l.line

end LineEntry

/-- A local variable with its descriptor, or with its generic signature. -/
structure LocalEntry where
  start : UInt16
  length : UInt16
  name : PoolIndex
  descriptor : PoolIndex
  index : UInt16
  deriving DecidableEq

namespace LocalEntry

open Reader in
def read : Reader LocalEntry := return ⟨← u16, ← u16, ← u16, ← u16, ← u16⟩

def write (l : LocalEntry) : Bytes :=
  Write.u16 l.start ++ Write.u16 l.length ++ Write.u16 l.name ++ Write.u16 l.descriptor ++
    Write.u16 l.index

end LocalEntry

/-- The attributes whose content is understood. -/
inductive AttributeKind where
  | code | stackMapTable | lineNumberTable | localVariableTable | localVariableTypeTable
  deriving DecidableEq

namespace AttributeKind

def name : AttributeKind → String
  | .code => "Code"
  | .stackMapTable => "StackMapTable"
  | .lineNumberTable => "LineNumberTable"
  | .localVariableTable => "LocalVariableTable"
  | .localVariableTypeTable => "LocalVariableTypeTable"

/-- What an attribute of a kind holds. -/
abbrev Content : AttributeKind → Type
  | .code => CodeAttribute
  | .stackMapTable => List StackMapFrame
  | .lineNumberTable => List LineEntry
  | .localVariableTable | .localVariableTypeTable => List LocalEntry

def read : (k : AttributeKind) → Reader k.Content
  | .code => CodeAttribute.read
  | .stackMapTable => Reader.counted StackMapFrame.read
  | .lineNumberTable => Reader.counted LineEntry.read
  | .localVariableTable | .localVariableTypeTable => Reader.counted LocalEntry.read

def write : (k : AttributeKind) → k.Content → Bytes
  | .code => CodeAttribute.write
  | .stackMapTable => Write.counted StackMapFrame.write
  | .lineNumberTable => Write.counted LineEntry.write
  | .localVariableTable | .localVariableTypeTable => Write.counted LocalEntry.write

end AttributeKind

end ClassGraft
