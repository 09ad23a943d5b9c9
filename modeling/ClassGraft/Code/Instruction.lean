import ClassGraft.Descriptor
import ClassGraft.Constant

namespace ClassGraft

/-- The kinds of values that have loads, stores and returns of their own. -/
inductive ValueKind where
  | int | long | float | double | ref
  deriving DecidableEq

/-- The kinds of numbers that arithmetic works on. -/
inductive NumberKind where
  | int | long | float | double
  deriving DecidableEq

inductive ElementKind where
  | int | long | float | double | ref | byte | char | short
  deriving DecidableEq

inductive StackOp where
  | pop | pop2 | dup | dupX1 | dupX2 | dup2 | dup2X1 | dup2X2 | swap
  deriving DecidableEq

inductive ArithmeticOp where
  | add | sub | mul | div | rem | neg
  deriving DecidableEq

inductive ShiftOp where
  | left | logicalRight | arithmeticRight
  deriving DecidableEq

inductive BitOp where
  | and | or | xor
  deriving DecidableEq

inductive Conversion where
  | i2l | i2f | i2d | l2i | l2f | l2d | f2i | f2l | f2d | d2i | d2l | d2f | i2b | i2c | i2s
  deriving DecidableEq

/-- Which way a floating point comparison goes when an operand is not a number. -/
inductive NaNMode where
  | less | greater
  deriving DecidableEq

inductive Comparison where
  | eq | ge | gt | le | lt | ne
  deriving DecidableEq

def Comparison.negate : Comparison → Comparison
  | .eq => .ne
  | .ge => .lt
  | .gt => .le
  | .le => .gt
  | .lt => .ge
  | .ne => .eq

inductive Equality where
  | eq | ne
  deriving DecidableEq

def Equality.negate : Equality → Equality
  | .eq => .ne
  | .ne => .eq

inductive FieldAccess where
  | getStatic | putStatic | getField | putField
  deriving DecidableEq

inductive InvokeKind where
  | virtual | special | static | interface
  deriving DecidableEq

structure FieldRef where
  owner : BinaryName
  name : MemberName
  type : FieldType
  deriving DecidableEq

structure MethodRef where
  owner : RefType
  name : MemberName
  type : MethodType
  isInterface : Bool
  deriving DecidableEq

structure CallSite where
  bootstrap : UInt16
  name : MemberName
  type : MethodType
  deriving DecidableEq

/-- A constant that an instruction can load. Method handles and dynamic constants stand for the pool
entry they came from. -/
inductive Literal where
  | int (n : Int32)
  | float (bits : UInt32)
  | long (n : Int64)
  | double (bits : UInt64)
  | string (s : String)
  | classRef (t : RefType)
  | methodType (t : MethodType)
  | methodHandle (index : PoolIndex)
  | dynamic (index : PoolIndex) (type : FieldType)
  deriving DecidableEq

/-- The instructions that always go on with the next one. -/
inductive Instruction where
  | nop
  | constNull
  | constInt (n : Fin 7)
  | constLong (n : Fin 2)
  | constFloat (n : Fin 3)
  | constDouble (n : Fin 2)
  | bipush (n : Int8)
  | sipush (n : Int16)
  | ldc (l : Literal)
  | load (k : ValueKind) (slot : UInt16)
  | store (k : ValueKind) (slot : UInt16)
  | arrayLoad (k : ElementKind)
  | arrayStore (k : ElementKind)
  | stack (op : StackOp)
  | arithmetic (op : ArithmeticOp) (k : NumberKind)
  | shift (op : ShiftOp) (long : Bool)
  | bitwise (op : BitOp) (long : Bool)
  | increment (slot : UInt16) (amount : Int16)
  | convert (c : Conversion)
  | compareLong
  | compareFloat (m : NaNMode)
  | compareDouble (m : NaNMode)
  | field (a : FieldAccess) (f : FieldRef)
  | invoke (k : InvokeKind) (m : MethodRef)
  | invokeDynamic (c : CallSite)
  | new (c : BinaryName)
  | newArray (t : BaseType)
  | newRefArray (t : RefType)
  | arrayLength
  | checkCast (t : RefType)
  | instanceOf (t : RefType)
  | monitorEnter
  | monitorExit
  | newMultiArray (t : RefType) (dimensions : UInt8)
  deriving DecidableEq

/-- The instructions that may go on elsewhere, over a type of jump targets. -/
inductive Branch (L : Type) where
  | ifZero (c : Comparison) (target : L)
  | ifInt (c : Comparison) (target : L)
  | ifRef (c : Equality) (target : L)
  | ifNull (c : Equality) (target : L)
  | goto (target : L)
  | gotoWide (target : L)
  | jsr (target : L)
  | jsrWide (target : L)
  | ret (slot : UInt16)
  | tableSwitch (default : L) (low : Int32) (targets : List L)
  | lookupSwitch (default : L) (cases : List (Int32 × L))
  | leave (k : Option ValueKind)
  | athrow
  deriving DecidableEq

inductive OpcodeCategory where
  | nop | constant | load | store | arrayLoad | arrayStore | stack | arithmetic | increment
  | conversion | comparison | fieldAccess | invoke | invokeDynamic | allocation | typeCheck
  | monitor | branch | switch | subroutine | return | throw | label | lineNumber | frame
  deriving DecidableEq

end ClassGraft
