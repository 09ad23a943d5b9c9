import ClassGraft.Attribute
import ClassGraft.Version
import ClassGraft.Code.Mnemonic

namespace ClassGraft

/-- Why an attribute does not make sense. -/
inductive AttributeFault where
  | unreadable (e : ReadError)
  | trailing
  | truncatedInstruction (offset : Nat) (e : ReadError)
  | badHandler (entry : ExceptionEntry)
  | arrayCaught (type : RefType)
  | switchBounds (offset : Nat) (low high : Int32)
  | switchPairs (offset : Nat) (count : Int32)
  | unknownArrayType (offset : Nat) (code : UInt8)
  | noNew (offset : Nat)
  | frameOffInstruction (offset : Nat)
  | noLabel (offset : Nat)
  | cannotChop (count : UInt8)

def AttributeFault.message : AttributeFault → String
  | .unreadable e => e.message
  | .trailing => "trailing bytes"
  | .truncatedInstruction offset e => s!"truncated instruction at {offset}: {e.message}"
  | .badHandler _ => "invalid exception handler"
  | .arrayCaught _ => "cannot catch array type"
  | .switchBounds offset low high => s!"tableswitch at {offset} has bounds {low} > {high}"
  | .switchPairs offset count => s!"lookupswitch at {offset} has {count} pairs"
  | .unknownArrayType offset code => s!"newarray at {offset} has unknown type {code}"
  | .noNew offset => s!"no `new` instruction at {offset}"
  | .frameOffInstruction offset => s!"frame at {offset} is not on an instruction"
  | .noLabel offset => s!"no label at {offset}"
  | .cannotChop count => s!"cannot chop {count} locals"

inductive ClassFault where
  | wideOverrun
  | trailing (count : Nat)

def ClassFault.message : ClassFault → String
  | .wideOverrun => "wide constant overruns the constant pool"
  | .trailing count => s!"{count} trailing bytes after class file"

/-- The kind of pool entry that an index should have named. -/
inductive Expected where
  | utf8 | classRef | nameAndType | member | plainClass | invokeDynamic | loadable

def Expected.text : Expected → String
  | .utf8 => "Utf8"
  | .classRef => "Class"
  | .nameAndType => "NameAndType"
  | .member => "Fieldref or Methodref"
  | .plainClass => "non-array Class"
  | .invokeDynamic => "InvokeDynamic"
  | .loadable => "loadable constant"

/-- Why an instruction does not fit the frame before it, or two frames each other. -/
inductive VerifyFault where
  | emptyStack
  | invalidWidth (found : Nat)
  | notArray
  | invalidIndex (slot : UInt16)
  | invalidType
  | incompatible
  | unreachableTarget (l : Label)
  deriving DecidableEq

inductive VerifySite where
  | node (n : Node)
  | join (position : Nat)

def VerifySite.text : VerifySite → String
  | .node n => n.mnemonic
  | .join position => s!"join at position {position}"

inductive FlowFault where
  | fallsOffEnd
  | labelAtEnd (l : Label)
  | unreached (n : Node)

def FlowFault.message : FlowFault → String
  | .fallsOffEnd => "execution falls off the end of the method"
  | .labelAtEnd l => s!"{l.text} is at the end of the method"
  | .unreached n => s!"no frame reaches unreachable {n.mnemonic}"

/-- What is said of a bad descriptor: why it is bad, what it is, or both. -/
inductive DescriptorReport where
  | cause (e : DescriptorError)
  | text (descriptor : String)
  | both (descriptor : String) (e : DescriptorError)

def DescriptorReport.message : DescriptorReport → String
  | .cause e => e.message
  | .text descriptor => descriptor
  | .both descriptor e => descriptor ++ ": " ++ e.message

/-- Everything that can go wrong when classes are read, edited, checked and written. -/
inductive ClassError where
  | unreadable (e : ReadError)
  | unparsable (e : DescriptorError)
  | badMagic (magic : UInt32)
  | unsupportedVersion (v : Version)
  | malformedClass (fault : ClassFault)
  | invalidIndex (index : PoolIndex)
  | unexpectedConstant (index : PoolIndex) (expected : Expected)
  | poolOverflow (constant : Constant) (offset : Nat)
  | malformedName (e : NameError)
  | badDescriptor (report : DescriptorReport)
  | malformedAttribute (kind : AttributeKind) (fault : AttributeFault)
  | invalidOpcode (offset : Nat) (opcode : UInt8)
  | invalidTarget (offset : Nat) (target : Int)
  | codeTooLong (size : Nat)
  | stackTooDeep (size : Nat)
  | tooManyLocals (size : Nat)
  | jumpTooFar (label : Label) (relative : Int)
  | duplicateLabel (label : Label)
  | danglingLabel (label : Label)
  | missingNode (node : NodeId)
  | operandMismatch (node : NodeId)
  | unbalanced (anchor : Option NodeId) (effect : Int)
  | unreachable (node : NodeId)
  | depthMismatch (node : NodeId) (expected found : Nat)
  | underflow (node : Node)
  | unverifiable (site : VerifySite) (fault : VerifyFault)
  | conflictingFrames (offset : Nat)
  | flow (fault : FlowFault)

end ClassGraft
