import ClassGraft.Error
import ClassGraft.Symbol.Basic

namespace ClassGraft

inductive MappingFault where
  | nameCount (expected found : Nat)
  | unknownTag (tag : String)
  deriving DecidableEq

def MappingFault.message : MappingFault → String
  | .nameCount expected found => s!"expected {expected} names, got {found}"
  | .unknownTag tag => s!"unknown entry kind '{tag}'"

/-- Why a name that a rule or a mapping gives cannot be used. -/
inductive NameFault where
  | invalid (e : NameError)
  | notMember (name : String)
  | badDescriptor (text : String)
  deriving DecidableEq

def NameFault.message : NameFault → String
  | .invalid e => e.message
  | .notMember name => s!"'{name}' is not of the form 'owner.name'"
  | .badDescriptor text => s!"bad descriptor '{text}'"

/-- Everything that can go wrong when rules are set up and applied. -/
inductive PatchError where
  | unknownSymbol (s : Symbol)
  | targetMissing (className rule target : String)
  | invariantViolation (className rule method : String) (cause : ClassError)
  | unsupportedVersion (className : String) (v : Version)
  | classFormat (className : String) (cause : ClassError)
  | malformedName (fault : NameFault)
  | malformedMappings (line : Nat) (fault : MappingFault)
  | unknownEnhancement (name : String)

namespace PatchError

def message : PatchError → String
  | .unknownSymbol s => s!"unknown {s.kind.text} symbol '{s.text}'"
  | .targetMissing className rule target =>
    s!"rule '{rule}' could not find '{target}' in class '{className}'"
  | .invariantViolation className rule method _ =>
    s!"rule '{rule}' broke method '{method}' of class '{className}'"
  | .unsupportedVersion className v =>
    s!"class '{className}' has unsupported version {v.major}.{v.minor}"
  | .classFormat className _ => s!"class '{className}' is malformed"
  | .malformedName fault => fault.message
  | .malformedMappings line fault => s!"mappings line {line}: {fault.message}"
  | .unknownEnhancement name => s!"no enhancement named '{name}'"

def isTargetMissing : PatchError → Bool
  | .targetMissing _ _ _ => true
  | _ => false

end PatchError

end ClassGraft
