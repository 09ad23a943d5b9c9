import ClassGraft.Patch.Error

namespace ClassGraft

namespace Mapping

/-- The mapping that the words of a line give. -/
def ofWords? : List String → Except MappingFault (Option Mapping)
  | [] => .ok none
  | ["CL:", canonical, minified] => .ok (some (.ofClass canonical minified))
  | ["MD:", owner, canonical, minified] =>
    .ok (some (.ofMember .method owner canonical minified))
  | ["FD:", owner, canonical, minified] => .ok (some (.ofMember .field owner canonical minified))
  | tag :: names =>
    if tag = "CL:" then .error (.nameCount 2 names.length)
    else if tag = "MD:" || tag = "FD:" then .error (.nameCount 3 names.length)
    else .error (.unknownTag tag)

/-- The mapping on a line, if there is one. A comment starts with a number sign. -/
def ofLine? (line : List Char) : Except MappingFault (Option Mapping) :=
  ofWords? ((words (line.takeWhile (· ≠ '#'))).map String.ofList)

/-- The mappings on the lines from a number on. -/
def ofLines (number : Nat) : List (List Char) → Except PatchError (List Mapping)
  | [] => .ok []
  | line :: rest => do
    let m ← (ofLine? line).mapError (PatchError.malformedMappings number)
    return m.toList ++ (← ofLines (number + 1) rest)

/-- The mappings of a text, one to a line. Lines are counted from 1. -/
def parse (text : String) : Except PatchError (List Mapping) := ofLines 1 (lines text.toList)

end Mapping

end ClassGraft
