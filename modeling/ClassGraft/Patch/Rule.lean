import ClassGraft.Patch.Context

namespace ClassGraft

abbrev BodyPatch := PatchContext → Body → Patching Body

abbrev ClassPatch := PatchContext → ClassModel → Patching ClassModel

/-- A patch of every method with a canonical name. -/
structure Procedure where
  method : String
  /-- Does the rule fail when there is no such method? -/
  isRequired : Bool
  apply : BodyPatch

/-- What is to be done to one class. The class itself is patched before its methods are, and whatever
the patches resolve is listed. -/
structure PatchRule where
  name : String
  /-- The canonical name of the class. -/
  target : String
  procedures : List Procedure
  classPatch : Option ClassPatch
  symbols : List Symbol

namespace PatchRule

/-- Everything that has to resolve for the rule to work, its targets included. -/
def requiredSymbols (r : PatchRule) : List Symbol :=
  .ofClass r.target :: r.procedures.map (fun p => .ofMember .method r.target p.method) ++ r.symbols

end PatchRule

end ClassGraft
