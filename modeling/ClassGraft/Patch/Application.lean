import ClassGraft.Patch.Rule

namespace ClassGraft

namespace PatchRule

/-- A fault of a patch, told with the rule, the class and the method. -/
def explain (r : PatchRule) (className method : String) : PatchFault → PatchError
  | .targetMissing what => .targetMissing className r.name s!"{what} in {method}"
  | .edit cause => .invariantViolation className r.name method cause
  | .symbol e => e

/-- Patches the method at a position. -/
def patchMethod (r : PatchRule) (context : PatchContext) (className : String) (p : Procedure)
    (c : ClassModel) (position : Nat) : Except PatchError ClassModel :=
  match c.methods[position]? with
  | none => .ok c
  | some m => do
    let m ← m.beginEdit.mapError (PatchError.classFormat className)
    match m.body? with
    | none =>
      if p.isRequired then
        throw (.targetMissing className r.name s!"body of {m.displayName}")
      else return c
    | some body =>
      let body ← (p.apply context body).mapError (r.explain className m.displayName)
      return c.setMethod position (m.withBody body)

/-- Patches every method with the name of a procedure. -/
def runProcedure (r : PatchRule) (context : PatchContext) (className : String) (c : ClassModel)
    (p : Procedure) : Except PatchError ClassModel := do
  let name ← context.symbols.resolveMember .method r.target p.method
  let positions := c.methodsNamed name.text
  if positions.isEmpty && p.isRequired then
    throw (.targetMissing className r.name s!"method {p.method}")
  positions.foldlM (r.patchMethod context className p) c

/-- Every edited method has to be valid. This is a trial: the class is left as it is. -/
def tryMethods (r : PatchRule) (className : String) : List Method → Except PatchError Unit
  | [] => .ok ()
  | m :: ms =>
    match m.validate with
    | .ok _ => r.tryMethods className ms
    | .error cause => .error (.invariantViolation className r.name m.displayName cause)

/-- Applies a rule to a class, as a whole or not at all. -/
def apply (r : PatchRule) (symbols : SymbolTable) (settings : Settings) (c : ClassModel) :
    Except PatchError ClassModel := do
  let context : PatchContext := ⟨symbols, settings, c.name⟩
  let className := c.displayName
  let c ←
    match r.classPatch with
    | some patch => (patch context c).mapError (r.explain className className)
    | none => pure c
  let c ← r.procedures.foldlM (r.runProcedure context className) c
  r.tryMethods className c.methods
  return c

end PatchRule

end ClassGraft
