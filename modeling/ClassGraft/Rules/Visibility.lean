import ClassGraft.Patch.Predicate
import ClassGraft.Patch.Rule
import ClassGraft.Rules.Names

namespace ClassGraft.Rules

/-- The field that makes a scan stop early. -/
def limitScan : String := "patcherLimitScan"

/-- Marks the new graph in local variable 2. -/
def limitVisibilityScan (c : PatchContext) (b : Body) : Patching Body := do
  match b.firstNode? (.same (.insn (.store .ref 2))) with
  | none => throw (.targetMissing "astore 2")
  | some store =>
    let graph ← c.resolveClass visGraph
    let flag ← c.unmappedFieldRef graph limitScan "Z"
    let (_, b) ← b.insertAfter store [
      .insn (.load .ref 2),
      .insn (.push (.int 1)),
      .insn (.field .putField flag)]
    return b

/-- Declares the field that marks graphs, unless it is there. -/
def addScanFlag (_ : PatchContext) (c : ClassModel) : Patching ClassModel := do
  if c.hasField limitScan then return c
  else
    let name ← MemberName.ofGiven limitScan
    c.addField ⟨Flags.publicOnly, name, .base .boolean⟩

def visibilityScanLimit : PatchRule where
  name := "visibility-scan-limit"
  target := renderGlobal
  procedures := [⟨"getVisibleFacings", true, limitVisibilityScan⟩]
  classPatch := none
  symbols := [.ofClass visGraph]

def visGraphScanFlag : PatchRule where
  name := "vis-graph-scan-flag"
  target := visGraph
  procedures := []
  classPatch := some addScanFlag
  symbols := []

end ClassGraft.Rules
