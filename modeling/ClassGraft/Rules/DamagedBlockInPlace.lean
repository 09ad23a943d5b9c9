import ClassGraft.Patch.Matching
import ClassGraft.Rules.DamagedBlock

namespace ClassGraft

/-- Patches where nodes are held. Where they fail, what they have changed stays changed. -/
abbrev PatchM := ExceptT PatchFault (StateM Arena)

instance : MonadLift ArenaM PatchM := ⟨ExceptT.adapt .edit⟩

namespace Rules

/-- What an offset is to be changed to. -/
def offsetChange (id : NodeId) : PatchM (NodeId × UInt32) := do
  let position ← Arena.position id
  let isFirst := (← get).holdsAt
    (.followedBy (.literal (.float offsetBits)) (.category .constant)) position
  return (id, if isFirst then nearBits else farBits)

/-- Float constants get other bits, one after the other. -/
def changeFloats (changes : List (NodeId × UInt32)) : PatchM Unit :=
  changes.forM fun c => Arena.replaceOperand c.1 (.literal (.float c.2))

/-- Draws the cracks of a block closer to it. All changes are found before the first one is made. -/
def moveDamagedBlockInPlace (_ : PatchContext) : PatchM Unit := do
  let changes ← ((← get).allNodes (.literal (.float offsetBits))).mapM offsetChange
  if changes.isEmpty then throw (.targetMissing "ldc -3.0f")
  changeFloats changes

end Rules

end ClassGraft
