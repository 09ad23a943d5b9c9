import ClassGraft.Patch.Predicate
import ClassGraft.Patch.Rule
import ClassGraft.Rules.Names

namespace ClassGraft.Rules

/-- The bits of the polygon offset -3.0, and those of what it is changed to, -1.0 and -10.0. -/
def offsetBits : UInt32 := 0xC0400000
def nearBits : UInt32 := 0xBF800000
def farBits : UInt32 := 0xC1200000

/-- What the offset at a position becomes. Offsets come in pairs, of which the first has another
constant behind it. -/
def newOffset (b : Body) (position : Nat) : UInt32 :=
  if (Predicate.followedBy (.literal (.float offsetBits)) (.category .constant)).holdsAt b position
  then nearBits else farBits

/-- Draws the cracks of a block closer to it. -/
def moveDamagedBlock (_ : PatchContext) (b : Body) : Patching Body := do
  let nodes := b.allNodes (.literal (.float offsetBits))
  if nodes.isEmpty then throw (.targetMissing "ldc -3.0f")
  let changes ← nodes.mapM fun id => return (id, newOffset b (← b.position id))
  changes.foldlM (fun b (id, bits) => b.replaceOperand id (.literal (.float bits))) b

def damagedBlockOffset : PatchRule where
  name := "damaged-block-offset"
  target := renderGlobal
  procedures := [⟨"preRenderDamagedBlocks", true, moveDamagedBlock⟩]
  classPatch := none
  symbols := []

end ClassGraft.Rules
