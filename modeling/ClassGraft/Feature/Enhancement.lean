import ClassGraft.Feature.Flags
import ClassGraft.Patch.Error

namespace ClassGraft

/-- Something that caches what can go stale, and how often that was dropped. -/
structure Enhancement where
  name : String
  invalidations : Nat
  deriving DecidableEq

/-- Enhancements in the order in which they were registered. By its name one finds the last that was
registered under it. -/
structure EnhancementRegistry where
  all : List Enhancement
  current : Named Nat

namespace EnhancementRegistry

def empty : EnhancementRegistry := ⟨[], []⟩

def register (r : EnhancementRegistry) (name : String) : EnhancementRegistry :=
  ⟨r.all ++ [⟨name, 0⟩], r.current.put name r.all.length⟩

def names (r : EnhancementRegistry) : List String := r.current.map Prod.fst

/-- Drops what the enhancement at a position caches. -/
def invalidateAt (r : EnhancementRegistry) (i : Nat) : EnhancementRegistry :=
  { r with all := r.all.modify i fun e => { e with invalidations := e.invalidations + 1 } }

def invalidateAll (r : EnhancementRegistry) : EnhancementRegistry :=
  r.current.foldl (fun r e => r.invalidateAt e.2) r

end EnhancementRegistry

/-- Work on a registry that may fail. What was done before a failure stays done. -/
abbrev RegistryM := ExceptT PatchError (StateM EnhancementRegistry)

namespace EnhancementRegistry

def invalidate (name : String) : RegistryM Unit := do
  match (← get).current.get? name with
  | some i => modify fun r => r.invalidateAt i
  | none => throw (.unknownEnhancement name)

/-- The enhancements that render text and items. -/
def renderers : List String := ["EnhancedFontRenderer", "EnhancedItemRenderer"]

/-- Drops what the renderers cache, up to the first that is not there. -/
def resetCaches : RegistryM Unit := renderers.forM invalidate

end EnhancementRegistry

end ClassGraft
