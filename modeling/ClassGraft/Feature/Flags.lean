namespace ClassGraft

/-- Values under names in ascending order, no name twice. -/
abbrev Named (α : Type) := List (String × α)

namespace Named

variable {α : Type}

/-- Puts a value under a name, in place of the one that is there. -/
def put (name : String) (a : α) : Named α → Named α
  | [] => [(name, a)]
  | (n, b) :: rest =>
    if name < n then (name, a) :: (n, b) :: rest
    else if name = n then (n, a) :: rest
    else (n, b) :: put name a rest

def get? (s : Named α) (name : String) : Option α := s.lookup name

theorem get?_cons (n name : String) (a : α) (s : Named α) :
    get? ((n, a) :: s) name = if name = n then some a else get? s name := by
  by_cases h : name = n <;> simp [get?, List.lookup_cons, h, beq_eq_false_iff_ne.mpr]

theorem get?_put (s : Named α) (name other : String) (a : α) :
    get? (put name a s) other = if other = name then some a else get? s other := by
  induction s with
  | nil => exact get?_cons name other a []
  | cons e s ih =>
    obtain ⟨n, b⟩ := e
    simp only [put]
    split
    next => simp [get?_cons]
    next =>
      split
      next hn => subst hn; by_cases h : other = name <;> simp [get?_cons, h]
      next hn =>
        by_cases h : other = n
        · subst h; simp [get?_cons, Ne.symm hn]
        · simp [get?_cons, h, ih]

end Named

/-- The switches that patched code reads. -/
abbrev FlagSet := Named Bool

/-- The flags that are switched together. -/
def optimizationFlags : List String :=
  ["cullParticles", "entityCulling", "searchingOptimizationFix", "entitySightCulling", "fullbright",
    "disableConstantFogColorChecking", "lowAnimationTick", "staticParticleColor",
    "optimizedFontRenderer", "cacheFontData", "removeCloudTransparency", "gpuCloudRenderer",
    "glErrorChecking", "optimizedItemRenderer"]

/-- Switches every optimization on or off. -/
def FlagSet.setOptimized (s : FlagSet) (on : Bool) : FlagSet :=
  optimizationFlags.foldl (fun s f => Named.put f on s) s

end ClassGraft
