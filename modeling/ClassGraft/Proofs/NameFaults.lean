import ClassGraft.Proofs.CoveredRules
import ClassGraft.Proofs.PatchStages

namespace ClassGraft

/-- The fault is told as that of a name, but is another one. -/
def PatchFault.isForeign : PatchFault → Bool
  | .symbol err => !err.isNaming
  | _ => false

theorem PatchFault.isForeign_ofNames : OfNames PatchFault.isForeign := ⟨fun _ => rfl, fun _ => rfl⟩

/-- What fails over a name, as it is told, does so. -/
abbrev Patching.Honest {α : Type} (x : Patching α) : Prop := Avoids PatchFault.isForeign x

namespace Patching

variable {α : Type}

theorem honest_name {x : Except PatchError α} (h : Avoids (fun err => !err.isNaming) x) :
    Honest (liftM x : Patching α) :=
  FailsOnly.mapError fun err he => h err he

end Patching

open Patching

theorem MemberName.ofGiven_names (s : String) : Avoids (fun err => !err.isNaming) (ofGiven s) :=
  .mapError fun _ _ => rfl

namespace SymbolTable

theorem resolveClass_names (t : SymbolTable) (name : String) :
    Avoids (fun err => !err.isNaming) (t.resolveClass name) := by
  unfold resolveClass
  split
  next n _ => exact .ok n
  next => exact .error rfl

theorem resolveMember_names (t : SymbolTable) (k : MemberKind) (owner name : String) :
    Avoids (fun err => !err.isNaming) (t.resolveMember k owner name) := by
  unfold resolveMember
  split
  next n _ => exact .ok n
  next => exact .error rfl

theorem remapDescriptor_names (t : SymbolTable) (s : String) :
    Avoids (fun err => !err.isNaming) (t.remapDescriptor s) := by
  unfold remapDescriptor
  dsimp only
  split
  next => exact .bind (.mapError fun _ _ => rfl) fun _ _ => .ok _
  next => exact .bind (.mapError fun _ _ => rfl) fun _ _ => .ok _

end SymbolTable

namespace PatchContext

variable (c : PatchContext)

theorem resolveClass_honest (name : String) : Honest (c.resolveClass name) :=
  honest_name (c.symbols.resolveClass_names name)

theorem methodType_honest (descriptor : String) : Honest (c.methodType descriptor) :=
  .bind (honest_name (c.symbols.remapDescriptor_names descriptor)) fun _ _ =>
    edit_avoids PatchFault.isForeign_ofNames _

theorem fieldType_honest (descriptor : String) : Honest (c.fieldType descriptor) :=
  .bind (honest_name (c.symbols.remapDescriptor_names descriptor)) fun _ _ =>
    edit_avoids PatchFault.isForeign_ofNames _

theorem fieldRef_honest (owner name descriptor : String) : Honest (c.fieldRef owner name descriptor) :=
  .bind (honest_name (c.symbols.resolveMember_names _ owner name)) fun _ _ =>
    .bind (c.resolveClass_honest owner) fun _ _ => .bind (c.fieldType_honest descriptor) fun _ _ => .ok _

theorem unmappedMethodRef_honest (owner : BinaryName) (name descriptor : String) :
    Honest (c.unmappedMethodRef owner name descriptor) :=
  .bind (honest_name (MemberName.ofGiven_names name)) fun _ _ =>
    .bind (c.methodType_honest descriptor) fun _ _ => .ok _

theorem unmappedFieldRef_honest (owner : BinaryName) (name descriptor : String) :
    Honest (c.unmappedFieldRef owner name descriptor) :=
  .bind (honest_name (MemberName.ofGiven_names name)) fun _ _ =>
    .bind (c.fieldType_honest descriptor) fun _ _ => .ok _

theorem configFlag_honest (flag : String) : Honest (c.configFlag flag) :=
  c.unmappedFieldRef_honest c.settings.configClass flag "Z"

theorem hook_honest (hookClass name descriptor : String) : Honest (c.hook hookClass name descriptor) :=
  .bind (honest_name (.bind (MemberName.ofGiven_names hookClass) fun _ _ => .ok _)) fun owner _ =>
    c.unmappedMethodRef_honest owner name descriptor

end PatchContext

namespace Predicate

variable (t : SymbolTable) (owner name : String)

theorem invokes_honest (k : InvokeKind) : Honest (liftM (invokes t k owner name) : Patching Predicate) :=
  honest_name (.bind (t.resolveClass_names owner) fun _ _ =>
    .bind (t.resolveMember_names _ owner name) fun _ _ => .ok _)

theorem invokesNamed_honest (k : InvokeKind) :
    Honest (liftM (invokesNamed t k owner name) : Patching Predicate) :=
  honest_name (.bind (t.resolveMember_names _ owner name) fun _ _ => .ok _)

theorem accesses_honest (a : FieldAccess) :
    Honest (liftM (accesses t a owner name) : Patching Predicate) :=
  honest_name (.bind (t.resolveClass_names owner) fun _ _ =>
    .bind (t.resolveMember_names _ owner name) fun _ _ => .ok _)

end Predicate

namespace Rules

open PatchContext Predicate

/-- The patches of the shipped rules are honest whatever they are applied to. -/
theorem shipped_honest : ∀ r ∈ shipped,
    (∀ patch, r.classPatch = some patch → ∀ context c, Honest (patch context c)) ∧
      ∀ p ∈ r.procedures, ∀ context b, Honest (p.apply context b) := by
  have hbad := PatchFault.isForeign_ofNames
  have hnone : ∀ patch, (none : Option ClassPatch) = some patch → ∀ context c, Honest (patch context c) := by
    intro patch hpatch
    cases hpatch
  have hblend (c : PatchContext) (b : Body) : Honest (removeTransparency c b) :=
    removeTransparency_avoids hbad b (fun name _ => invokes_honest _ _ name _) (c.configFlag_honest _)
  simp only [shipped, List.forall_mem_cons]
  refine ⟨⟨hnone, ?_⟩, ⟨hnone, ?_⟩, ⟨hnone, ?_⟩, ⟨hnone, ?_⟩, ⟨?_, List.forall_mem_nil _⟩, ⟨hnone, ?_⟩,
    ⟨hnone, ?_⟩, ⟨hnone, ?_⟩, ⟨hnone, ?_⟩, List.forall_mem_nil _⟩
  · exact List.forall_mem_singleton.mpr fun c b => delegateClouds_avoids hbad b
      (c.unmappedFieldRef_honest _ _ _) (c.unmappedMethodRef_honest _ _ _) (c.fieldRef_honest _ _ _)
      (c.unmappedMethodRef_honest _ _ _)
  · exact List.forall_mem_cons.mpr ⟨hblend, List.forall_mem_singleton.mpr hblend⟩
  · exact List.forall_mem_singleton.mpr fun c b => moveDamagedBlock_avoids (c := c) hbad b
  · exact List.forall_mem_singleton.mpr fun c b => limitVisibilityScan_avoids hbad b
      (c.resolveClass_honest _) fun _ => c.unmappedFieldRef_honest _ _ _
  · intro patch hpatch
    cases hpatch
    exact fun c m => addScanFlag_avoids hbad m (honest_name (MemberName.ofGiven_names _))
  · exact List.forall_mem_singleton.mpr fun c b => recolorBackgrounds_avoids hbad b
      (invokesNamed_honest _ _ _ _) (c.hook_honest _ _ _)
  · exact List.forall_mem_singleton.mpr fun c b => toggleHatLayer_avoids hbad b
      (accesses_honest _ _ _ _) (c.configFlag_honest _)
  · exact List.forall_mem_singleton.mpr fun c b => moveTabDown_avoids hbad b (c.hook_honest _ _ _)
      (c.hook_honest _ _ _)
  · exact List.forall_mem_singleton.mpr fun c b => drawNumberPing_avoids hbad b (c.hook_honest _ _ _)
      (c.configFlag_honest _)

end Rules

end ClassGraft
