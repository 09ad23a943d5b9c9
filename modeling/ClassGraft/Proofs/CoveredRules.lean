import ClassGraft.Proofs.KnownNames
import ClassGraft.Rules.Shipped

namespace ClassGraft

/-- Faults of a kind that neither edits nor missing targets are of. -/
structure PatchFault.OfNames (bad : PatchFault → Bool) : Prop where
  edit : ∀ cause, bad (.edit cause) = false
  missing : ∀ what, bad (.targetMissing what) = false

theorem PatchFault.isNaming_ofNames : OfNames PatchFault.isNaming := ⟨fun _ => rfl, fun _ => rfl⟩

namespace Patching

variable {α : Type} {bad : PatchFault → Bool}

theorem edit_avoids (hbad : PatchFault.OfNames bad) (x : Except ClassError α) :
    Avoids bad (liftM x : Patching α) :=
  .mapError fun cause _ => hbad.edit cause

theorem missing_avoids (hbad : PatchFault.OfNames bad) (what : String) :
    Avoids bad (throw (.targetMissing what) : Patching α) := .error (hbad.missing what)

theorem guard_avoids (hbad : PatchFault.OfNames bad) {p : Prop} [Decidable p] {what : String}
    {f : PUnit → Patching α} (h : Avoids bad (f ())) :
    Avoids bad (if p then throw (.targetMissing what) >>= f else f ()) :=
  .ite (.bind (.error (hbad.missing what)) fun _ _ => h) h

theorem symbol_avoids {x : Except PatchError α} (h : ∃ a, x = .ok a) :
    Avoids bad (liftM x : Patching α) := by
  obtain ⟨a, rfl⟩ := h
  exact .ok a

end Patching

/-- Where the symbols of a rule are known, its patches never fail over a name. -/
structure PatchRule.Covers (r : PatchRule) : Prop where
  classPatch : ∀ patch, r.classPatch = some patch → ∀ context c, r.Resolves context.symbols →
    Avoids PatchFault.isNaming (patch context c)
  procedures : ∀ p ∈ r.procedures, ∀ context b, r.Resolves context.symbols →
    Avoids PatchFault.isNaming (p.apply context b)

namespace Rules

open Patching PatchContext Predicate

section

variable {bad : PatchFault → Bool} (hbad : PatchFault.OfNames bad) {c : PatchContext} (b : Body)
include hbad

theorem delegateClouds_avoids
    (hsingleton : Avoids bad
      (c.unmappedFieldRef c.settings.mainClass "instance" s!"L{c.settings.mainClass.text};"))
    (hhandler : Avoids bad (c.unmappedMethodRef c.settings.mainClass "getCloudHandler"
      s!"()L{c.settings.cloudHandlerClass.text};"))
    (hticks : Avoids bad (c.fieldRef renderGlobal "cloudTickCounter" "I"))
    (hdraw : Avoids bad (c.unmappedMethodRef c.settings.cloudHandlerClass "renderClouds" "(IF)Z")) :
    Avoids bad (delegateClouds c b) := by
  unfold delegateClouds
  refine .bind hsingleton fun _ _ => .bind hhandler fun _ _ => .bind hticks fun _ _ => ?_
  exact .bind hdraw fun _ _ => .bind (edit_avoids hbad _) fun _ _ => .ok _

theorem removeTransparency_avoids
    (hcalls : ∀ name ∈ ["enableBlend", "disableBlend", "tryBlendFuncSeparate"],
      Avoids bad (liftM (invokes c.symbols .static glStateManager name) : Patching Predicate))
    (hflag : Avoids bad (c.configFlag "removeCloudTransparency")) :
    Avoids bad (removeTransparency c b) := by
  simp only [List.forall_mem_cons] at hcalls
  obtain ⟨henable, hdisable, hblend, -⟩ := hcalls
  unfold removeTransparency
  refine .bind henable fun _ _ => .bind hdisable fun _ _ => .bind hblend fun _ _ => ?_
  refine .bind hflag fun _ _ => guard_avoids hbad ?_
  refine .bind (.foldlM (fun _ _ _ => edit_avoids hbad _) _) fun _ _ => ?_
  exact .foldlM (fun _ _ _ => edit_avoids hbad _) _

theorem moveDamagedBlock_avoids : Avoids bad (moveDamagedBlock c b) := by
  unfold moveDamagedBlock
  refine guard_avoids hbad ?_
  refine .bind (.mapM (fun id => .bind (edit_avoids hbad _) fun _ _ => .ok _) _) fun changes _ => ?_
  exact .foldlM (fun _ _ _ => edit_avoids hbad _) _

theorem limitVisibilityScan_avoids (hclass : Avoids bad (c.resolveClass visGraph))
    (hflag : ∀ graph, Avoids bad (c.unmappedFieldRef graph limitScan "Z")) :
    Avoids bad (limitVisibilityScan c b) := by
  unfold limitVisibilityScan
  split
  next => exact missing_avoids hbad _
  next =>
    refine .bind hclass fun graph _ => .bind (hflag graph) fun _ _ => ?_
    exact .bind (edit_avoids hbad _) fun _ _ => .ok _

theorem addScanFlag_avoids (m : ClassModel)
    (hname : Avoids bad (liftM (MemberName.ofGiven limitScan) : Patching MemberName)) :
    Avoids bad (addScanFlag c m) := by
  unfold addScanFlag
  exact .ite (.ok m) (.bind hname fun _ _ => edit_avoids hbad _)

theorem recolorBackgrounds_avoids
    (hcall : Avoids bad (liftM (invokesNamed c.symbols .static gui "drawRect") : Patching Predicate))
    (hhook : Avoids bad (c.hook tabHook "getNewColor" "(I)I")) :
    Avoids bad (recolorBackgrounds c b) := by
  unfold recolorBackgrounds
  refine .bind hcall fun _ _ => .bind hhook fun _ _ => guard_avoids hbad ?_
  exact .foldlM (fun _ _ _ => .bind (edit_avoids hbad _) fun _ _ => .ok _) _

theorem toggleHatLayer_avoids
    (haccess : Avoids bad
      (liftM (accesses c.symbols .getStatic playerModelParts "HAT") : Patching Predicate))
    (hflag : Avoids bad (c.configFlag "layersInTab")) : Avoids bad (toggleHatLayer c b) := by
  unfold toggleHatLayer
  refine .bind haccess fun _ _ => ?_
  split
  next anchor _ =>
    refine .bind (edit_avoids hbad _) fun check _ => ?_
    split
    next =>
      refine .bind (edit_avoids hbad _) fun _ _ => ?_
      refine guard_avoids hbad ?_
      refine .bind (edit_avoids hbad _) fun wearing _ => ?_
      split
      next =>
        refine .bind (edit_avoids hbad _) fun _ _ => ?_
        split
        next =>
          refine .bind (edit_avoids hbad _) fun _ _ => .bind hflag fun _ _ => ?_
          exact .bind (edit_avoids hbad _) fun _ _ => .ok _
        next => exact missing_avoids hbad _
      next => exact missing_avoids hbad _
    next => exact missing_avoids hbad _
  next => exact missing_avoids hbad _

theorem moveTabDown_avoids (hpush : Avoids bad (c.hook tabHook "moveTabDownPushMatrix" "()V"))
    (hpop : Avoids bad (c.hook tabHook "moveTabDownPopMatrix" "()V")) :
    Avoids bad (moveTabDown c b) := by
  unfold moveTabDown
  refine .bind hpush fun _ _ => .bind hpop fun _ _ => ?_
  split
  next => exact missing_avoids hbad _
  next => exact .bind (edit_avoids hbad _) fun _ _ => .bind (edit_avoids hbad _) fun _ _ => .ok _

theorem drawNumberPing_avoids
    (hhook : Avoids bad (c.hook tabHook "drawPatcherPing" s!"(IIIL{networkPlayerInfo};)V"))
    (hflag : Avoids bad (c.configFlag "numberPing")) : Avoids bad (drawNumberPing c b) := by
  unfold drawNumberPing
  exact .bind hhook fun _ _ => .bind hflag fun _ _ => .bind (edit_avoids hbad _) fun _ _ => .ok _

end

section

variable (c : PatchContext)

theorem mainClass_text :
    (FieldType.object c.settings.mainClass).text = s!"L{c.settings.mainClass.text};" := by
  apply String.toList_inj.mp
  simp [FieldType.text, FieldType.object, FieldType.render, RefType.render, BinaryName.render]
  rfl

theorem handler_text : (MethodType.mk [] (some (.object c.settings.cloudHandlerClass))).text =
    s!"()L{c.settings.cloudHandlerClass.text};" := by
  apply String.toList_inj.mp
  simp [MethodType.text, MethodType.render, FieldType.object, FieldType.render, RefType.render,
    BinaryName.render]
  rfl

theorem ping_text : (MethodType.mk [.base .int, .base .int, .base .int,
    .object ⟨networkPlayerInfo, by decide⟩] none).text = s!"(IIIL{networkPlayerInfo};)V" := by
  decide +kernel

end

theorem class_known {r : PatchRule} {t : SymbolTable} {name : String} (h : r.Resolves t)
    (hmem : Symbol.ofClass name ∈ r.requiredSymbols) : ∃ d, t.resolveClass name = .ok d :=
  SymbolTable.resolveClass_of_symbol (h _ hmem)

theorem member_known {r : PatchRule} {t : SymbolTable} {k : MemberKind} {owner name : String}
    (h : r.Resolves t) (hmem : Symbol.ofMember k owner name ∈ r.requiredSymbols) :
    ∃ n, t.resolveMember k owner name = .ok n :=
  SymbolTable.resolveMember_of_symbol (h _ hmem)

/-- Every shipped rule lists all symbols that its patches resolve, on whatever path they take. -/
theorem shipped_cover : ∀ r ∈ shipped, r.Covers := by
  have hbad := PatchFault.isNaming_ofNames
  simp only [shipped, List.forall_mem_cons]
  refine ⟨⟨nofun, ?_⟩, ⟨nofun, ?_⟩, ⟨nofun, ?_⟩, ⟨nofun, ?_⟩, ⟨?_, nofun⟩, ⟨nofun, ?_⟩, ⟨nofun, ?_⟩,
    ⟨nofun, ?_⟩, ⟨nofun, ?_⟩, nofun⟩
  · rintro p hp context b h
    cases List.mem_singleton.mp hp
    have hclass : ∃ d, context.symbols.resolveClass renderGlobal = .ok d := class_known h (by decide)
    have hname : ∃ n, context.symbols.resolveMember .field renderGlobal "cloudTickCounter" = .ok n :=
      member_known h (by decide)
    obtain ⟨ticks, hticks⟩ := fieldRef_ok (.base .int) rfl hclass hname
    exact delegateClouds_avoids hbad b
      (.known (unmappedFieldRef_ok _ _ (by decide) (mainClass_text context)))
      (.known (unmappedMethodRef_ok _ _ (by decide) (handler_text context))) (.known hticks)
      (.known (unmappedMethodRef_ok _ ⟨[.base .int, .base .float], some (.base .boolean)⟩ (by decide) rfl))
  · rintro p hp context b h
    have hp : p.apply = removeTransparency := by
      rcases List.mem_pair.mp hp with rfl | rfl <;> rfl
    rw [hp]
    refine removeTransparency_avoids hbad b (fun name hname => ?_) (.known (configFlag_ok (by decide)))
    refine symbol_avoids (invokes_ok _ (class_known h (by decide)) ?_)
    simp only [List.mem_cons, List.not_mem_nil, or_false] at hname
    rcases hname with rfl | rfl | rfl <;> exact member_known h (by decide)
  · rintro p hp context b -
    cases List.mem_singleton.mp hp
    exact moveDamagedBlock_avoids hbad (c := context) b
  · rintro p hp context b h
    cases List.mem_singleton.mp hp
    exact limitVisibilityScan_avoids hbad b (symbol_avoids (class_known h (by decide)))
      fun graph => .known (unmappedFieldRef_ok graph (.base .boolean) (by decide) rfl)
  · rintro patch hpatch context c -
    cases hpatch
    exact addScanFlag_avoids hbad c (symbol_avoids ⟨_, MemberName.ofGiven_ok (by decide)⟩)
  · rintro p hp context b h
    cases List.mem_singleton.mp hp
    exact recolorBackgrounds_avoids hbad b (symbol_avoids (invokesNamed_ok _ (member_known h (by decide))))
      (.known (hook_ok ⟨[.base .int], some (.base .int)⟩ (by decide) (by decide) rfl))
  · rintro p hp context b h
    cases List.mem_singleton.mp hp
    exact toggleHatLayer_avoids hbad b
      (symbol_avoids (accesses_ok _ (class_known h (by decide)) (member_known h (by decide))))
      (.known (configFlag_ok (by decide)))
  · rintro p hp context b -
    cases List.mem_singleton.mp hp
    exact moveTabDown_avoids hbad b (.known (hook_ok ⟨[], none⟩ (by decide) (by decide) rfl))
      (.known (hook_ok ⟨[], none⟩ (by decide) (by decide) rfl))
  · rintro p hp context b -
    cases List.mem_singleton.mp hp
    exact drawNumberPing_avoids hbad b (.known (hook_ok _ (by decide) (by decide) ping_text))
      (.known (configFlag_ok (by decide)))

end Rules

end ClassGraft
