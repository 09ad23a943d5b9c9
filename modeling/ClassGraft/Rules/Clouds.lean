import ClassGraft.Patch.Predicate
import ClassGraft.Patch.Rule
import ClassGraft.Rules.Names

namespace ClassGraft.Rules

/-- Lets the cloud handler draw the clouds, and returns early if it has. -/
def delegateClouds (c : PatchContext) (b : Body) : Patching Body := do
  let main := c.settings.mainClass
  let handler := c.settings.cloudHandlerClass
  let singleton ← c.unmappedFieldRef main "instance" s!"L{main.text};"
  let getHandler ← c.unmappedMethodRef main "getCloudHandler" s!"()L{handler.text};"
  let ticks ← c.fieldRef renderGlobal "cloudTickCounter" "I"
  let draw ← c.unmappedMethodRef handler "renderClouds" "(IF)Z"
  let (vanilla, b) := b.newLabel
  let (_, b) ← b.insertAtStart [
    .insn (.field .getStatic singleton),
    .insn (.invoke .virtual getHandler),
    .insn (.load .ref 0),
    .insn (.field .getField ticks),
    .insn (.load .float 1),
    .insn (.invoke .virtual draw),
    .branch (.ifZero .eq vanilla),
    .branch (.leave none),
    .label vanilla]
  return b

/-- Jumps from before one node to behind another when a flag is set. -/
def skipWhenSet (flag : FieldRef) (first last : NodeId) (b : Body) : Except ClassError Body := do
  let (skip, b) := b.newLabel
  let (_, b) ← b.insertBefore first [
    .insn (.field .getStatic flag),
    .branch (.ifZero .ne skip)]
  let (_, b) ← b.insertAfter last [.label skip]
  return b

/-- The last node to skip along with a call that enables blending: the call that sets the blend
function, if it comes before the next call that enables blending. -/
def blendEnd (enable blend : Predicate) (b : Body) (call : NodeId) : Except ClassError NodeId := do
  let nextEnable ← b.nextNode? call enable
  match ← b.nextNode? call blend, nextEnable with
  | none, _ => return call
  | some f, none => return f
  | some f, some n => do
    let before ← b.position n
    let place ← b.position f
    return if before < place then call else f

def skipEnable (flag : FieldRef) (enable blend : Predicate) (b : Body) (call : NodeId) :
    Except ClassError Body := do
  let last ← blendEnd enable blend b call
  skipWhenSet flag call last b

/-- Skips all changes of blending when a flag is set. -/
def removeTransparency (c : PatchContext) (b : Body) : Patching Body := do
  let enable ← Predicate.invokes c.symbols .static glStateManager "enableBlend"
  let disable ← Predicate.invokes c.symbols .static glStateManager "disableBlend"
  let blend ← Predicate.invokes c.symbols .static glStateManager "tryBlendFuncSeparate"
  let flag ← c.configFlag "removeCloudTransparency"
  let calls := b.allNodes enable
  if calls.isEmpty then throw (.targetMissing "call to enableBlend")
  let b ← calls.foldlM (fun b call => skipEnable flag enable blend b call) b
  (b.allNodes disable).foldlM (fun b call => skipWhenSet flag call call b) b

def cloudRenderer : PatchRule where
  name := "cloud-renderer"
  target := renderGlobal
  procedures := [⟨"renderClouds", true, delegateClouds⟩]
  classPatch := none
  symbols := [.ofMember .field renderGlobal "cloudTickCounter"]

def cloudTransparency : PatchRule where
  name := "cloud-transparency"
  target := renderGlobal
  procedures := [⟨"renderClouds", true, removeTransparency⟩,
    ⟨"renderCloudsFancy", true, removeTransparency⟩]
  classPatch := none
  symbols := [.ofClass glStateManager,
    .ofMember .method glStateManager "enableBlend",
    .ofMember .method glStateManager "disableBlend",
    .ofMember .method glStateManager "tryBlendFuncSeparate"]

end ClassGraft.Rules
