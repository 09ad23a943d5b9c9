import ClassGraft.Patch.Predicate
import ClassGraft.Patch.Rule
import ClassGraft.Rules.Names

namespace ClassGraft.Rules

def tabHook : String := "GuiPlayerTabOverlayHook"

/-- Passes the colour of every rectangle through the hook. The method that draws one is inherited, so
that calls may name any class. -/
def recolorBackgrounds (c : PatchContext) (b : Body) : Patching Body := do
  let drawRect ← Predicate.invokesNamed c.symbols .static gui "drawRect"
  let newColor ← c.hook tabHook "getNewColor" "(I)I"
  let calls := b.allNodes drawRect
  if calls.isEmpty then throw (.targetMissing "call to drawRect")
  calls.foldlM (fun b call => return (← b.insertBefore call [.insn (.invoke .static newColor)]).2) b

/-- The instruction two before a node. -/
def secondBefore (b : Body) (id : NodeId) : Except ClassError (Option NodeId) := do
  match ← b.previousInstruction id with
  | some previous => b.previousInstruction previous
  | none => return none

/-- The instruction two behind a node. -/
def secondAfter (b : Body) (id : NodeId) : Except ClassError (Option NodeId) := do
  match ← b.nextInstruction id with
  | some next => b.nextInstruction next
  | none => return none

def Node.isNullCheck : Node → Bool
  | .branch (.ifNull .eq _) => true
  | _ => false

/-- The only target of a branch that may fall through. -/
def Node.skipTarget? (n : Node) : Option Label :=
  match n.branch? with
  | some b =>
    match b.targets with
    | [l] => if b.fallsThrough then some l else none
    | _ => none
  | none => none

/-- The label right behind a node. -/
def labelAfter? (b : Body) (id : NodeId) : Except ClassError (Option Label) := do
  match ← b.next id with
  | some following => return (← b.node following).label?
  | none => return none

/-- A label right behind a node, which is placed if there is none. -/
def labelAfter (b : Body) (id : NodeId) : Except ClassError (Label × Body) := do
  match ← labelAfter? b id with
  | some l => return (l, b)
  | none =>
    let (l, b) := b.newLabel
    return (l, (← b.insertAfter id [.label l]).2)

/-- Draws the hat layer of players that are not loaded when a flag is set. The check for a missing
player is two instructions before the access to the hat, and the check whether it is worn two behind. -/
def toggleHatLayer (c : PatchContext) (b : Body) : Patching Body := do
  let hat ← Predicate.accesses c.symbols .getStatic playerModelParts "HAT"
  let some anchor := b.firstNode? hat | throw (.targetMissing "getstatic HAT")
  let some nullCheck ← secondBefore b anchor | throw (.targetMissing "ifnull before HAT")
  if !Node.isNullCheck (← b.node nullCheck) then throw (.targetMissing "ifnull before HAT")
  let some wearing ← secondAfter b anchor | throw (.targetMissing "branch after HAT")
  let some skipLayer := Node.skipTarget? (← b.node wearing)
    | throw (.targetMissing "branch after HAT")
  let (drawLayer, b) ← labelAfter b wearing
  let (hasPlayer, b) := b.newLabel
  let flag ← c.configFlag "layersInTab"
  let (_, b) ← b.replace nullCheck [
    .branch (.ifNull .ne hasPlayer),
    .insn (.field .getStatic flag),
    .branch (.ifZero .eq skipLayer),
    .branch (.goto drawLayer),
    .label hasPlayer]
  return b

/-- Moves the whole list. The matrix that is pushed first is popped before the last return. -/
def moveTabDown (c : PatchContext) (b : Body) : Patching Body := do
  let push ← c.hook tabHook "moveTabDownPushMatrix" "()V"
  let pop ← c.hook tabHook "moveTabDownPopMatrix" "()V"
  match b.lastNode? (.same (.branch (.leave none))) with
  | none => throw (.targetMissing "return")
  | some last =>
    let (_, b) ← b.insertBefore last [.insn (.invoke .static pop)]
    let (_, b) ← b.insertAtStart [.insn (.invoke .static push)]
    return b

/-- Draws a number in place of the bars when a flag is set. -/
def drawNumberPing (c : PatchContext) (b : Body) : Patching Body := do
  let draw ← c.hook tabHook "drawPatcherPing" s!"(IIIL{networkPlayerInfo};)V"
  let (bars, b) := b.newLabel
  let flag ← c.configFlag "numberPing"
  let (_, b) ← b.insertAtStart [
    .insn (.field .getStatic flag),
    .branch (.ifZero .eq bars),
    .insn (.load .int 1),
    .insn (.load .int 2),
    .insn (.load .int 3),
    .insn (.load .ref 4),
    .insn (.invoke .static draw),
    .branch (.leave none),
    .label bars]
  return b

def tabOverlayColors : PatchRule where
  name := "tab-overlay-colors"
  target := tabOverlay
  procedures := [⟨"renderPlayerlist", true, recolorBackgrounds⟩]
  classPatch := none
  symbols := [.ofClass gui, .ofMember .method gui "drawRect"]

def tabOverlayHatLayer : PatchRule where
  name := "tab-overlay-hat-layer"
  target := tabOverlay
  procedures := [⟨"renderPlayerlist", true, toggleHatLayer⟩]
  classPatch := none
  symbols := [.ofClass playerModelParts, .ofMember .field playerModelParts "HAT"]

def tabOverlayOffset : PatchRule where
  name := "tab-overlay-offset"
  target := tabOverlay
  procedures := [⟨"renderPlayerlist", true, moveTabDown⟩]
  classPatch := none
  symbols := []

def tabOverlayNumberPing : PatchRule where
  name := "tab-overlay-number-ping"
  target := tabOverlay
  procedures := [⟨"drawPing", true, drawNumberPing⟩]
  classPatch := none
  symbols := [.ofClass networkPlayerInfo]

end ClassGraft.Rules
