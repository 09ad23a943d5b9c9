import ClassGraft.Symbol.Basic

namespace ClassGraft.Rules

def renderGlobal : String := "net/minecraft/client/renderer/RenderGlobal"
def glStateManager : String := "net/minecraft/client/renderer/GlStateManager"
def visGraph : String := "net/minecraft/client/renderer/chunk/VisGraph"
def tabOverlay : String := "net/minecraft/client/gui/GuiPlayerTabOverlay"
def gui : String := "net/minecraft/client/gui/Gui"
def playerModelParts : String := "net/minecraft/entity/player/EnumPlayerModelParts"
def networkPlayerInfo : String := "net/minecraft/client/network/NetworkPlayerInfo"

/-- Minified builds keep the names of these classes; only members are renamed. -/
def mappedClasses : List String :=
  [renderGlobal, glStateManager, visGraph, tabOverlay, gui, playerModelParts, networkPlayerInfo]

def builtinMappings : List Mapping :=
  mappedClasses.map (fun c => .ofClass c c) ++ [
    .ofMember .method renderGlobal "renderClouds" "func_180447_b",
    .ofMember .method renderGlobal "renderCloudsFancy" "func_180445_c",
    .ofMember .method renderGlobal "preRenderDamagedBlocks" "func_180443_s",
    .ofMember .method renderGlobal "getVisibleFacings" "func_174978_c",
    .ofMember .field renderGlobal "cloudTickCounter" "field_72773_u",
    .ofMember .method glStateManager "enableBlend" "func_179147_l",
    .ofMember .method glStateManager "disableBlend" "func_179084_k",
    .ofMember .method glStateManager "tryBlendFuncSeparate" "func_179120_a",
    .ofMember .method tabOverlay "renderPlayerlist" "func_175249_a",
    .ofMember .method tabOverlay "drawPing" "func_175245_a",
    .ofMember .method gui "drawRect" "func_73734_a",
    .ofMember .field playerModelParts "HAT" "HAT"]

end ClassGraft.Rules
