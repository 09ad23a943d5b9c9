import ClassGraft.Rules.Clouds
import ClassGraft.Rules.DamagedBlock
import ClassGraft.Rules.TabOverlay
import ClassGraft.Rules.Visibility

namespace ClassGraft.Rules

/-- All rules, in the order in which they are applied. -/
def shipped : List PatchRule :=
  [cloudRenderer, cloudTransparency, damagedBlockOffset, visibilityScanLimit, visGraphScanFlag,
    tabOverlayColors, tabOverlayHatLayer, tabOverlayOffset, tabOverlayNumberPing]

end ClassGraft.Rules
