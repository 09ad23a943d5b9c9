import ClassGraft.Form.Error
import ClassGraft.Patch.Engine

namespace ClassGraft

instance : OfForm Symbol where
  ofForm f := do
    if f.word? = some "Class" then return .ofClass (← f.get 1)
    else return .ofMember (← f.get 0) (← f.get 1) (← f.get 2)

instance : OfForm Mapping where
  ofForm f := do
    if f.word? = some "Class" then return .ofClass (← f.get 1) (← f.get 2)
    else return .ofMember (← f.get 0) (← f.get 1) (← f.get 2) (← f.get 3)

/-- What a form does not set keeps its standard value. -/
instance : OfForm Settings where
  ofForm f := do
    let given {α : Type} [OfForm α] (name : String) (standard : α) : FormM α := do
      let a : Option α ← ofForm (f.field name)
      return a.getD standard
    let s := Settings.standard
    return {
      configClass := ← given "config_class" s.configClass
      hooksPackage := ← given "hooks_package" s.hooksPackage
      mainClass := ← given "main_class" s.mainClass
      cloudHandlerClass := ← given "cloud_handler_class" s.cloudHandlerClass
      markerAttribute := ← given "marker_attribute" s.markerAttribute }

instance : ToForm Procedure := ⟨fun p => .list [toForm p.method, toForm p.isRequired]⟩

instance : ToForm PatchRule where
  toForm r := .fields [("name", toForm r.name), ("class", toForm r.target),
    ("procedures", toForm r.procedures), ("class_patch", toForm r.classPatch.isSome),
    ("required_symbols", toForm (r.requiredSymbols.map fun s => (s.kind.text, s.text)))]

instance : Worded TransformState := ⟨[("Emitted", .emitted), ("Rejected", .rejected)]⟩

instance : Worded FailurePolicy := ⟨[("FailOpen", .failOpen), ("FailClosed", .failClosed)]⟩

/-- The bytes of a class, unless they are those that were given. -/
def Form.changed (given bytes : Bytes) : Form := if bytes == given then .text "same" else .bytes bytes

def Transformation.form (t : Transformation) (given : Bytes) : Form :=
  .fields [("class", toForm t.className), ("state", toForm t.state),
    ("patched", toForm t.isPatched), ("applied", toForm t.applied), ("skipped", toForm t.skipped),
    ("rejection", toForm t.rejection), ("bytes", .changed given t.bytes)]

end ClassGraft
