import ClassGraft.ClassModel
import ClassGraft.Symbol.Table

namespace ClassGraft

/-- The names that patched code refers to, and the attribute that marks patched classes. -/
structure Settings where
  /-- Holds the configuration flags as static fields. -/
  configClass : BinaryName
  hooksPackage : BinaryName
  /-- Holds the singleton from which the cloud handler is obtained. -/
  mainClass : BinaryName
  cloudHandlerClass : BinaryName
  markerAttribute : MemberName

namespace Settings

def standard : Settings where
  configClass := ⟨"club/sk1er/patcher/config/PatcherConfig", by decide⟩
  hooksPackage := ⟨"club/sk1er/patcher/hooks", by decide⟩
  mainClass := ⟨"club/sk1er/patcher/Patcher", by decide⟩
  cloudHandlerClass := ⟨"club/sk1er/patcher/util/world/cloud/CloudHandler", by decide⟩
  markerAttribute := ⟨"ClassPatchRules", by decide⟩

/-- A class of the hooks package. -/
def hookClass (s : Settings) (name : String) : Except PatchError BinaryName :=
  return s.hooksPackage.join (.ofMember (← MemberName.ofGiven name))

end Settings

/-- Why a patch cannot be applied. -/
inductive PatchFault where
  | targetMissing (what : String)
  | edit (e : ClassError)
  | symbol (e : PatchError)

abbrev Patching := Except PatchFault

instance : MonadLift (Except ClassError) Patching := ⟨Except.mapError .edit⟩

instance : MonadLift (Except PatchError) Patching := ⟨Except.mapError .symbol⟩

/-- What patches see: the symbols, the settings, and the class as it is named in its file. -/
structure PatchContext where
  symbols : SymbolTable
  settings : Settings
  className : BinaryName

namespace PatchContext

variable (c : PatchContext)

def resolveClass (name : String) : Patching BinaryName := c.symbols.resolveClass name

/-- A method type with the names in use. -/
def methodType (descriptor : String) : Patching MethodType := do
  let s ← c.symbols.remapDescriptor descriptor
  ((MethodType.parse s).mapError ClassError.unparsable : Except ClassError MethodType)

/-- A field type with the names in use. -/
def fieldType (descriptor : String) : Patching FieldType := do
  let s ← c.symbols.remapDescriptor descriptor
  ((FieldType.parse s).mapError ClassError.unparsable : Except ClassError FieldType)

/-- A method of a mapped class. -/
def methodRef (owner name descriptor : String) : Patching MethodRef := do
  let n ← c.symbols.resolveMember .method owner name
  return ⟨.object (← c.resolveClass owner), n, ← c.methodType descriptor, false⟩

/-- A field of a mapped class. -/
def fieldRef (owner name descriptor : String) : Patching FieldRef := do
  let n ← c.symbols.resolveMember .field owner name
  return ⟨← c.resolveClass owner, n, ← c.fieldType descriptor⟩

/-- A method of a class that is not mapped. -/
def unmappedMethodRef (owner : BinaryName) (name descriptor : String) : Patching MethodRef := do
  let n ← MemberName.ofGiven name
  return ⟨.object owner, n, ← c.methodType descriptor, false⟩

/-- A field of a class that is not mapped. -/
def unmappedFieldRef (owner : BinaryName) (name descriptor : String) : Patching FieldRef := do
  let n ← MemberName.ofGiven name
  return ⟨owner, n, ← c.fieldType descriptor⟩

/-- A static boolean flag of the configuration. -/
def configFlag (flag : String) : Patching FieldRef :=
  c.unmappedFieldRef c.settings.configClass flag "Z"

/-- A static method of a hook class. -/
def hook (hookClass name descriptor : String) : Patching MethodRef := do
  let owner ← c.settings.hookClass hookClass
  c.unmappedMethodRef owner name descriptor

end PatchContext

end ClassGraft
