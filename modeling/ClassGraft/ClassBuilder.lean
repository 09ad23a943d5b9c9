import ClassGraft.ClassFile
import ClassGraft.Code.CheckedAssembly
import ClassGraft.Flow.Depth
import ClassGraft.Flow.Inference

namespace ClassGraft

/-- A method to be written, with the attributes it has besides its code. -/
structure MethodSource where
  flags : UInt16
  name : String
  type : MethodType
  body : Option Body
  attributes : List (String × Bytes)

/-- A field to be written. Its descriptor is taken as it is. -/
structure FieldSource where
  flags : UInt16
  name : String
  descriptor : String
  attributes : List (String × Bytes)

/-- A class below `java/lang/Object` while it is put together. What is added gets its constants at
once; the name of the class and that of its superclass come last. -/
structure ClassBuilder where
  version : Version
  name : BinaryName
  pool : Pool
  methods : Array RawMember
  fields : Array RawMember
  interfaces : Array PoolIndex
  attributes : Array Attribute

namespace ClassBuilder

/-- A class without members. -/
def start (name : BinaryName) (version : Version) : ClassBuilder :=
  ⟨version, name, Pool.empty, #[], #[], #[], #[]⟩

def encodeAttribute (name : String) (info : Bytes) : PoolM Attribute :=
  return ⟨← Pool.internUtf8 name, info⟩

def encodeAttributes (as : List (String × Bytes)) : PoolM (List Attribute) :=
  as.mapM fun (name, info) => encodeAttribute name info

/-- The code of a body, whose limits and frames are computed. -/
def encodeBody (c : ClassBuilder) (m : MethodSource) (b : Body) : HaltingM CodeAttribute := do
  let isStatic := Flags.isStatic m.flags
  let a ← b.analyzeStack (m.type.parameterSlots !isStatic)
  if c.version.hasFrames then
    let entry := Frame.entry c.name isStatic (m.name == MemberName.init.text) m.type
    let (_, b) ← b.inferFrames entry c.name
    b.encodeChecked a.maxStack.toUInt16 a.maxLocals.toUInt16 (some entry)
  else b.encodeChecked a.maxStack.toUInt16 a.maxLocals.toUInt16 none

def encodeMethod (c : ClassBuilder) (m : MethodSource) : HaltingM RawMember := do
  let code ←
    match m.body with
    | none => pure []
    | some b => do pure [← Pool.internAttribute .code (← c.encodeBody m b)]
  let attributes ← encodeAttributes m.attributes
  let name ← Pool.internUtf8 m.name
  return ⟨FlagOwner.ofMethod.keep m.flags, name, ← Pool.internUtf8 m.type.text, code ++ attributes⟩

def encodeField (f : FieldSource) : PoolM RawMember := do
  let name ← Pool.internUtf8 f.name
  let descriptor ← Pool.internUtf8 f.descriptor
  return ⟨FlagOwner.ofField.keep f.flags, name, descriptor, ← encodeAttributes f.attributes⟩

def addMethod (c : ClassBuilder) (m : MethodSource) : Halting ClassBuilder := do
  let (x, pool) ← c.pool.complete (c.encodeMethod m)
  return { c with methods := c.methods.push x, pool }

def addField (c : ClassBuilder) (f : FieldSource) : Except ClassError ClassBuilder := do
  let (x, pool) ← c.pool.complete (encodeField f)
  return { c with fields := c.fields.push x, pool }

def addInterface (c : ClassBuilder) (t : RefType) : Except ClassError ClassBuilder := do
  let (i, pool) ← c.pool.complete (Pool.internClass t)
  return { c with interfaces := c.interfaces.push i, pool }

def addAttribute (c : ClassBuilder) (name : String) (info : Bytes) :
    Except ClassError ClassBuilder := do
  let (a, pool) ← c.pool.complete (encodeAttribute name info)
  return { c with attributes := c.attributes.push a, pool }

/-- The bytes of the class. -/
def finish (c : ClassBuilder) : Except ClassError Bytes := do
  let (thisClass, pool) ← c.pool.complete (Pool.internClass (.object c.name))
  let (superClass, pool) ← pool.complete (Pool.internClass (.object BinaryName.object))
  let content : ClassContent := ⟨Flags.publicSuper, thisClass, superClass, c.interfaces.toList,
    c.fields.toList, c.methods.toList, c.attributes.toList⟩
  let file : ClassFile := { content with version := c.version, pool }
  return file.write

end ClassBuilder

end ClassGraft
