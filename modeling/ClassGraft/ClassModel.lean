import ClassGraft.Method

namespace ClassGraft

/-- Puts an attribute in the place of the first one with the same name index, or behind all others. -/
def Attribute.setIn (a : Attribute) : List Attribute → List Attribute
  | [] => [a]
  | b :: bs => if b.name = a.name then a :: bs else b :: a.setIn bs

/-- A class whose members are read. What is not edited is written as it was read, and a class without
any change as the very bytes it came from. -/
structure ClassModel where
  file : ClassFile
  source : Bytes
  name : BinaryName
  canonicalName : Option BinaryName
  /-- One for each method of the file, in the same order, when the class is read. -/
  methods : List Method
  fields : List Field
  /-- Has a field or an attribute of the class been set? -/
  membersModified : Bool

namespace ClassModel

def parse (s : Bytes) : Except ClassError ClassModel := do
  let file ← ClassFile.parse s
  let name ← (BinaryName.ofString (← file.pool.className file.thisClass)).mapError .malformedName
  let methods ← file.methods.zipIdx.mapM fun (raw, i) =>
    Method.read file.pool name file.version.hasFrames raw i
  let fields ← file.fields.mapM (Field.read file.pool)
  return { file, source := s, name, canonicalName := none, methods, fields, membersModified := false }

/-- The name to use in messages. -/
def displayName (c : ClassModel) : String := (c.canonicalName.getD c.name).text

/-- The positions of the methods with a name. -/
def methodsNamed (c : ClassModel) (name : String) : List Nat :=
  (c.methods.zipIdx.filter fun (m, _) => m.name.text == name).map Prod.snd

/-- The first method with a name, and with a descriptor if one is asked for. -/
def method? (c : ClassModel) (name : String) (descriptor : Option String) : Option Method :=
  c.methods.find? fun m =>
    m.name.text == name && (descriptor.map (m.type.text == ·)).getD true

def hasField (c : ClassModel) (name : String) : Bool := c.fields.any fun f => f.name.text == name

/-- The content of the first attribute of the class with a name. -/
def attribute? (c : ClassModel) (name : String) : Option Bytes :=
  (c.file.attribute? name).map Attribute.info

def isModified (c : ClassModel) : Bool := c.membersModified || c.methods.any Method.isModified

/-- Runs a computation on the constants of a class. -/
def withPool {α : Type} (c : ClassModel) (x : PoolM α) : Except ClassError (α × ClassModel) := do
  let (a, pool) ← c.file.pool.complete x
  return (a, { c with file := { c.file with pool } })

/-- Declares a field without attributes. -/
def addField (c : ClassModel) (f : Field) : Except ClassError ClassModel := do
  let (name, c) ← c.withPool (Pool.internUtf8 f.name.text)
  let (descriptor, c) ← c.withPool (Pool.internUtf8 f.type.text)
  return { c with
    file := { c.file with fields := c.file.fields ++ [⟨f.flags, name, descriptor, []⟩] }
    fields := c.fields ++ [f]
    membersModified := true }

/-- Sets an attribute of the class. -/
def setAttribute (c : ClassModel) (name : String) (info : Bytes) : Except ClassError ClassModel := do
  let (index, c) ← c.withPool (Pool.internUtf8 name)
  return { c with
    file := { c.file with attributes := Attribute.setIn ⟨index, info⟩ c.file.attributes }
    membersModified := true }

/-- Puts a method in the place of the one at a position. -/
def setMethod (c : ClassModel) (i : Nat) (m : Method) : ClassModel :=
  { c with methods := c.methods.set i m }

/-- The members of a file. An edited body takes the place of the one that its method was read from. -/
def encodeMethod (raws : List RawMember) (m : Method) : HaltingM (List RawMember) := do
  if m.isModified then
    match ← m.encode with
    | none => return raws
    | some code =>
      let a ← Pool.internAttribute .code code
      match raws[m.index]? with
      | none => throw .range
      | some raw => return raws.set m.index { raw with attributes := a.setIn raw.attributes }
  else return raws

/-- The methods as they are to be written. -/
def encodeMethods (c : ClassModel) : HaltingM (List RawMember) :=
  c.methods.foldlM encodeMethod c.file.methods

/-- The class file that a changed class is written as. -/
def finish (c : ClassModel) : Halting ClassFile := do
  let (methods, pool) ← c.file.pool.complete c.encodeMethods
  return { c.file with methods, pool }

/-- The bytes of a class. Only edited bodies are encoded anew; they should have been validated. -/
def toBytes (c : ClassModel) : Halting Bytes :=
  if c.isModified then do return (← c.finish).write else .ok c.source

end ClassModel

end ClassGraft
