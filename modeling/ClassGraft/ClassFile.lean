import ClassGraft.Pool

namespace ClassGraft

/-- A field or a method as it is written. -/
structure RawMember where
  flags : UInt16
  name : PoolIndex
  descriptor : PoolIndex
  attributes : List Attribute
  deriving DecidableEq

namespace RawMember

open Reader in
/-- Reads a member of the kind that owns the flags. -/
def read (o : FlagOwner) : Reader RawMember :=
  return ⟨← o.read, ← u16, ← u16, ← counted Attribute.read⟩

def write (m : RawMember) : Bytes :=
  Write.u16 m.flags ++ Write.u16 m.name ++ Write.u16 m.descriptor ++
    Write.counted Attribute.write m.attributes

end RawMember

/-- What follows the constant pool. Superclass index 0 stands for no superclass. -/
structure ClassContent where
  flags : UInt16
  thisClass : PoolIndex
  superClass : PoolIndex
  interfaces : List PoolIndex
  fields : List RawMember
  methods : List RawMember
  attributes : List Attribute

namespace ClassContent

open Reader in
def read : Reader ClassContent :=
  return ⟨← FlagOwner.ofClass.read, ← u16, ← u16, ← counted u16,
    ← counted (RawMember.read .ofField), ← counted (RawMember.read .ofMethod),
    ← counted Attribute.read⟩

def write (c : ClassContent) : Bytes :=
  Write.u16 c.flags ++ Write.u16 c.thisClass ++ Write.u16 c.superClass ++
    Write.counted Write.u16 c.interfaces ++ Write.counted RawMember.write c.fields ++
    Write.counted RawMember.write c.methods ++ Write.counted Attribute.write c.attributes

end ClassContent

structure ClassFile extends ClassContent where
  version : Version
  pool : Pool

namespace ClassFile

def magic : UInt32 := 0xCAFEBABE

/-- The version is looked at before anything behind it is read. -/
def parse (s : Bytes) : Except ClassError ClassFile := do
  let (found, s) ← (Reader.u32 s).mapError ClassError.unreadable
  if found ≠ magic then throw (.badMagic found)
  let (version, s) ← (Version.read s).mapError ClassError.unreadable
  if !version.isSupported then throw (.unsupportedVersion version)
  let (pool, s) ← Pool.read s
  let (content, s) ← (ClassContent.read s).mapError ClassError.unreadable
  if !s.isEmpty then throw (.malformedClass (.trailing s.length))
  return { content with version, pool }

def write (c : ClassFile) : Bytes :=
  Write.u32 magic ++ c.version.write ++ c.pool.write ++ c.toClassContent.write

/-- The first attribute of the class with a name. -/
def attribute? (c : ClassFile) (name : String) : Option Attribute :=
  c.attributes.find? fun a =>
    match c.pool.utf8 a.name with
    | .ok s => s == name
    | .error _ => false

end ClassFile

end ClassGraft
