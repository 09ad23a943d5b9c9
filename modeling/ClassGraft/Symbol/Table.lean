import ClassGraft.Descriptor
import ClassGraft.Patch.Error

namespace ClassGraft

structure MemberKey where
  kind : MemberKind
  owner : String
  name : String
  deriving DecidableEq

/-- Names by canonical names and back, for one environment. What was mapped last comes first and is what
a look-up finds. Members are found by the canonical name of their class, and backwards by the name that
it has in the environment. -/
structure SymbolTable where
  environment : Environment
  classes : List (String × BinaryName)
  members : List (MemberKey × MemberName)
  canonicalClasses : List (String × BinaryName)
  canonicalMembers : List (MemberKey × MemberName)

namespace Environment

/-- The one of two names that is in use. -/
def active {α : Type} (e : Environment) (canonical minified : α) : α :=
  match e with
  | .deobfuscated => canonical
  | .obfuscated => minified

end Environment

/-- The name of a class, as rules and mappings give it. -/
def BinaryName.ofGiven (s : String) : Except PatchError BinaryName :=
  (BinaryName.ofString s).mapError fun e => .malformedName (.invalid e)

/-- The name of a member, as rules and mappings give it. -/
def MemberName.ofGiven (s : String) : Except PatchError MemberName :=
  (MemberName.ofString s).mapError fun e => .malformedName (.invalid e)

namespace SymbolTable

def empty (e : Environment) : SymbolTable := ⟨e, [], [], [], []⟩

/-- The name that a class with a canonical name has, which is that one if it is not mapped. -/
def activeClass (t : SymbolTable) (owner : String) : String :=
  ((t.classes.lookup owner).map BinaryName.text).getD owner

/-- Maps a class, and passes members over. -/
def addClass (t : SymbolTable) : Mapping → Except PatchError SymbolTable
  | .ofClass canonical minified => do
    let c ← BinaryName.ofGiven canonical
    let m ← BinaryName.ofGiven minified
    let active := t.environment.active c m
    return { t with
      classes := (canonical, active) :: t.classes
      canonicalClasses := (active.text, c) :: t.canonicalClasses }
  | .ofMember _ _ _ _ => .ok t

/-- Maps a member, and passes classes over. -/
def addMember (t : SymbolTable) : Mapping → Except PatchError SymbolTable
  | .ofClass _ _ => .ok t
  | .ofMember k owner canonical minified => do
    let _ ← BinaryName.ofGiven owner
    let c ← MemberName.ofGiven canonical
    let m ← MemberName.ofGiven minified
    let active := t.environment.active c m
    return { t with
      members := (⟨k, owner, canonical⟩, active) :: t.members
      canonicalMembers := (⟨k, t.activeClass owner, active.text⟩, c) :: t.canonicalMembers }

/-- The table of some mappings. All classes are mapped before the first member. -/
def ofMappings (e : Environment) (ms : List Mapping) : Except PatchError SymbolTable := do
  let t ← ms.foldlM addClass (empty e)
  ms.foldlM addMember t

def resolveClass (t : SymbolTable) (name : String) : Except PatchError BinaryName :=
  match t.classes.lookup name with
  | some n => .ok n
  | none => .error (.unknownSymbol (.ofClass name))

def resolveMember (t : SymbolTable) (k : MemberKind) (owner name : String) :
    Except PatchError MemberName :=
  match t.members.lookup ⟨k, owner, name⟩ with
  | some n => .ok n
  | none => .error (.unknownSymbol (.ofMember k owner name))

/-- The name of a symbol itself, without its owner. -/
def resolveSymbol (t : SymbolTable) : Symbol → Except PatchError String
  | .ofClass name => return (← t.resolveClass name).text
  | .ofMember k owner name => return (← t.resolveMember k owner name).text

/-- Resolves the text of a symbol, in which the owner ends at the last dot. -/
def resolve (t : SymbolTable) (k : SymbolKind) (text : String) : Except PatchError String :=
  match k with
  | .ofClass => t.resolveSymbol (.ofClass text)
  | .ofMember k =>
    match splitLastDot? text.toList with
    | some (owner, name) =>
      t.resolveSymbol (.ofMember k (String.ofList owner) (String.ofList name))
    | none => .error (.malformedName (.notMember text))

def canonicalClass? (t : SymbolTable) (name : String) : Option BinaryName :=
  t.canonicalClasses.lookup name

def canonicalMethod? (t : SymbolTable) (owner name : String) : Option MemberName :=
  t.canonicalMembers.lookup ⟨.method, owner, name⟩

/-- The name in use for a class. Classes that are not mapped keep theirs. -/
def remapClass (t : SymbolTable) (n : BinaryName) : BinaryName :=
  (t.classes.lookup n.text).getD n

/-- A descriptor with the names in use for the classes in it. One of a method starts with a bracket. -/
def remapDescriptor (t : SymbolTable) (s : String) : Except PatchError String := do
  let bad (_ : DescriptorError) : PatchError := .malformedName (.badDescriptor s)
  if s.startsWith "(" then
    let m ← (MethodType.parse s).mapError bad
    return (m.mapClass t.remapClass).text
  else
    let f ← (FieldType.parse s).mapError bad
    return (f.mapClass t.remapClass).text

/-- Every symbol has to resolve. The first one that does not is reported. -/
def checkComplete (t : SymbolTable) : List Symbol → Except PatchError Unit
  | [] => .ok ()
  | s :: ss => do
    let _ ← t.resolveSymbol s
    t.checkComplete ss

end SymbolTable

end ClassGraft
