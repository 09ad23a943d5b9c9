import ClassGraft.Patch.Engine
import ClassGraft.Rules.Shipped
import ClassGraft.Symbol.Mapping

namespace ClassGraft

/-- What a run is asked to do with the class file or the folder that it is given. -/
structure RunOptions where
  environment : Option Environment
  policy : FailurePolicy
  /-- Files with mappings that follow those of the shipped rules, last first. -/
  mappings : List String
  output : String
  isDry : Bool
  input : Option String

inductive UsageError where
  | unexpected (argument : String)
  | missingValue (option : String)
  | repeatedEnvironment

def UsageError.message : UsageError → String
  | .unexpected argument => s!"unexpected argument '{argument}'"
  | .missingValue option => s!"a value is required for '{option}'"
  | .repeatedEnvironment => "only one of '--deobfuscated' and '--obfuscated' can be given, once"

namespace RunOptions

def initial : RunOptions := ⟨none, .failOpen, [], "out", false, none⟩

def inEnvironment (o : RunOptions) (e : Environment) : Except UsageError RunOptions :=
  match o.environment with
  | some _ => .error .repeatedEnvironment
  | none => .ok { o with environment := some e }

/-- Takes the one argument that is not an option. -/
def withInput (o : RunOptions) (argument : String) : Except UsageError RunOptions :=
  if argument.startsWith "-" || o.input.isSome then .error (.unexpected argument)
  else .ok { o with input := some argument }

/-- Adds arguments to the options there are. -/
def add (o : RunOptions) : List String → Except UsageError RunOptions
  | [] => .ok o
  | "--deobfuscated" :: rest => do (← o.inEnvironment .deobfuscated).add rest
  | "--obfuscated" :: rest => do (← o.inEnvironment .obfuscated).add rest
  | "--fail-closed" :: rest => add { o with policy := .failClosed } rest
  | "--dry-run" :: rest => add { o with isDry := true } rest
  | ["--mappings"] => .error (.missingValue "--mappings")
  | "--mappings" :: file :: rest => add { o with mappings := file :: o.mappings } rest
  | ["--output-directory"] => .error (.missingValue "--output-directory")
  | "--output-directory" :: folder :: rest => add { o with output := folder } rest
  | argument :: rest => do (← o.withInput argument).add rest

/-- The engine of the shipped rules, with the texts of further mappings. -/
def engine (o : RunOptions) (e : Environment) (texts : List String) :
    Except PatchError Engine := do
  let further ← texts.mapM Mapping.parse
  let symbols ← SymbolTable.ofMappings e (Rules.builtinMappings ++ further.flatten)
  Engine.make o.policy Settings.standard symbols Rules.shipped

end RunOptions

/-- The name that a class file gives for its class. -/
def nameInFile? (bytes : Bytes) : Option String := do
  let file ← (ClassFile.parse bytes).toOption
  (file.pool.className file.thisClass).toOption

/-- How many classes met which end. -/
structure Tally where
  patched : Nat
  unchanged : Nat
  rejected : Nat
  ignored : Nat

namespace Tally

def zero : Tally := ⟨0, 0, 0, 0⟩

def ignore (t : Tally) : Tally := { t with ignored := t.ignored + 1 }

def count (t : Tally) (x : Transformation) : Tally :=
  if x.state = .rejected then { t with rejected := t.rejected + 1 }
  else if x.isPatched then { t with patched := t.patched + 1 }
  else { t with unchanged := t.unchanged + 1 }

def text (t : Tally) : String :=
  s!"{t.patched} patched, {t.unchanged} unchanged, {t.rejected} rejected, {t.ignored} ignored"

end Tally

/-- The line that tells of a class. -/
def Transformation.line (t : Transformation) : String :=
  let word :=
    if t.state = .rejected then "REJECTED" else if t.isPatched then "PATCHED" else "UNCHANGED"
  let line := s!" - {t.className} [{word}]"
  if t.applied.isEmpty then line else line ++ " " ++ String.intercalate ", " t.applied

end ClassGraft
