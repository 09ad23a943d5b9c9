import ClassGraft.Patch.Application

namespace ClassGraft

/-- What happens when a rule cannot be applied. -/
inductive FailurePolicy where
  /-- The class goes on without the rule, or comes back as it was. -/
  | failOpen
  /-- The error is returned. -/
  | failClosed
  deriving DecidableEq

inductive TransformState where
  | emitted | rejected
  deriving DecidableEq

/-- What became of a class. -/
structure Transformation where
  className : String
  state : TransformState
  bytes : Bytes
  /-- The names of the rules whose effects the bytes show, in order. -/
  applied : List String
  /-- Why rules were rolled back whose targets are missing. -/
  skipped : List PatchError
  rejection : Option PatchError

namespace Transformation

def isPatched (t : Transformation) : Bool := t.state = .emitted && !t.applied.isEmpty

end Transformation

/-- Rules with what they need. The symbols are complete when an engine is made. -/
structure Engine where
  policy : FailurePolicy
  settings : Settings
  symbols : SymbolTable
  rules : List PatchRule

/-- The names of classes are given with slashes or with dots. -/
def normalizeName (name : String) : String := name.map fun c => if c = '.' then '/' else c

/-- A class while rules are applied to it. -/
structure PatchRun where
  model : ClassModel
  applied : List String
  skipped : List PatchError

/-- Why a class is rejected, and what was skipped before. -/
structure Rejection where
  error : PatchError
  skipped : List PatchError

/-- A class that is handed back as it came. -/
def Transformation.untouched (className : String) (bytes : Bytes) (skipped : List PatchError) :
    Transformation :=
  ⟨className, .emitted, bytes, [], skipped, none⟩

/-- What rules make of a class. -/
inductive Prepared where
  | untouched (skipped : List PatchError)
  /-- The class is marked, and has to be written. -/
  | marked (run : PatchRun) (model : ClassModel)

namespace Prepared

def skipped : Prepared → List PatchError
  | untouched skipped => skipped
  | marked run _ => run.skipped

def write (className : String) (bytes : Bytes) : Prepared → Except (Halt Rejection) Transformation
  | untouched skipped => .ok (.untouched className bytes skipped)
  | marked run c =>
    match c.toBytes with
    | .ok patched => .ok ⟨className, .emitted, patched, run.applied, run.skipped, none⟩
    | .error h => .error (h.map fun cause => ⟨.classFormat className cause, run.skipped⟩)

end Prepared

namespace Engine

/-- Every symbol that a rule requires has to resolve. -/
def make (policy : FailurePolicy) (settings : Settings) (symbols : SymbolTable)
    (rules : List PatchRule) : Except PatchError Engine := do
  symbols.checkComplete (rules.flatMap PatchRule.requiredSymbols)
  return ⟨policy, settings, symbols, rules⟩

/-- The name in use for the class that a rule targets. -/
def target? (e : Engine) (r : PatchRule) : Option String :=
  (e.symbols.classes.lookup r.target).map BinaryName.text

/-- The rules for a class, in order. -/
def rulesFor (e : Engine) (name : String) : List PatchRule :=
  e.rules.filter fun r => e.target? r == some name

/-- The classes that some rule targets. -/
def interestedClasses (e : Engine) : List String := (e.rules.filterMap e.target?).eraseDups

def isInterested (e : Engine) (name : String) : Bool := !(e.rulesFor (normalizeName name)).isEmpty

/-- Attaches the canonical names that are known. -/
def labelNames (e : Engine) (c : ClassModel) : ClassModel :=
  { c with
    canonicalName := e.symbols.canonicalClass? c.name.text
    methods := c.methods.map fun m =>
      { m with canonicalName := e.symbols.canonicalMethod? c.name.text m.name.text } }

/-- Applies rules in turn. One that fails leaves no trace, and is skipped if only its target is missing
and the policy allows it. -/
def applyRules (e : Engine) : List PatchRule → PatchRun → Except Rejection PatchRun
  | [], s => .ok s
  | r :: rs, s =>
    match r.apply e.symbols e.settings s.model with
    | .ok model => e.applyRules rs ⟨model, s.applied ++ [r.name], s.skipped⟩
    | .error err =>
      if err.isTargetMissing && e.policy = .failOpen then
        e.applyRules rs ⟨s.model, s.applied, s.skipped ++ [err]⟩
      else .error ⟨err, s.skipped⟩

/-- Brings every edited method up to date. -/
def validateMethods (className rule : String) : List Method → Except PatchError (List Method)
  | [] => .ok []
  | m :: ms => do
    let m ← m.validate.mapError (PatchError.invariantViolation className rule m.displayName)
    return m :: (← validateMethods className rule ms)

/-- Records the names of applied rules in an attribute: their number, then the indices of the names. -/
def mark (e : Engine) (c : ClassModel) (applied : List String) : Except ClassError ClassModel := do
  let (indices, c) ← c.withPool (applied.mapM Pool.internUtf8)
  c.setAttribute e.settings.markerAttribute.text (Write.counted Write.u16 indices)

/-- Applies the rules for a class and marks it, unless it is marked already. -/
def prepare (e : Engine) (className : String) (rules : List PatchRule) (bytes : Bytes) :
    Except Rejection Prepared := do
  let c ← (ClassModel.parse bytes).mapError fun
    | .unsupportedVersion v => ⟨.unsupportedVersion className v, []⟩
    | cause => ⟨.classFormat className cause, []⟩
  if (c.attribute? e.settings.markerAttribute.text).isSome then return .untouched []
  let s ← e.applyRules rules ⟨e.labelNames c, [], []⟩
  if s.applied.isEmpty then return .untouched s.skipped
  let rejected (err : PatchError) : Rejection := ⟨err, s.skipped⟩
  let names := String.intercalate "," s.applied
  let methods ← (validateMethods className names s.model.methods).mapError rejected
  let c ← (e.mark { s.model with methods } s.applied).mapError fun cause =>
    rejected (.classFormat className cause)
  return .marked s c

/-- Patches a class by the rules for it. -/
def patch (e : Engine) (className : String) (rules : List PatchRule) (bytes : Bytes) :
    Except (Halt Rejection) Transformation := do
  (← e.prepare className rules bytes).write className bytes

/-- What comes of a run. A rejected class comes back as it was, unless errors are to be returned. A run that
stops gives nothing. -/
def answer (e : Engine) (className : String) (bytes : Bytes) :
    Except (Halt Rejection) Transformation → Except (Halt PatchError) Transformation
  | .ok t => .ok t
  | .error (.error r) =>
    match e.policy with
    | .failOpen => .ok ⟨className, .rejected, bytes, [], r.skipped, some r.error⟩
    | .failClosed => .error (.error r.error)
  | .error h => .error (h.map Rejection.error)

/-- Transforms a class. -/
def transform (e : Engine) (name : String) (bytes : Bytes) : Except (Halt PatchError) Transformation :=
  let className := normalizeName name
  match e.rulesFor className with
  | [] => .ok (.untouched className bytes [])
  | rules => e.answer className bytes (e.patch className rules bytes)

end Engine

end ClassGraft
