import ClassGraft.Halt
import ClassGraft.Patch.Context

namespace ClassGraft

/-- The written shape of a value, of which listings and scripts are made. -/
inductive Form where
  | absent
  | flag (b : Bool)
  | number (n : Int)
  | text (s : String)
  | bytes (bs : Bytes)
  | list (xs : List Form)
  | fields (fs : List (String × Form))
  deriving Inhabited

namespace Form

/-- A list that starts with a word. -/
def tagged (word : String) (xs : List Form) : Form := .list (.text word :: xs)

/-- The field of a form with a name. What has no such field is absent. -/
def field : Form → String → Form
  | .fields fs, name => (fs.lookup name).getD .absent
  | _, _ => .absent

/-- The item of a form at a position. What has no such item is absent. -/
def item : Form → Nat → Form
  | .list xs, i => xs.getD i .absent
  | _, _ => .absent

/-- The word that a form starts with. -/
def word? : Form → Option String
  | .list (.text word :: _) => some word
  | _ => none

end Form

/-- Why a form cannot be read, or what it says cannot be done. -/
inductive FormError where
  | shape
  | patch (f : PatchFault)
  | verify (f : VerifyFault)
  /-- A run has stopped for good. -/
  | halted

/-- What the forms of a script may refer to: the labels it has made, and the node it has found. -/
structure ScriptNames where
  labels : Array Label
  anchor : Option NodeId

def ScriptNames.empty : ScriptNames := ⟨#[], none⟩

abbrev FormM := ReaderT ScriptNames (Except FormError)

namespace FormM

def shape {α : Type} : FormM α := fun _ => .error .shape

def ofOption {α : Type} (a : Option α) : FormM α := a.elim shape pure

end FormM

instance : MonadLift (Except VerifyFault) FormM := ⟨fun x _ => x.mapError .verify⟩

instance : MonadLift Patching FormM := ⟨fun x _ => x.mapError .patch⟩

instance : MonadLift (Except PatchError) FormM :=
  ⟨fun x _ => x.mapError fun e => .patch (.symbol e)⟩

instance : MonadLift (Except ClassError) FormM :=
  ⟨fun x _ => x.mapError fun e => .patch (.edit e)⟩

instance : MonadLift (Except NameError) FormM :=
  ⟨fun x _ => x.mapError fun e => .patch (.edit (.malformedName e))⟩

instance : MonadLift (Except DescriptorError) FormM :=
  ⟨fun x _ => x.mapError fun e => .patch (.edit (.unparsable e))⟩

instance : MonadLift (Except ReadError) FormM :=
  ⟨fun x _ => x.mapError fun e => .patch (.edit (.unreadable e))⟩

instance {ε : Type} [MonadLift (Except ε) FormM] : MonadLift (Except (Halt ε)) FormM where
  monadLift
    | .ok a => pure a
    | .error (.error e) => liftM (.error e : Except ε _)
    | .error _ => throw .halted

class ToForm (α : Type) where
  toForm : α → Form

class OfForm (α : Type) where
  ofForm : Form → FormM α

export ToForm (toForm)
export OfForm (ofForm)

/-- Reads the item at a position. -/
def Form.get {α : Type} [OfForm α] (f : Form) (i : Nat) : FormM α := ofForm (f.item i)

/-- Types whose values have a word each. -/
class Worded (α : Type) where
  words : List (String × α)

section

variable {α β : Type}

instance (priority := low) [Worded α] [DecidableEq α] : ToForm α where
  toForm a := (((Worded.words (α := α)).find? fun e => e.2 = a).map fun e => .text e.1).getD .absent

instance (priority := low) [Worded α] : OfForm α where
  ofForm
    | .text s => .ofOption ((Worded.words (α := α)).lookup s)
    | _ => .shape

instance : ToForm Form := ⟨id⟩
instance : ToForm Nat := ⟨fun n => .number n⟩
instance : ToForm Int := ⟨.number⟩
instance : ToForm Bool := ⟨.flag⟩
instance : ToForm String := ⟨.text⟩
instance : ToForm UInt8 := ⟨fun n => .number n.toNat⟩
instance : ToForm UInt16 := ⟨fun n => .number n.toNat⟩
instance : ToForm Int8 := ⟨fun n => .number n.toInt⟩
instance : ToForm Int16 := ⟨fun n => .number n.toInt⟩
instance : ToForm Int32 := ⟨fun n => .number n.toInt⟩
instance [ToForm α] : ToForm (List α) := ⟨fun xs => .list (xs.map toForm)⟩
instance [ToForm α] : ToForm (Option α) := ⟨fun a => (a.map toForm).getD .absent⟩
instance [ToForm α] [ToForm β] : ToForm (α × β) := ⟨fun p => .list [toForm p.1, toForm p.2]⟩

def Form.int : Form → FormM Int
  | .number n => pure n
  | _ => .shape

def Form.items : Form → FormM (List Form)
  | .list xs => pure xs
  | .absent => pure []
  | _ => .shape

def hexDigit (c : Char) : UInt8 := (if c ≤ '9' then c.toNat - 48 else c.toNat - 87).toUInt8

def ofHex : List Char → List UInt8 → Bytes
  | a :: b :: rest, seen => ofHex rest ((hexDigit a * 16 + hexDigit b) :: seen)
  | _, seen => seen.reverse

/-- Bytes that are given as bytes or as digits. -/
def Form.toBytes : Form → FormM Bytes
  | .bytes bs => pure bs
  | .text s => pure (ofHex s.toList [])
  | .absent => pure []
  | _ => .shape

/-- The number that bytes stand for, the highest first. -/
def Form.toWord (f : Form) : FormM Nat :=
  return (← f.toBytes).foldl (fun v b => v * 256 + b.toNat) 0

instance : OfForm Form := ⟨pure⟩
instance : OfForm Int := ⟨Form.int⟩
instance : OfForm Nat := ⟨fun f => return (← f.int).toNat⟩
instance : OfForm UInt8 := ⟨fun f => return (← f.int).toNat.toUInt8⟩
instance : OfForm UInt16 := ⟨fun f => return (← f.int).toNat.toUInt16⟩
instance : OfForm Int8 := ⟨fun f => return Int8.ofInt (← f.int)⟩
instance : OfForm Int16 := ⟨fun f => return Int16.ofInt (← f.int)⟩
instance : OfForm Int32 := ⟨fun f => return Int32.ofInt (← f.int)⟩

instance : OfForm Bool where
  ofForm
    | .flag b => pure b
    | .absent => pure false
    | _ => .shape

instance : OfForm String where
  ofForm
    | .text s => pure s
    | _ => .shape

instance [OfForm α] : OfForm (Option α) where
  ofForm
    | .absent => pure none
    | f => some <$> ofForm f

instance [OfForm α] : OfForm (List α) := ⟨fun f => do (← f.items).mapM ofForm⟩

instance [OfForm α] [OfForm β] : OfForm (α × β) := ⟨fun f => return (← f.get 0, ← f.get 1)⟩

end

/-- A long number is written as text. -/
instance : ToForm Int64 := ⟨fun n => .text (toString n.toInt)⟩

instance : OfForm Int64 where
  ofForm f := do
    let s : String ← ofForm f
    return Int64.ofInt (← .ofOption s.toInt?)

instance : ToForm Label := ⟨fun l => toForm l.index⟩
instance : ToForm NodeId := ⟨fun i => toForm i.index⟩
instance : ToForm BinaryName := ⟨fun n => toForm n.text⟩
instance : ToForm MemberName := ⟨fun n => toForm n.text⟩
instance : ToForm RefType := ⟨fun t => toForm t.className⟩
instance : ToForm FieldType := ⟨fun t => toForm t.text⟩
instance : ToForm MethodType := ⟨fun t => toForm t.text⟩
instance : ToForm Version := ⟨fun v => toForm (v.major, v.minor)⟩

/-- A label of a script is named by a dollar sign and its number. -/
instance : OfForm Label where
  ofForm
    | .text s => do .ofOption ((← read).labels[(← .ofOption (s.drop 1).toNat?)]?)
    | f => return ⟨← ofForm f⟩

instance : OfForm NodeId where
  ofForm
    | .text _ => do .ofOption (← read).anchor
    | f => return ⟨← ofForm f⟩

instance : OfForm BinaryName := ⟨fun f => do BinaryName.ofString (← ofForm f)⟩
instance : OfForm MemberName := ⟨fun f => do MemberName.ofString (← ofForm f)⟩
instance : OfForm RefType := ⟨fun f => do RefType.ofClassName (← ofForm f)⟩
instance : OfForm FieldType := ⟨fun f => do FieldType.parse (← ofForm f)⟩
instance : OfForm MethodType := ⟨fun f => do MethodType.parse (← ofForm f)⟩
instance : OfForm Version := ⟨fun f => do
  let (major, minor) ← ofForm f
  return ⟨major, minor⟩⟩

end ClassGraft
