import ClassGraft.Name

namespace ClassGraft

inductive DescriptorError where
  | badBase (c : Char)
  | missingBase
  | noBracket
  | unterminated (read : String)
  | badReference (c : Char)
  | missingType
  | badName (e : NameError)
  | notMethod
  | leftover (c : Char)
  deriving DecidableEq

namespace DescriptorError

def message : DescriptorError → String
  | .badBase c => s!"Invalid base type character '{c}'"
  | .missingBase => "Missing base type character"
  | .noBracket => "Expected at least on `[` for array type"
  | .unterminated read => s!"Missing terminator for 'L{read}'"
  | .badReference c => s!"Invalid reference type character '{c}'"
  | .missingType => "Missing field type"
  | .badName e => e.message
  | .notMethod => "Expected '(' for method"
  | .leftover c => s!"Unexpected leftover input '{c}'"

/-- Does the text stop too early? -/
def isTruncation : DescriptorError → Bool
  | .missingBase | .unterminated _ | .missingType => true
  | _ => false

end DescriptorError

inductive BaseType where
  | byte | char | double | float | int | long | short | boolean
  deriving DecidableEq

namespace BaseType

/-- The number of slots a value takes. -/
def width : BaseType → Nat
  | .double | .long => 2
  | _ => 1

def letter : BaseType → Char
  | .byte => 'B'
  | .char => 'C'
  | .double => 'D'
  | .float => 'F'
  | .int => 'I'
  | .long => 'J'
  | .short => 'S'
  | .boolean => 'Z'

def ofLetter? : Char → Option BaseType
  | 'B' => some .byte
  | 'C' => some .char
  | 'D' => some .double
  | 'F' => some .float
  | 'I' => some .int
  | 'J' => some .long
  | 'S' => some .short
  | 'Z' => some .boolean
  | _ => none

end BaseType

/-- An array type has `extra` dimensions besides its first. -/
inductive RefType where
  | object (name : BinaryName)
  | objectArray (extra : Nat) (name : BinaryName)
  | primitiveArray (extra : Nat) (element : BaseType)
  deriving DecidableEq

inductive FieldType where
  | base (t : BaseType)
  | ref (t : RefType)
  deriving DecidableEq

/-- An array type whose element type is kept apart. -/
structure ArrayShape where
  extra : Nat
  element : FieldType

/-- A method that returns nothing has no return type. -/
structure MethodType where
  parameters : List FieldType
  result : Option FieldType
  deriving DecidableEq

def brackets (extra : Nat) : List Char := List.replicate (extra + 1) '['

def BinaryName.render (n : BinaryName) : List Char := 'L' :: n.text.toList ++ [';']

def RefType.render : RefType → List Char
  | .object n => n.render
  | .objectArray extra n => brackets extra ++ n.render
  | .primitiveArray extra t => brackets extra ++ [t.letter]

def FieldType.render : FieldType → List Char
  | .base t => [t.letter]
  | .ref t => t.render

def ArrayShape.render (a : ArrayShape) : List Char := brackets a.extra ++ a.element.render

def MethodType.render (m : MethodType) : List Char :=
  '(' :: m.parameters.flatMap FieldType.render ++ ')' ::
    match m.result with
    | none => ['V']
    | some t => t.render

def RefType.text (t : RefType) : String := String.ofList t.render
def FieldType.text (t : FieldType) : String := String.ofList t.render
def MethodType.text (m : MethodType) : String := String.ofList m.render

abbrev TypeParser (α : Type) := List Char → Except DescriptorError (α × List Char)

namespace BaseType

def parseFrom : TypeParser BaseType
  | [] => .error .missingBase
  | c :: rest =>
    match ofLetter? c with
    | some t => .ok (t, rest)
    | none => .error (.badBase c)

end BaseType

/-- The class name between an `L`, which is already read, and the next semicolon. -/
def BinaryName.parseFrom : TypeParser BinaryName := fun s =>
  let name := String.ofList (s.takeWhile (· ≠ ';'))
  match s.dropWhile (· ≠ ';') with
  | [] => .error (.unterminated name)
  | _ :: rest =>
    match BinaryName.ofString name with
    | .ok n => .ok (n, rest)
    | .error e => .error (.badName e)

/-- The element type of an array and the rest, behind all brackets. -/
def RefType.parseElement (extra : Nat) : TypeParser RefType
  | 'L' :: rest => (BinaryName.parseFrom rest).map fun (n, r) => (.objectArray extra n, r)
  | s => (BaseType.parseFrom s).map fun (t, r) => (.primitiveArray extra t, r)

def RefType.parseFrom : TypeParser RefType
  | [] => .error .missingType
  | 'L' :: rest => (BinaryName.parseFrom rest).map fun (n, r) => (.object n, r)
  | '[' :: rest =>
    RefType.parseElement (rest.takeWhile (· = '[')).length (rest.dropWhile (· = '['))
  | c :: _ => .error (.badReference c)

def FieldType.parseFrom : TypeParser FieldType
  | [] => .error .missingType
  | c :: rest =>
    match BaseType.ofLetter? c with
    | some t => .ok (.base t, rest)
    | none => (RefType.parseFrom (c :: rest)).map fun (t, r) => (.ref t, r)

def ArrayShape.parseFrom : TypeParser ArrayShape := fun s =>
  match (s.takeWhile (· = '[')).length with
  | 0 => .error .noBracket
  | extra + 1 => (FieldType.parseFrom (s.dropWhile (· = '['))).map fun (t, r) => (⟨extra, t⟩, r)

theorem BinaryName.parseFrom_shorter {s r : List Char} {n : BinaryName}
    (h : BinaryName.parseFrom s = .ok (n, r)) : r.length < s.length := by
  have hd := (List.dropWhile_suffix (fun c : Char => decide (c ≠ ';')) (l := s)).length_le
  unfold BinaryName.parseFrom at h
  dsimp only at h
  split at h
  next => simp at h
  next c rest hs =>
    rw [hs, List.length_cons] at hd
    split at h
    next =>
      simp only [Except.ok.injEq, Prod.mk.injEq] at h
      rw [← h.2]
      omega
    next => simp at h

theorem BaseType.parseFrom_shorter {s r : List Char} {t : BaseType}
    (h : BaseType.parseFrom s = .ok (t, r)) : r.length < s.length := by
  cases s with
  | nil => simp [BaseType.parseFrom] at h
  | cons c rest =>
    unfold BaseType.parseFrom at h
    dsimp only at h
    split at h
    next => simp only [Except.ok.injEq, Prod.mk.injEq] at h; simp [h]
    next => simp at h

theorem except_map_ok {ε α β : Type} {f : α → β} {x : Except ε α} {b : β}
    (h : x.map f = .ok b) : ∃ a, x = .ok a ∧ f a = b := by
  cases x with
  | error e => simp [Except.map] at h
  | ok a => exact ⟨a, rfl, by simpa [Except.map] using h⟩

theorem RefType.parseElement_shorter {extra : Nat} {s r : List Char} {t : RefType}
    (h : RefType.parseElement extra s = .ok (t, r)) : r.length < s.length := by
  unfold RefType.parseElement at h
  split at h
  next rest =>
    obtain ⟨⟨n, r'⟩, hn, he⟩ := except_map_ok h
    simp only [Prod.mk.injEq] at he
    have := BinaryName.parseFrom_shorter hn
    simp only [List.length_cons, ← he.2]
    omega
  next =>
    obtain ⟨⟨n, r'⟩, hn, he⟩ := except_map_ok h
    simp only [Prod.mk.injEq] at he
    have := BaseType.parseFrom_shorter hn
    exact he.2 ▸ this

theorem RefType.parseFrom_shorter {s r : List Char} {t : RefType}
    (h : RefType.parseFrom s = .ok (t, r)) : r.length < s.length := by
  unfold RefType.parseFrom at h
  split at h
  next => simp at h
  next rest =>
    obtain ⟨⟨n, r'⟩, hn, he⟩ := except_map_ok h
    simp only [Prod.mk.injEq] at he
    have := BinaryName.parseFrom_shorter hn
    simp only [List.length_cons, ← he.2]
    omega
  next rest =>
    have := RefType.parseElement_shorter h
    have hd := (List.dropWhile_suffix (fun c : Char => decide (c = '[')) (l := rest)).length_le
    simp only [List.length_cons]
    omega
  next => simp at h

theorem FieldType.parseFrom_shorter {s r : List Char} {t : FieldType}
    (h : FieldType.parseFrom s = .ok (t, r)) : r.length < s.length := by
  unfold FieldType.parseFrom at h
  split at h
  next => simp at h
  next c rest =>
    split at h
    next => simp only [Except.ok.injEq, Prod.mk.injEq] at h; simp [h]
    next =>
      obtain ⟨⟨n, r'⟩, hn, he⟩ := except_map_ok h
      simp only [Prod.mk.injEq] at he
      exact he.2 ▸ RefType.parseFrom_shorter hn

/-- The types up to a closing parenthesis, and what stands behind it. -/
def FieldType.parseList (s : List Char) : Except DescriptorError (List FieldType × List Char) :=
  if s.head? = some ')' then .ok ([], s.tail)
  else
    match h : FieldType.parseFrom s with
    | .error e => .error e
    | .ok (t, rest) =>
      have : rest.length < s.length := FieldType.parseFrom_shorter h
      match FieldType.parseList rest with
      | .error e => .error e
      | .ok (ts, rest') => .ok (t :: ts, rest')
termination_by s.length

def FieldType.parseResult : TypeParser (Option FieldType)
  | 'V' :: rest => .ok (none, rest)
  | s => (FieldType.parseFrom s).map fun (t, r) => (some t, r)

def MethodType.parseFrom : TypeParser MethodType
  | '(' :: s => do
    let (parameters, s) ← FieldType.parseList s
    let (result, s) ← FieldType.parseResult s
    return (⟨parameters, result⟩, s)
  | _ => .error .notMethod

/-- Parses a whole text. -/
def parseAll {α : Type} (p : TypeParser α) (s : String) : Except DescriptorError α :=
  match p s.toList with
  | .error e => .error e
  | .ok (a, []) => .ok a
  | .ok (_, c :: _) => .error (.leftover c)

def BaseType.parse (s : String) : Except DescriptorError BaseType := parseAll BaseType.parseFrom s
def RefType.parse (s : String) : Except DescriptorError RefType := parseAll RefType.parseFrom s
def FieldType.parse (s : String) : Except DescriptorError FieldType := parseAll FieldType.parseFrom s
def ArrayShape.parse (s : String) : Except DescriptorError ArrayShape := parseAll ArrayShape.parseFrom s
def MethodType.parse (s : String) : Except DescriptorError MethodType := parseAll MethodType.parseFrom s

namespace RefType

/-- Array classes are named by their descriptor and all others by their binary name. -/
def ofClassName (s : String) : Except DescriptorError RefType :=
  if s.toList.head? = some '[' then RefType.parse s
  else (BinaryName.ofString s).mapError DescriptorError.badName |>.map .object

def className : RefType → String
  | .object n => n.text
  | t => t.text

def mapClass (f : BinaryName → BinaryName) : RefType → RefType
  | .object n => .object (f n)
  | .objectArray extra n => .objectArray extra (f n)
  | .primitiveArray extra t => .primitiveArray extra t

end RefType

namespace FieldType

def width : FieldType → Nat
  | .base t => t.width
  | .ref _ => 1

def object (n : BinaryName) : FieldType := .ref (.object n)

/-- The type of arrays of a type. -/
def array : FieldType → RefType
  | .base t => .primitiveArray 0 t
  | .ref (.object n) => .objectArray 0 n
  | .ref (.objectArray extra n) => .objectArray (extra + 1) n
  | .ref (.primitiveArray extra t) => .primitiveArray (extra + 1) t

def mapClass (f : BinaryName → BinaryName) : FieldType → FieldType
  | .base t => .base t
  | .ref t => .ref (t.mapClass f)

end FieldType

namespace MethodType

/-- The slots of values of some types. -/
def slotsOf : List FieldType → Nat
  | [] => 0
  | t :: ts => t.width + slotsOf ts

/-- The slots of all parameters, with one for a receiver. -/
def parameterSlots (m : MethodType) (receiver : Bool) : Nat :=
  (if receiver then 1 else 0) + slotsOf m.parameters

def resultSlots (m : MethodType) : Nat := (m.result.map FieldType.width).getD 0

def mapClass (f : BinaryName → BinaryName) (m : MethodType) : MethodType :=
  ⟨m.parameters.map (FieldType.mapClass f), m.result.map (FieldType.mapClass f)⟩

end MethodType

end ClassGraft
