namespace ClassGraft

inductive NameError where
  | illegalCharacter (name : String)
  | emptySegment
  | emptyBinary
  deriving DecidableEq

def NameError.message : NameError → String
  | .illegalCharacter name => s!"Unqualified name '{name}' contains an illegal character"
  | .emptySegment => "Unqualified name '' is empty"
  | .emptyBinary => "Binary name '' is empty"

/-- No member name and no segment of a class name holds one of these. -/
def isReserved (c : Char) : Bool := c = '.' || c = ';' || c = '[' || c = '/'

/-- The parts of a text between its slashes. -/
def segments : List Char → List (List Char)
  | [] => [[]]
  | c :: cs =>
    if c = '/' then [] :: segments cs
    else
      match segments cs with
      | [] => [[c]]
      | s :: ss => (c :: s) :: ss

theorem segments_ne_nil (cs : List Char) : segments cs ≠ [] := by
  cases cs with
  | nil => simp [segments]
  | cons c cs => unfold segments; split <;> (try split) <;> simp

theorem segments_append_slash (as bs : List Char) :
    segments (as ++ '/' :: bs) = segments as ++ segments bs := by
  induction as with
  | nil => simp [segments]
  | cons a as ih =>
    by_cases h : a = '/'
    · simp [segments, h, ih]
    · simp only [List.cons_append, segments, h, ↓reduceIte, ih]
      have hne := segments_ne_nil as
      cases hs : segments as with
      | nil => exact absurd hs hne
      | cons s ss => simp

def IsSegment (cs : List Char) : Prop := cs ≠ [] ∧ ∀ c ∈ cs, isReserved c = false

instance (cs : List Char) : Decidable (IsSegment cs) :=
  haveI := List.decidableBAll (fun c => isReserved c = false) cs
  inferInstanceAs (Decidable (_ ∧ _))

/-- Why a text is not a segment; a reserved character is looked for first. -/
def segmentError (cs : List Char) : NameError :=
  if cs.any isReserved then .illegalCharacter (String.ofList cs) else .emptySegment

/-- The name of a field or a method. -/
@[ext] structure MemberName where
  text : String
  valid : IsSegment text.toList
  deriving DecidableEq

namespace MemberName

def ofString (s : String) : Except NameError MemberName :=
  if h : IsSegment s.toList then .ok ⟨s, h⟩ else .error (segmentError s.toList)

def init : MemberName := ⟨"<init>", by decide⟩

end MemberName

def IsBinary (cs : List Char) : Prop := ∀ s ∈ segments cs, IsSegment s

instance (cs : List Char) : Decidable (IsBinary cs) := List.decidableBAll IsSegment (segments cs)

/-- The name of a class, whose packages are separated by slashes. -/
@[ext] structure BinaryName where
  text : String
  valid : IsBinary text.toList
  deriving DecidableEq

namespace BinaryName

def ofString (s : String) : Except NameError BinaryName :=
  if h : IsBinary s.toList then .ok ⟨s, h⟩
  else if s.isEmpty then .error .emptyBinary
  else
    match (segments s.toList).find? (fun t => !decide (IsSegment t)) with
    | some t => .error (segmentError t)
    | none => .error .emptySegment

/-- The class named by the second name below the package named by the first. -/
def join (a b : BinaryName) : BinaryName where
  text := a.text ++ "/" ++ b.text
  valid := by
    intro s hs
    simp only [String.toList_append, List.append_assoc] at hs
    rw [show ("/".toList ++ b.text.toList) = '/' :: b.text.toList from rfl,
      segments_append_slash, List.mem_append] at hs
    exact hs.elim (a.valid s) (b.valid s)

def ofMember (n : MemberName) : BinaryName where
  text := n.text
  valid := by
    have hne : ∀ cs : List Char, (∀ c ∈ cs, isReserved c = false) → segments cs = [cs] := by
      intro cs
      induction cs with
      | nil => intro _; rfl
      | cons c cs ih =>
        intro h
        have hc : c ≠ '/' := by
          intro e; have := h c (by simp); simp [e, isReserved] at this
        simp [segments, hc, ih fun d hd => h d (by simp [hd])]
    intro s hs
    rw [hne _ n.valid.2] at hs
    simp only [List.mem_singleton] at hs
    exact hs ▸ n.valid

/-- The last segment. -/
def simpleName (n : BinaryName) : String :=
  String.ofList ((segments n.text.toList).getLast?.getD [])

def object : BinaryName := ⟨"java/lang/Object", by decide⟩
def string : BinaryName := ⟨"java/lang/String", by decide⟩
def classType : BinaryName := ⟨"java/lang/Class", by decide⟩
def methodHandle : BinaryName := ⟨"java/lang/invoke/MethodHandle", by decide⟩
def methodType : BinaryName := ⟨"java/lang/invoke/MethodType", by decide⟩
def throwable : BinaryName := ⟨"java/lang/Throwable", by decide⟩

end BinaryName

end ClassGraft
