import ClassGraft.Text.Words

namespace ClassGraft

/-- Which names a class file uses: readable ones, or the minified ones of a shipped build. -/
inductive Environment where
  | deobfuscated | obfuscated
  deriving DecidableEq

/-- Blanks at the ends and the case of ASCII letters do not matter. -/
def Environment.ofText? (s : String) : Option Environment :=
  match String.ofList ((trim s.toList).map Char.toLower) with
  | "deobfuscated" | "dev" => some .deobfuscated
  | "obfuscated" => some .obfuscated
  | _ => none

inductive MemberKind where
  | method | field
  deriving DecidableEq

/-- The kinds of names that can be mapped. -/
inductive SymbolKind where
  | ofClass
  | ofMember (k : MemberKind)
  deriving DecidableEq

def SymbolKind.text : SymbolKind → String
  | .ofClass => "class"
  | .ofMember .method => "method"
  | .ofMember .field => "field"

/-- A class, or a member with the class that declares it, by canonical names. -/
inductive Symbol where
  | ofClass (name : String)
  | ofMember (k : MemberKind) (owner name : String)
  deriving DecidableEq

namespace Symbol

def kind : Symbol → SymbolKind
  | .ofClass _ => .ofClass
  | .ofMember k _ _ => .ofMember k

def text : Symbol → String
  | .ofClass name => name
  | .ofMember _ owner name => owner ++ "." ++ name

end Symbol

/-- The minified name of a class, or of a member of a class with a canonical name. -/
inductive Mapping where
  | ofClass (canonical minified : String)
  | ofMember (k : MemberKind) (owner canonical minified : String)
  deriving DecidableEq

end ClassGraft
