import ClassGraft.Form.Node
import ClassGraft.Patch.Predicate

namespace ClassGraft

namespace Predicate

/-- A predicate without parts. Words in small letters take canonical names. -/
def ofWord (t : SymbolTable) (word : String) (f : Form) : FormM Predicate := do
  match word with
  | "Category" => return .category (← f.get 1)
  | "Literal" => return .literal (← f.get 1)
  | "Local" => return .slot (← f.get 1) (← f.get 2)
  | "Invoke" => return .invoke (← f.get 1) (← f.get 2) (← f.get 3)
  | "Field" => return .access (← f.get 1) (← f.get 2) (← f.get 3)
  | "Exact" => return .same (← f.get 1)
  | "invokes" => invokes t (← f.get 1) (← f.get 2) (← f.get 3)
  | "invokes_named" => invokesNamed t (← f.get 1) (← f.get 2) (← f.get 3)
  | "accesses" => accesses t (← f.get 1) (← f.get 2) (← f.get 3)
  | _ => .shape

def ofForm (t : SymbolTable) : Form → FormM Predicate
  | .text "Any" => return .any
  | .list (.text "FollowedBy" :: p :: q :: _) => return .followedBy (← ofForm t p) (← ofForm t q)
  | .list (.text "PrecededBy" :: p :: q :: _) => return .precededBy (← ofForm t p) (← ofForm t q)
  | .list (.text "And" :: p :: q :: _) => return .and (← ofForm t p) (← ofForm t q)
  | .list (.text "Or" :: p :: q :: _) => return .or (← ofForm t p) (← ofForm t q)
  | .list (.text "Not" :: p :: _) => return .not (← ofForm t p)
  | .list (.text word :: xs) => ofWord t word (.list (.text word :: xs))
  | _ => .shape

end Predicate

end ClassGraft
