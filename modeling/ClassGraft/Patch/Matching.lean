import ClassGraft.Code.Arena
import ClassGraft.Patch.Predicate

namespace ClassGraft

/-- Does the node at a position match, if nodes and the instructions next to a position are found in
these ways? -/
def Predicate.matchesBy (get? : Nat → Option Node) (next? previous? : Nat → Option Nat) :
    Predicate → Nat → Bool
  | p, position =>
    match get? position with
    | none => false
    | some n =>
      match p with
      | .any => true
      | .category c => n.category = c
      | .literal l => n.literal? = some l
      | .slot c s => n.category = c && n.insn?.bind Instruction.slot? = some s
      | .invoke k owner name => matchesInvoke n k owner name
      | .access a owner name => matchesAccess n a owner name
      | .same m => n.sameAs m
      | .followedBy p next =>
        p.matchesBy get? next? previous? position &&
          ((next? position).map (next.matchesBy get? next? previous?)).getD false
      | .precededBy p previous =>
        p.matchesBy get? next? previous? position &&
          ((previous? position).map (previous.matchesBy get? next? previous?)).getD false
      | .and p q =>
        p.matchesBy get? next? previous? position && q.matchesBy get? next? previous? position
      | .or p q =>
        p.matchesBy get? next? previous? position || q.matchesBy get? next? previous? position
      | .not p => !p.matchesBy get? next? previous? position

namespace Arena

def get? (a : Arena) (position : Nat) : Option Node := (a.order[position]?).bind a.node?

/-- The first instruction at a position or behind it. -/
def instructionFrom? (a : Arena) (position : Nat) : Option NodeId :=
  (a.order.drop position).find? fun id => (a.node? id).any fun n => !n.isPseudo

/-- The position of the first instruction behind a position. -/
def nextInstruction? (a : Arena) (position : Nat) : Option Nat :=
  (a.instructionFrom? (position + 1)).bind a.position?

/-- The position of the last instruction before a position. -/
def previousInstruction? (a : Arena) (position : Nat) : Option Nat :=
  (List.range position).reverse.find? fun q => (a.get? q).any fun n => !n.isPseudo

def holdsAt (a : Arena) (p : Predicate) : Nat → Bool :=
  p.matchesBy a.get? a.nextInstruction? a.previousInstruction?

/-- All nodes that match, in order. -/
def allNodes (a : Arena) (p : Predicate) : List NodeId :=
  ((List.range a.order.length).filter (a.holdsAt p)).filterMap fun q => a.order[q]?

end Arena

end ClassGraft
