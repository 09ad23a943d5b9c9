import ClassGraft.Code.Body
import ClassGraft.Symbol.Table

namespace ClassGraft

/-- What to look for in a body. -/
inductive Predicate where
  | any
  | category (c : OpcodeCategory)
  /-- Pushes this constant, whatever the form. Floating point numbers are compared as bits. -/
  | literal (l : Literal)
  | slot (c : OpcodeCategory) (s : UInt16)
  | invoke (k : Option InvokeKind) (owner : Option BinaryName) (name : MemberName)
  | access (a : FieldAccess) (owner : Option BinaryName) (name : MemberName)
  | same (n : Node)
  /-- The next instruction has to match too. -/
  | followedBy (p next : Predicate)
  /-- The instruction before has to match too. -/
  | precededBy (p previous : Predicate)
  | and (p q : Predicate)
  | or (p q : Predicate)
  | not (p : Predicate)

/-- Are two nodes equal, or do they push the same constant? -/
def Node.sameAs (a b : Node) : Bool :=
  match a.literal?, b.literal? with
  | some x, some y => x = y
  | _, _ => a = b

namespace Predicate

/-- Is a node a call of a method? What is not given does not matter. -/
def matchesInvoke (n : Node) (k : Option InvokeKind) (owner : Option BinaryName)
    (name : MemberName) : Bool :=
  match n with
  | .insn (.invoke kind m) =>
    (k.map fun k => decide (k = kind)).getD true &&
      (owner.map fun c => decide (m.owner = .object c)).getD true && m.name = name
  | _ => false

def matchesAccess (n : Node) (a : FieldAccess) (owner : Option BinaryName) (name : MemberName) :
    Bool :=
  match n with
  | .insn (.field kind f) =>
    kind = a && (owner.map fun c => decide (f.owner = c)).getD true && f.name = name
  | _ => false

/-- Does the node at a position match? Nothing outside of a body does. -/
def holdsAt (b : Body) : Predicate → Nat → Bool
  | p, position =>
    match b.get? position with
    | none => false
    | some n =>
      match p with
      | .any => true
      | .category c => n.category = c
      | .literal l => n.literal? = some l
      | .slot c s => n.category = c && n.insn?.bind Instruction.slot? = some s
      | .invoke k owner name => matchesInvoke n k owner name
      | .access a owner name => matchesAccess n a owner name
      | .same m => n.sameAs m
      | .followedBy p next =>
        p.holdsAt b position && ((b.instructionFrom? (position + 1)).map (next.holdsAt b)).getD false
      | .precededBy p previous =>
        p.holdsAt b position && ((b.instructionBefore? position).map (previous.holdsAt b)).getD false
      | .and p q => p.holdsAt b position && q.holdsAt b position
      | .or p q => p.holdsAt b position || q.holdsAt b position
      | .not p => !p.holdsAt b position

/-- A call of a method by canonical names, through the class that declares it. -/
def invokes (t : SymbolTable) (k : InvokeKind) (owner name : String) :
    Except PatchError Predicate := do
  let c ← t.resolveClass owner
  return .invoke (some k) (some c) (← t.resolveMember .method owner name)

/-- A call of a method by canonical names, through any class. -/
def invokesNamed (t : SymbolTable) (k : InvokeKind) (owner name : String) :
    Except PatchError Predicate :=
  return .invoke (some k) none (← t.resolveMember .method owner name)

/-- An access to a field by canonical names. -/
def accesses (t : SymbolTable) (a : FieldAccess) (owner name : String) :
    Except PatchError Predicate := do
  let c ← t.resolveClass owner
  return .access a (some c) (← t.resolveMember .field owner name)

end Predicate

namespace Body

def findAll (b : Body) (p : Predicate) : List Nat := (List.range b.size).filter (p.holdsAt b)

def findFirst? (b : Body) (p : Predicate) : Option Nat := (List.range b.size).find? (p.holdsAt b)

def findLast? (b : Body) (p : Predicate) : Option Nat :=
  (List.range b.size).reverse.find? (p.holdsAt b)

/-- The first match behind a position. -/
def findNext? (b : Body) (after : Nat) (p : Predicate) : Option Nat :=
  (List.range' (after + 1) (b.size - (after + 1))).find? (p.holdsAt b)

def allNodes (b : Body) (p : Predicate) : List NodeId := (b.findAll p).filterMap b.idAt?

def firstNode? (b : Body) (p : Predicate) : Option NodeId := (b.findFirst? p).bind b.idAt?

def lastNode? (b : Body) (p : Predicate) : Option NodeId := (b.findLast? p).bind b.idAt?

def nextNode? (b : Body) (after : NodeId) (p : Predicate) : Except ClassError (Option NodeId) :=
  return (b.findNext? (← b.position after) p).bind b.idAt?

end Body

end ClassGraft
