import ClassGraft.Code.Node
import ClassGraft.Proofs.DescriptorText
import ClassGraft.Proofs.KnownNames
import ClassGraft.Proofs.ReverseLookup
import Mathlib

namespace ClassGraft

open Mapping

variable {f : String → String} {g : BinaryName → BinaryName}

namespace RefType

/-- Each class of the first type has its new name in the second one. -/
inductive Renamed (f : String → String) : RefType → RefType → Prop
  | object {n n' : BinaryName} : n'.text = f n.text → Renamed f (.object n) (.object n')
  | objectArray {extra : Nat} {n n' : BinaryName} : n'.text = f n.text →
      Renamed f (.objectArray extra n) (.objectArray extra n')
  | primitiveArray {extra : Nat} {t : BaseType} :
      Renamed f (.primitiveArray extra t) (.primitiveArray extra t)

def dimensions : RefType → Nat
  | .object _ => 0
  | .objectArray extra _ | .primitiveArray extra _ => extra + 1

theorem mapClass_renamed (hg : ∀ n, (g n).text = f n.text) (t : RefType) : t.Renamed f (t.mapClass g) := by
  cases t with
  | object n => exact .object (hg n)
  | objectArray extra n => exact .objectArray (hg n)
  | primitiveArray extra t => exact .primitiveArray

theorem Renamed.dimensions_eq {t t' : RefType} (h : t.Renamed f t') : t'.dimensions = t.dimensions := by
  cases h <;> rfl

end RefType

namespace FieldType

inductive Renamed (f : String → String) : FieldType → FieldType → Prop
  | base {t : BaseType} : Renamed f (.base t) (.base t)
  | ref {t t' : RefType} : t.Renamed f t' → Renamed f (.ref t) (.ref t')

def dimensions : FieldType → Nat
  | .base _ => 0
  | .ref t => t.dimensions

theorem mapClass_renamed (hg : ∀ n, (g n).text = f n.text) (t : FieldType) :
    t.Renamed f (t.mapClass g) := by
  cases t with
  | base t => exact .base
  | ref t => exact .ref (t.mapClass_renamed hg)

variable {t t' : FieldType}

theorem Renamed.dimensions_eq (h : t.Renamed f t') : t'.dimensions = t.dimensions := by
  cases h with
  | base => rfl
  | ref h => exact h.dimensions_eq

theorem Renamed.width_eq (h : t.Renamed f t') : t'.width = t.width := by
  cases h <;> rfl

end FieldType

namespace MethodType

/-- Parameters are renamed one by one, and so is the result if there is one. -/
structure Renamed (f : String → String) (m m' : MethodType) : Prop where
  parameters : List.Forall₂ (FieldType.Renamed f) m.parameters m'.parameters
  result : Option.Rel (FieldType.Renamed f) m.result m'.result

theorem mapClass_renamed (hg : ∀ n, (g n).text = f n.text) (m : MethodType) :
    m.Renamed f (m.mapClass g) := by
  obtain ⟨parameters, result⟩ := m
  constructor
  · exact List.forall₂_map_right_iff.mpr (List.forall₂_same.mpr fun t _ => t.mapClass_renamed hg)
  · cases result with
    | none => exact .none
    | some t => exact .some (t.mapClass_renamed hg)

variable {α : Type} {m m' : MethodType} {p : FieldType → α}

/-- What renaming keeps of a type it keeps of all parameters and of the result. -/
theorem Renamed.map_eq (h : m.Renamed f m') (hp : ∀ t t', FieldType.Renamed f t t' → p t' = p t) :
    m'.parameters.map p = m.parameters.map p ∧ m'.result.map p = m.result.map p := by
  have hlist {ts ts' : List FieldType} (hts : List.Forall₂ (FieldType.Renamed f) ts ts') :
      ts'.map p = ts.map p := by
    induction hts with
    | nil => rfl
    | cons ht _ ih => rw [List.map_cons, List.map_cons, hp _ _ ht, ih]
  have hoption {t t' : Option FieldType} (ht : Option.Rel (FieldType.Renamed f) t t') :
      t'.map p = t.map p := by
    cases ht with
    | none => rfl
    | some ht => rw [Option.map_some, Option.map_some, hp _ _ ht]
  exact ⟨hlist h.parameters, hoption h.result⟩

theorem slotsOf_eq (ts : List FieldType) : slotsOf ts = (ts.map FieldType.width).sum := by
  induction ts with
  | nil => rfl
  | cons t ts ih => rw [slotsOf, List.map_cons, List.sum_cons, ih]

/-- Two types of the same form: as many parameters, of the same dimensions and widths, and a result like
the other one. -/
structure SameForm (m m' : MethodType) : Prop where
  count : m'.parameters.length = m.parameters.length
  dimensions : m'.parameters.map FieldType.dimensions = m.parameters.map FieldType.dimensions
  resultDimensions : m'.result.map FieldType.dimensions = m.result.map FieldType.dimensions
  parameterSlots : ∀ receiver, m'.parameterSlots receiver = m.parameterSlots receiver
  resultSlots : m'.resultSlots = m.resultSlots

theorem SameForm.symm (h : m.SameForm m') : m'.SameForm m :=
  ⟨h.count.symm, h.dimensions.symm, h.resultDimensions.symm, fun receiver => (h.parameterSlots receiver).symm,
    h.resultSlots.symm⟩

theorem SameForm.trans {m'' : MethodType} (h : m.SameForm m') (h' : m'.SameForm m'') : m.SameForm m'' :=
  ⟨h'.count.trans h.count, h'.dimensions.trans h.dimensions,
    h'.resultDimensions.trans h.resultDimensions,
    fun receiver => (h'.parameterSlots receiver).trans (h.parameterSlots receiver),
    h'.resultSlots.trans h.resultSlots⟩

theorem Renamed.sameForm (h : m.Renamed f m') : m.SameForm m' := by
  obtain ⟨hwidths, hresult⟩ := h.map_eq fun _ _ ht => ht.width_eq
  obtain ⟨hdimensions, hresultDimensions⟩ := h.map_eq fun _ _ ht => ht.dimensions_eq
  refine ⟨h.parameters.length_eq.symm, hdimensions, hresultDimensions, fun receiver => ?_, ?_⟩
  · rw [MethodType.parameterSlots, MethodType.parameterSlots, slotsOf_eq, slotsOf_eq, hwidths]
  · rw [MethodType.resultSlots, MethodType.resultSlots, hresult]

end MethodType

/-- A call only depends on the form of the type that is called. -/
theorem Instruction.slots_invoke {k : InvokeKind} {r r' : MethodRef} (h : r.type.SameForm r'.type) :
    (Instruction.invoke k r').slots = (Instruction.invoke k r).slots := by
  rw [slots, slots, h.parameterSlots, h.resultSlots]

theorem Instruction.slots_field {k : FieldAccess} {r r' : FieldRef} (h : r'.type.width = r.type.width) :
    (Instruction.field k r').slots = (Instruction.field k r).slots := by
  rw [slots, slots]
  cases k <;> simp only [FieldAccess.slots, h]

namespace SymbolTable

variable {e : Environment} {ms : List Mapping} {t : SymbolTable}

/-- The name in use for a class is that of its last mapping, and its own if it has none. -/
def activeName (e : Environment) (ms : List Mapping) (name : String) : String :=
  ((last? (isOf (.ofClass name)) ms).map (nameIn e)).getD name

theorem remapClass_text (h : ofMappings e ms = .ok t) (n : BinaryName) :
    (t.remapClass n).text = activeName e ms n.text := by
  have hforward := (ofMappings_holds h).1.forward n.text
  rw [activeName, ← hforward, remapClass]
  cases t.classes.lookup n.text <;> rfl

/-- A text is renamed if it is a descriptor. -/
theorem remapDescriptor_ok {s r : String} : t.remapDescriptor s = .ok r ↔
    (∃ m, MethodType.parse s = .ok m ∧ r = (m.mapClass t.remapClass).text) ∨
      ∃ a, FieldType.parse s = .ok a ∧ r = (a.mapClass t.remapClass).text := by
  constructor
  · intro h
    unfold remapDescriptor at h
    dsimp only at h
    split at h
    next =>
      obtain ⟨m, hm, h⟩ := except_bind_ok.mp h
      exact .inl ⟨m, except_mapError_ok.mp hm, (Except.ok.inj h).symm⟩
    next =>
      obtain ⟨a, ha, h⟩ := except_bind_ok.mp h
      exact .inr ⟨a, except_mapError_ok.mp ha, (Except.ok.inj h).symm⟩
  · rintro (⟨m, hm, rfl⟩ | ⟨a, ha, rfl⟩)
    · rw [← MethodType.text_of_parse hm]
      exact remapDescriptor_method m
    · rw [← FieldType.parse_iff.mp ha]
      exact remapDescriptor_field a

/-- Which kind of descriptor a text has to be is seen by its first character. -/
theorem remapDescriptor_succeeds (t : SymbolTable) (s : String) : (∃ r, t.remapDescriptor s = .ok r) ↔
    if s.startsWith "(" then ∃ m, MethodType.parse s = .ok m else ∃ a, FieldType.parse s = .ok a := by
  split
  next hmethod =>
    constructor
    · rintro ⟨r, hr⟩
      rcases remapDescriptor_ok.mp hr with ⟨m, hm, -⟩ | ⟨a, ha, -⟩
      · exact ⟨m, hm⟩
      · rw [← FieldType.parse_iff.mp ha, FieldType.text_startsWith] at hmethod
        cases hmethod
    · rintro ⟨m, hm⟩
      exact ⟨_, remapDescriptor_ok.mpr (.inl ⟨m, hm, rfl⟩)⟩
  next hfield =>
    constructor
    · rintro ⟨r, hr⟩
      rcases remapDescriptor_ok.mp hr with ⟨m, hm, -⟩ | ⟨a, ha, -⟩
      · rw [← MethodType.text_of_parse hm, MethodType.text_startsWith] at hfield
        exact absurd rfl hfield
      · exact ⟨a, ha⟩
    · rintro ⟨a, ha⟩
      exact ⟨_, remapDescriptor_ok.mpr (.inr ⟨a, ha, rfl⟩)⟩

end SymbolTable

namespace PatchContext

variable {c : PatchContext} {s : String}

/-- A method type in the names in use is a renamed one. -/
theorem methodType_ok {m' : MethodType} (h : c.methodType s = .ok m') :
    ∃ m, MethodType.parse s = .ok m ∧ m' = m.mapClass c.symbols.remapClass := by
  obtain ⟨r, hr, hparse⟩ := except_bind_ok.mp h
  have htext : m'.text = r :=
    MethodType.text_of_parse (except_mapError_ok.mp (except_mapError_ok.mp hparse))
  rcases SymbolTable.remapDescriptor_ok.mp (except_mapError_ok.mp hr) with ⟨m, hm, rfl⟩ | ⟨a, -, rfl⟩
  · refine ⟨m, hm, ?_⟩
    have hsame := MethodType.parse_text m'
    rw [htext, MethodType.parse_text] at hsame
    exact (Except.ok.inj hsame).symm
  · have hmethod := m'.text_startsWith
    rw [htext, FieldType.text_startsWith] at hmethod
    cases hmethod

theorem fieldType_ok {a' : FieldType} (h : c.fieldType s = .ok a') :
    ∃ a, FieldType.parse s = .ok a ∧ a' = a.mapClass c.symbols.remapClass := by
  obtain ⟨r, hr, hparse⟩ := except_bind_ok.mp h
  have htext : a'.text = r := FieldType.parse_iff.mp (except_mapError_ok.mp (except_mapError_ok.mp hparse))
  rcases SymbolTable.remapDescriptor_ok.mp (except_mapError_ok.mp hr) with ⟨m, -, rfl⟩ | ⟨a, ha, rfl⟩
  · have hfield := a'.text_startsWith
    rw [htext, MethodType.text_startsWith] at hfield
    cases hfield
  · refine ⟨a, ha, ?_⟩
    have hsame := FieldType.parse_text a'
    rw [htext, FieldType.parse_text] at hsame
    exact (Except.ok.inj hsame).symm

/-- The ways in which patches come to a method by a descriptor. -/
inductive Calls (c : PatchContext) (s : String) (r : MethodRef) : Prop
  | mapped {owner name : String} : c.methodRef owner name s = .ok r → Calls c s r
  | unmapped {owner : BinaryName} {name : String} : c.unmappedMethodRef owner name s = .ok r →
      Calls c s r
  | hook {hookClass name : String} : c.hook hookClass name s = .ok r → Calls c s r

/-- The ways in which patches come to a field by a descriptor. -/
inductive Accesses (c : PatchContext) (s : String) (r : FieldRef) : Prop
  | mapped {owner name : String} : c.fieldRef owner name s = .ok r → Accesses c s r
  | unmapped {owner : BinaryName} {name : String} : c.unmappedFieldRef owner name s = .ok r →
      Accesses c s r

theorem unmappedMethodRef_type {owner : BinaryName} {name : String} {r : MethodRef}
    (h : c.unmappedMethodRef owner name s = .ok r) : c.methodType s = .ok r.type := by
  obtain ⟨n, -, h⟩ := except_bind_ok.mp h
  obtain ⟨m, hm, h⟩ := except_bind_ok.mp h
  cases h
  exact hm

theorem Calls.type {r : MethodRef} (h : c.Calls s r) : c.methodType s = .ok r.type := by
  cases h with
  | mapped h =>
    obtain ⟨n, -, h⟩ := except_bind_ok.mp h
    obtain ⟨owner, -, h⟩ := except_bind_ok.mp h
    obtain ⟨m, hm, h⟩ := except_bind_ok.mp h
    cases h
    exact hm
  | unmapped h => exact unmappedMethodRef_type h
  | hook h =>
    obtain ⟨owner, -, h⟩ := except_bind_ok.mp h
    exact unmappedMethodRef_type h

theorem Accesses.type {r : FieldRef} (h : c.Accesses s r) : c.fieldType s = .ok r.type := by
  cases h with
  | mapped h =>
    obtain ⟨n, -, h⟩ := except_bind_ok.mp h
    obtain ⟨owner, -, h⟩ := except_bind_ok.mp h
    obtain ⟨a, ha, h⟩ := except_bind_ok.mp h
    cases h
    exact ha
  | unmapped h =>
    obtain ⟨n, -, h⟩ := except_bind_ok.mp h
    obtain ⟨a, ha, h⟩ := except_bind_ok.mp h
    cases h
    exact ha

variable {e : Environment} {ms : List Mapping}

theorem Calls.sameForm {r : MethodRef} (hc : SymbolTable.ofMappings e ms = .ok c.symbols)
    (h : c.Calls s r) : ∃ m, MethodType.parse s = .ok m ∧ m.SameForm r.type := by
  obtain ⟨m, hm, htype⟩ := methodType_ok h.type
  refine ⟨m, hm, ?_⟩
  rw [htype]
  exact (m.mapClass_renamed (SymbolTable.remapClass_text hc)).sameForm

theorem Accesses.width_eq {r : FieldRef} (hc : SymbolTable.ofMappings e ms = .ok c.symbols)
    (h : c.Accesses s r) : ∃ a, FieldType.parse s = .ok a ∧ r.type.width = a.width := by
  obtain ⟨a, ha, htype⟩ := fieldType_ok h.type
  refine ⟨a, ha, ?_⟩
  rw [htype]
  exact (a.mapClass_renamed (SymbolTable.remapClass_text hc)).width_eq

end PatchContext

namespace SymbolTable

variable {e : Environment} {ms : List Mapping} {t : SymbolTable}

/-- A text is renamed just if it is a descriptor, of a method if it starts with a bracket and else of a
field. What comes out is the descriptor of the type in which every class has the name in use, and that is
of the same form. So the calls and the accesses that patches come to by it have the same effect on the
stack, whatever the names are. -/
theorem remapDescriptor_renames (h : ofMappings e ms = .ok t) (s : String) :
    ((∃ r, t.remapDescriptor s = .ok r) ↔
      if s.startsWith "(" then ∃ m, MethodType.parse s = .ok m else ∃ a, FieldType.parse s = .ok a) ∧
    (∀ r, t.remapDescriptor s = .ok r →
      (∃ m m', MethodType.parse s = .ok m ∧ MethodType.parse r = .ok m' ∧
        m.Renamed (activeName e ms) m' ∧ m.SameForm m') ∨
      ∃ a a', FieldType.parse s = .ok a ∧ FieldType.parse r = .ok a' ∧
        a.Renamed (activeName e ms) a' ∧ a'.dimensions = a.dimensions ∧ a'.width = a.width) ∧
    ∀ e' ms' u, ofMappings e' ms' = .ok u → ∀ c c' : PatchContext, c.symbols = t → c'.symbols = u →
      (∀ k r r', c.Calls s r → c'.Calls s r' →
        (Instruction.invoke k r').slots = (Instruction.invoke k r).slots) ∧
      ∀ k r r', c.Accesses s r → c'.Accesses s r' →
        (Instruction.field k r').slots = (Instruction.field k r).slots := by
  have hname := remapClass_text h
  refine ⟨t.remapDescriptor_succeeds s, fun r hr => ?_, ?_⟩
  · rcases remapDescriptor_ok.mp hr with ⟨m, hm, rfl⟩ | ⟨a, ha, rfl⟩
    · have hrenamed := m.mapClass_renamed hname
      exact .inl ⟨m, _, hm, MethodType.parse_text _, hrenamed, hrenamed.sameForm⟩
    · have hrenamed := a.mapClass_renamed hname
      exact .inr ⟨a, _, ha, FieldType.parse_text _, hrenamed, hrenamed.dimensions_eq, hrenamed.width_eq⟩
  · rintro e' ms' u hu c c' rfl rfl
    constructor
    · intro k r r' hr hr'
      obtain ⟨m, hm, hform⟩ := hr.sameForm h
      obtain ⟨m', hm', hform'⟩ := hr'.sameForm hu
      cases hm.symm.trans hm'
      exact Instruction.slots_invoke (hform.symm.trans hform')
    · intro k r r' hr hr'
      obtain ⟨a, ha, hwidth⟩ := hr.width_eq h
      obtain ⟨a', ha', hwidth'⟩ := hr'.width_eq hu
      cases ha.symm.trans ha'
      exact Instruction.slots_field (hwidth'.trans hwidth.symm)

end SymbolTable

namespace OneClass

/-- One class has another name, and one that occurs besides it has not. -/
def mappings : List Mapping := [.ofClass "a/A" "x"]

def table : SymbolTable :=
  ⟨.obfuscated, [("a/A", ⟨"x", by decide⟩)], [], [("x", ⟨"a/A", by decide⟩)], []⟩

def type : MethodType :=
  ⟨[.ref (.objectArray 1 ⟨"a/A", by decide⟩), .ref (.object ⟨"a/D", by decide⟩), .base .long],
    some (.ref (.object ⟨"a/A", by decide⟩))⟩

theorem built : SymbolTable.ofMappings .obfuscated mappings = .ok table := by
  rfl

theorem parsed : MethodType.parse "([[La/A;La/D;J)La/A;" = .ok type := by
  refine MethodType.parse_iff.mpr ?_
  decide

theorem remapped : table.remapDescriptor "([[La/A;La/D;J)La/A;" = .ok "([[Lx;La/D;J)Lx;" := by
  refine SymbolTable.remapDescriptor_ok.mpr (.inl ⟨type, parsed, ?_⟩)
  decide

end OneClass

open OneClass in
/-- The class in the array and the result are renamed, the other one is not. -/
theorem OneClass.renames : ∃ m m', SymbolTable.ofMappings .obfuscated mappings = .ok table ∧
    table.remapDescriptor "([[La/A;La/D;J)La/A;" = .ok "([[Lx;La/D;J)Lx;" ∧
    MethodType.parse "([[La/A;La/D;J)La/A;" = .ok m ∧ MethodType.parse "([[Lx;La/D;J)Lx;" = .ok m' ∧
    m.Renamed (SymbolTable.activeName .obfuscated mappings) m' ∧ m.SameForm m' := by
  obtain ⟨-, hrenames, -⟩ := SymbolTable.remapDescriptor_renames built "([[La/A;La/D;J)La/A;"
  rcases hrenames _ remapped with ⟨m, m', hm, hm', hrenamed, hform⟩ | ⟨a, a', ha, -⟩
  · exact ⟨m, m', built, remapped, hm, hm', hrenamed, hform⟩
  · have htext : a.text = type.text :=
      (FieldType.parse_iff.mp ha).trans (MethodType.text_of_parse parsed).symm
    have hfield := a.text_startsWith
    rw [htext, MethodType.text_startsWith] at hfield
    cases hfield

end ClassGraft
