import ClassGraft.Patch.Predicate
import ClassGraft.Patch.Rule
import ClassGraft.Postcondition
import ClassGraft.Proofs.DescriptorText
import ClassGraft.Proofs.Outcomes

namespace ClassGraft

/-- The failures of a computation are not of a kind. -/
abbrev Avoids {ε α : Type} (bad : ε → Bool) (x : Except ε α) : Prop := FailsOnly (fun e => bad e = false) x

/-- The error is about a name: no mapping gives it, or it is malformed. -/
def PatchError.isNaming : PatchError → Bool
  | .unknownSymbol _ | .malformedName _ => true
  | _ => false

def PatchFault.isNaming : PatchFault → Bool
  | .symbol e => e.isNaming
  | _ => false

/-- Every symbol that the rule requires has a mapping. -/
def PatchRule.Resolves (r : PatchRule) (t : SymbolTable) : Prop :=
  ∀ s ∈ r.requiredSymbols, ∃ name, t.resolveSymbol s = .ok name

theorem MemberName.ofGiven_ok {name : String} (h : IsSegment name.toList) :
    MemberName.ofGiven name = .ok ⟨name, h⟩ := by
  rw [ofGiven, ofString, dif_pos h]
  rfl

theorem FieldType.text_startsWith (t : FieldType) : t.text.startsWith "(" = false := by
  have htext : t.text.toList = t.render := String.toList_ofList
  rw [String.startsWith_string_eq_false_iff, htext]
  rintro ⟨rest, hrest⟩
  cases t with
  | base t => cases t <;> cases hrest
  | ref t => cases t <;> cases hrest

theorem MethodType.text_startsWith (m : MethodType) : m.text.startsWith "(" = true := by
  have htext : m.text.toList = m.render := String.toList_ofList
  rw [String.startsWith_string_iff, htext]
  exact List.prefix_append ['('] _

namespace SymbolTable

variable {t : SymbolTable}

theorem resolveClass_of_symbol {name : String} (h : ∃ n, t.resolveSymbol (.ofClass name) = .ok n) :
    ∃ c, t.resolveClass name = .ok c := by
  obtain ⟨n, hn⟩ := h
  obtain ⟨c, hc, -⟩ := except_bind_ok.mp hn
  exact ⟨c, hc⟩

theorem resolveMember_of_symbol {k : MemberKind} {owner name : String}
    (h : ∃ n, t.resolveSymbol (.ofMember k owner name) = .ok n) :
    ∃ m, t.resolveMember k owner name = .ok m := by
  obtain ⟨n, hn⟩ := h
  obtain ⟨m, hm, -⟩ := except_bind_ok.mp hn
  exact ⟨m, hm⟩

/-- The descriptor of a type becomes that of the type with the names in use. -/
theorem remapDescriptor_field (f : FieldType) :
    t.remapDescriptor f.text = .ok (f.mapClass t.remapClass).text := by
  simp only [remapDescriptor, f.text_startsWith, f.parse_text]
  rfl

theorem remapDescriptor_method (m : MethodType) :
    t.remapDescriptor m.text = .ok (m.mapClass t.remapClass).text := by
  simp only [remapDescriptor, m.text_startsWith, m.parse_text]
  rfl

end SymbolTable

namespace PatchContext

variable {c : PatchContext}

theorem fieldType_text (f : FieldType) :
    c.fieldType f.text = .ok (f.mapClass c.symbols.remapClass) := by
  rw [fieldType, SymbolTable.remapDescriptor_field]
  show ((FieldType.parse _).mapError _).mapError _ = _
  rw [FieldType.parse_text]
  rfl

theorem methodType_text (m : MethodType) :
    c.methodType m.text = .ok (m.mapClass c.symbols.remapClass) := by
  rw [methodType, SymbolTable.remapDescriptor_method]
  show ((MethodType.parse _).mapError _).mapError _ = _
  rw [MethodType.parse_text]
  rfl

/-- A field of a class that is not mapped is found by any well-formed name. -/
theorem unmappedFieldRef_ok (owner : BinaryName) {name descriptor : String} (f : FieldType)
    (hname : IsSegment name.toList) (hf : f.text = descriptor) :
    c.unmappedFieldRef owner name descriptor =
      .ok ⟨owner, ⟨name, hname⟩, f.mapClass c.symbols.remapClass⟩ := by
  rw [unmappedFieldRef, MemberName.ofGiven_ok hname, ← hf, fieldType_text]
  rfl

theorem unmappedMethodRef_ok (owner : BinaryName) {name descriptor : String} (m : MethodType)
    (hname : IsSegment name.toList) (hm : m.text = descriptor) :
    c.unmappedMethodRef owner name descriptor =
      .ok ⟨.object owner, ⟨name, hname⟩, m.mapClass c.symbols.remapClass, false⟩ := by
  rw [unmappedMethodRef, MemberName.ofGiven_ok hname, ← hm, methodType_text]
  rfl

theorem configFlag_ok {flag : String} (hflag : IsSegment flag.toList) :
    c.configFlag flag = .ok ⟨c.settings.configClass, ⟨flag, hflag⟩, .base .boolean⟩ :=
  unmappedFieldRef_ok c.settings.configClass (.base .boolean) hflag rfl

theorem hook_ok {hookClass name descriptor : String} (m : MethodType)
    (hclass : IsSegment hookClass.toList) (hname : IsSegment name.toList) (hm : m.text = descriptor) :
    c.hook hookClass name descriptor =
      .ok ⟨.object (c.settings.hooksPackage.join (.ofMember ⟨hookClass, hclass⟩)), ⟨name, hname⟩,
        m.mapClass c.symbols.remapClass, false⟩ := by
  rw [hook, Settings.hookClass, MemberName.ofGiven_ok hclass]
  exact unmappedMethodRef_ok _ m hname hm

/-- A field of a mapped class is found if its class and its name are known. -/
theorem fieldRef_ok {owner name descriptor : String} (f : FieldType) (hf : f.text = descriptor)
    (hclass : ∃ d, c.symbols.resolveClass owner = .ok d)
    (hname : ∃ n, c.symbols.resolveMember .field owner name = .ok n) :
    ∃ r, c.fieldRef owner name descriptor = .ok r := by
  obtain ⟨d, hd⟩ := hclass
  obtain ⟨n, hn⟩ := hname
  refine ⟨⟨d, n, f.mapClass c.symbols.remapClass⟩, ?_⟩
  rw [fieldRef, hn, resolveClass, hd, ← hf, fieldType_text]
  rfl

end PatchContext

namespace Predicate

variable {t : SymbolTable} {owner name : String}

theorem invokes_ok (k : InvokeKind) (hclass : ∃ d, t.resolveClass owner = .ok d)
    (hname : ∃ n, t.resolveMember .method owner name = .ok n) : ∃ p, invokes t k owner name = .ok p := by
  obtain ⟨d, hd⟩ := hclass
  obtain ⟨n, hn⟩ := hname
  exact ⟨_, except_bind_ok.mpr ⟨d, hd, except_bind_ok.mpr ⟨n, hn, rfl⟩⟩⟩

theorem invokesNamed_ok (k : InvokeKind) (hname : ∃ n, t.resolveMember .method owner name = .ok n) :
    ∃ p, invokesNamed t k owner name = .ok p := by
  obtain ⟨n, hn⟩ := hname
  exact ⟨_, except_bind_ok.mpr ⟨n, hn, rfl⟩⟩

theorem accesses_ok (a : FieldAccess) (hclass : ∃ d, t.resolveClass owner = .ok d)
    (hname : ∃ n, t.resolveMember .field owner name = .ok n) : ∃ p, accesses t a owner name = .ok p := by
  obtain ⟨d, hd⟩ := hclass
  obtain ⟨n, hn⟩ := hname
  exact ⟨_, except_bind_ok.mpr ⟨d, hd, except_bind_ok.mpr ⟨n, hn, rfl⟩⟩⟩

end Predicate

end ClassGraft
