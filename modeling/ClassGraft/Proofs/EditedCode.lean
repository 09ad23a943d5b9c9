import ClassGraft.Proofs.ClassWriting
import ClassGraft.Proofs.SiteValidation

namespace ClassGraft

open Pool

/-- What is done to a method to edit it: editing begins, the body is changed, the method is validated. -/
inductive Method.Edited (m : Method) : Method → Prop
  | refl : Edited m m
  | begun {m' m'' : Method} : Edited m m' → m'.beginEdit = .ok m'' → Edited m m''
  | changed {m' : Method} (b : Body) : Edited m m' → Edited m (m'.withBody b)
  | validated {m' m'' : Method} : Edited m m' → m'.validate = .ok m'' → Edited m m''

/-- The class with some of its methods edited. -/
structure ClassModel.Edited (c c' : ClassModel) : Prop where
  same : c' = { c with methods := c'.methods }
  methods : List.Forall₂ Method.Edited c.methods c'.methods

namespace Pool

variable {p q : Pool}

variable {name : String} {as : List Attribute} {first : Attribute}

/-- The attributes with a name. -/
def named (p : Pool) (name : String) (as : List Attribute) : List Attribute :=
  as.filter fun a => (p.utf8 a.name).toOption == some name

theorem named_iff {x : Except ClassError String} :
    (x.toOption == some name) = true ↔ x = .ok name := by
  cases x <;> simp [Except.toOption]

theorem findAttribute_hit {a : Attribute} (h : p.utf8 a.name = .ok name) :
    p.findAttribute name (a :: as) = .ok (some a) := by
  simp only [findAttribute, h, bind, Except.bind, ↓reduceIte]
  rfl

theorem findAttribute_miss {a : Attribute} {s : String} (h : p.utf8 a.name = .ok s) (hs : s ≠ name) :
    p.findAttribute name (a :: as) = p.findAttribute name as := by
  simp only [findAttribute, h, bind, Except.bind, if_neg hs]

theorem findAttribute_some (h : p.findAttribute name as = .ok (some first)) :
    first ∈ as ∧ p.utf8 first.name = .ok name := by
  induction as with
  | nil => cases h
  | cons a as ih =>
    obtain ⟨s, hs, h⟩ := except_bind_ok.mp h
    split at h
    next heq => cases h; exact ⟨List.mem_cons_self, heq ▸ hs⟩
    next =>
      obtain ⟨hmem, hname⟩ := ih h
      exact ⟨List.mem_cons_of_mem _ hmem, hname⟩

/-- An attribute that is set is found first just if the one that was found had its index. -/
theorem findAttribute_setIn {a : Attribute} (hpq : p.Extends q)
    (h : p.findAttribute name as = .ok (some first)) (ha : q.utf8 a.name = .ok name) :
    q.findAttribute name (a.setIn as) = .ok (some (if first.name = a.name then a else first)) := by
  induction as with
  | nil => cases h
  | cons b as ih =>
    obtain ⟨s, hs, h⟩ := except_bind_ok.mp h
    have hb := hpq.utf8 hs
    split at h
    next heq =>
      cases h
      rw [Attribute.setIn]
      split
      next => exact findAttribute_hit ha
      next => exact findAttribute_hit (heq ▸ hb)
    next hne =>
      have hother : b.name ≠ a.name := by
        intro hsame
        rw [hsame, ha] at hb
        exact hne (Except.ok.inj hb).symm
      rw [Attribute.setIn, if_neg hother, findAttribute_miss hb hne]
      exact ih h

/-- No constant comes in that is there already, so no other attribute gets the name. -/
theorem named_leads (hl : p.Leads q) (hp : p.Reached) {i : PoolIndex} (h : p.utf8 i = .ok name)
    (as : List Attribute) : q.named name as = p.named name as := by
  have hknown : p.index[Constant.utf8 name]? ≠ none := by
    obtain ⟨j, hj, -⟩ := hp.lowest i.toNat _ (constant_ok.mp (utf8_ok.mp h))
    rw [hj]
    exact Option.some_ne_none j
  refine List.filter_congr fun a _ => Bool.eq_iff_iff.mpr ?_
  rw [named_iff, named_iff]
  refine ⟨fun hq => ?_, hl.grows.utf8⟩
  rcases hl.constant_back (utf8_ok.mp hq) with hold | hnew
  · exact utf8_ok.mpr hold
  · exact absurd hnew hknown

/-- Setting an attribute and taking those of its name go together. -/
theorem named_setIn_same {a : Attribute} (h : p.utf8 a.name = .ok name) (as : List Attribute) :
    p.named name (a.setIn as) = a.setIn (p.named name as) :=
  Attribute.filter_setIn (named_iff.mpr h) fun _ _ hb => named_iff.mpr (hb.symm ▸ h)

/-- Setting an attribute adds one of its name, unless one has its very index. -/
theorem named_setIn {a : Attribute} (h : p.utf8 a.name = .ok name) (as : List Attribute) :
    (p.named name (a.setIn as)).length =
      (p.named name as).length + if ∃ b ∈ as, b.name = a.name then 0 else 1 := by
  rw [named_setIn_same h, Attribute.length_setIn]
  have hiff : (∃ b ∈ p.named name as, b.name = a.name) ↔ ∃ b ∈ as, b.name = a.name := by
    constructor
    · rintro ⟨b, hb, hsame⟩
      exact ⟨b, List.mem_of_mem_filter hb, hsame⟩
    · rintro ⟨b, hb, hsame⟩
      exact ⟨b, List.mem_filter.mpr ⟨hb, named_iff.mpr (hsame ▸ h)⟩, hsame⟩
  rw [if_congr hiff rfl rfl]

end Pool

namespace Method

variable {m m' : Method}

theorem body?_isSome : m.body?.isSome = m.code.isSome := Option.isSome_map

theorem beginEdit_code (h : m.beginEdit = .ok m') : m'.code.isSome = m.code.isSome := by
  rw [← body?_isSome, (beginEdit_ok h).2.2, body?_isSome]

theorem beginEdit_index (h : m.beginEdit = .ok m') : m'.index = m.index := by
  unfold beginEdit at h
  split at h
  next =>
    obtain ⟨a, -, h⟩ := except_bind_ok.mp h
    cases h
    rfl
  next => cases h; rfl

theorem validate_index (h : m.validate = .ok m') : m'.index = m.index := by
  rcases validate_iff.mp h with ⟨-, rfl⟩ | ⟨c, c', -, -, -, rfl⟩ <;> rfl

theorem validate_code (h : m.validate = .ok m') : m'.code.isSome = m.code.isSome := by
  rcases validate_iff.mp h with ⟨-, rfl⟩ | ⟨c, c', hc, -, -, rfl⟩
  · rfl
  · rw [hc]
    rfl

/-- Editing gives no method a body. -/
theorem Edited.code (h : m.Edited m') : m'.code.isSome = m.code.isSome := by
  induction h with
  | refl => rfl
  | begun _ hb ih => rw [beginEdit_code hb, ih]
  | changed b _ ih => rw [withBody, Option.isSome_map, ih]
  | validated _ hv ih => rw [validate_code hv, ih]

/-- An edited method keeps its place. -/
theorem Edited.index (h : m.Edited m') : m'.index = m.index := by
  induction h with
  | refl => rfl
  | begun _ hb ih => rw [beginEdit_index hb, ih]
  | changed b _ ih => rw [withBody, ih]
  | validated _ hv ih => rw [validate_index hv, ih]

end Method

namespace ClassModel

variable {c c' : ClassModel} {m : Method} {raw raw' : RawMember} {p : Pool}

/-- Edited methods go where they were read from. -/
theorem Edited.indexed {s : Bytes} (hc : ClassModel.parse s = .ok c) (hedit : c.Edited c') :
    c'.Indexed := by
  intro i m hm
  obtain ⟨m₀, hm₀, hedited⟩ := forall₂_get? hedit.methods.flip hm
  rw [hedited.index]
  exact parse_indexed hc i m₀ hm₀

/-- What an edited method is written as: its code has been set at the index of the name. -/
theorem finish_edited {f : ClassFile} {i : Nat} (hp : c.file.pool.Reached) (hc : c.Indexed) (hf : c.finish = .ok f)
    (hraw : c.file.methods[i]? = some raw) (hm : c.methods[i]? = some m) (hmod : m.isModified = true) :
    ∃ p code p' k, c.file.pool.Leads p ∧ m.encode p = (.ok (some code), p') ∧ p'.Leads f.pool ∧
      f.pool.index[Constant.utf8 AttributeKind.code.name]? = some k ∧
      f.methods[i]? =
        some { raw with attributes := Attribute.setIn ⟨k, code.write⟩ raw.attributes } := by
  obtain ⟨raw', p, p'', hget, hwritten, hl, hl''⟩ := finish_encoded hc hf hraw hm
  obtain hplain | @⟨code, k, p', _, -, hcode, hk⟩ := hwritten
  · cases hmod.symm.trans hplain
  have hl' := Method.encode_leads hcode
  obtain ⟨hlk, hindex, -⟩ := internUtf8_ok ((hl.trans hl').reached hp) hk
  exact ⟨p, code, p', k, hl, hcode, hlk.trans hl'', hl''.index hindex, hget⟩

/-- A method that was edited was read with a body. -/
theorem Edited.body_found {s : Bytes} {i : Nat} (hc : ClassModel.parse s = .ok c) (hedit : c.Edited c')
    (hm : c'.methods[i]? = some m) (hmod : m.isModified = true) : ∃ raw first,
      c.file.methods[i]? = some raw ∧
      c.file.pool.findAttribute AttributeKind.code.name raw.attributes = .ok (some first) := by
  obtain ⟨m₀, hm₀, hedited⟩ := forall₂_get? hedit.methods.flip hm
  obtain ⟨raw, hraw, hread⟩ := parse_method hc hm₀
  obtain ⟨-, found, hfound, hcode⟩ := Method.read_parts hread
  cases found with
  | some first => exact ⟨raw, first, hraw, hfound⟩
  | none =>
    have hnone : m.code.isSome = false := by
      rw [hedited.code, hcode]
      rfl
    rw [Method.isModified, Method.body?,
      Option.isNone_iff_eq_none.mp (Option.isSome_eq_false_iff.mp hnone)] at hmod
    cases hmod

/-- What a class with edited methods is read as again. The code of an edited method is put in the place of
the attribute that has the lowest index of the name, or behind all others. It is the code of the method
again if the first attribute of that name has the lowest index. If a pool holds the name twice and the
first attribute has the other index, the code is still what it was before the edits. -/
theorem edited_code {s bytes : Bytes} {i : Nat} (hc : ClassModel.parse s = .ok c) (hedit : c.Edited c')
    (hm : c'.methods[i]? = some m) (hmod : m.isModified = true) (hbytes : c'.toBytes = .ok bytes)
    (hfits : ∀ f, c'.finish = .ok f → f.Fits) :
    ∃ f raw raw' first least p code p' found,
      ClassFile.parse bytes = .ok f ∧ c.file.methods[i]? = some raw ∧ f.methods[i]? = some raw' ∧
      c.file.pool.Extends p ∧ m.encode p = (.ok (some code), p') ∧ p'.Extends f.pool ∧
      c.file.pool.findAttribute AttributeKind.code.name raw.attributes = .ok (some first) ∧
      c.file.pool.utf8 least = .ok AttributeKind.code.name ∧
      (∀ j, c.file.pool.utf8 j = .ok AttributeKind.code.name → least ≤ j) ∧
      found = (if first.name = least then ⟨least, code.write⟩ else first) ∧
      f.pool.findAttribute AttributeKind.code.name raw'.attributes = .ok (some found) ∧
      (f.pool.named AttributeKind.code.name raw'.attributes).length =
        (c.file.pool.named AttributeKind.code.name raw.attributes).length +
          (if ∃ b ∈ raw.attributes, b.name = least then 0 else 1) ∧
      ∀ c'', ClassModel.parse bytes = .ok c'' → ∃ m' code', c''.methods[i]? = some m' ∧
        m'.code = some code' ∧ MethodCode.read f.pool m'.entry found = .ok code' := by
  obtain ⟨hreach, hv⟩ := ClassFile.parse_ok (parse_parts hc).1
  obtain ⟨raw, first, hraw, hfirst⟩ := hedit.body_found hc hm hmod
  have hname := (findAttribute_some hfirst).2
  obtain ⟨least, hleast, -⟩ := hreach.lowest _ _ (constant_ok.mp (utf8_ok.mp hname))
  obtain ⟨htext, hlow⟩ := hreach.index_iff.mp hleast
  have hfile : c'.file = c.file := by rw [hedit.same]
  have hmodified : c'.isModified = true := by
    have hany : c'.methods.any Method.isModified = true :=
      List.any_eq_true.mpr ⟨m, List.mem_of_getElem? hm, hmod⟩
    rw [isModified, hany, Bool.or_true]
  rw [toBytes_modified hmodified] at hbytes
  obtain ⟨f, hf, rfl⟩ := except_map_ok hbytes
  obtain ⟨p, code, p', k, hl, hcode, hl', hk, hget⟩ :=
    finish_edited (hfile ▸ hreach) (hedit.indexed hc) hf (hfile ▸ hraw) hm hmod
  rw [hfile] at hl
  have hlf : c.file.pool.Leads f.pool := hl.trans ((Method.encode_leads hcode).trans hl')
  cases (hlf.index hleast).symm.trans hk
  have hold : c.file.pool.utf8 least = .ok AttributeKind.code.name := utf8_ok.mpr htext
  have hgrows : c.file.pool.Extends f.pool.settled := hlf.grows
  have hnew : f.pool.settled.utf8 least = .ok AttributeKind.code.name := hgrows.utf8 hold
  have hversion : f.version.isSupported = true := by
    obtain ⟨_, _, -, -, rfl⟩ := finish_ok hf
    rwa [hfile]
  have hparse := (hfits f hf).parse_write (hlf.reached hreach) hversion
  have hfound := findAttribute_setIn (a := ⟨least, code.write⟩) hgrows hfirst hnew
  have hmethod : (f.toClassContent.kept.methods)[i]? = some
      (RawMember.kept .ofMethod
        { raw with attributes := Attribute.setIn ⟨least, code.write⟩ raw.attributes }) := by
    rw [ClassContent.kept, List.getElem?_map, hget]
    rfl
  refine ⟨_, raw, _, first, least, p, code, p', _, hparse, hraw, hmethod, hl.grows, hcode, hl'.grows,
    hfirst, hold, fun j hj => hlow j (utf8_ok.mp hj), rfl, hfound, ?_, fun c'' hc'' => ?_⟩
  · rw [← named_leads hlf hreach hold raw.attributes]
    exact named_setIn (a := ⟨least, code.write⟩) hnew raw.attributes
  · have hfile'' := Except.ok.inj ((parse_parts hc'').1.symm.trans hparse)
    obtain ⟨m', hm', hread'⟩ := parse_member hc'' (by rw [hfile'']; exact hmethod)
    rw [hfile''] at hread'
    obtain ⟨-, found, hfound', hcode'⟩ := Method.read_parts hread'
    cases hfound.symm.trans hfound'
    obtain ⟨code', hcode', hsome⟩ := hcode'
    exact ⟨m', code', hm', hsome, hcode'⟩

end ClassModel

namespace TwiceNamed

/-- A class whose pool holds "Code" at two indices. The body of its method is under the second one. -/
def source : Bytes := [0xCA, 0xFE, 0xBA, 0xBE, 0, 0, 0, 52, 0, 9,
  1, 0, 16, 106, 97, 118, 97, 47, 108, 97, 110, 103, 47, 79, 98, 106, 101, 99, 116, 7, 0, 1,
  1, 0, 4, 67, 111, 100, 101, 1, 0, 4, 67, 111, 100, 101,
  1, 0, 1, 109, 1, 0, 3, 40, 41, 86, 1, 0, 3, 97, 47, 66, 7, 0, 7,
  0, 33, 0, 8, 0, 2, 0, 0, 0, 0, 0, 1, 0, 9, 0, 5, 0, 6, 0, 1, 0, 4, 0, 0, 0, 13,
  0, 0, 0, 0, 0, 0, 0, 1, 0xB1, 0, 0, 0, 0, 0, 0]

def body : Body := {
  Body.empty with
  entries := #[(⟨0⟩, .branch (.leave none))]
  nextId := 1
  version := 1 }

def method : Method := { Dropped.method with code := some ⟨body, 0, 0, none⟩ }

def raw : RawMember := ⟨9, 5, 6, [⟨4, [0, 0, 0, 0, 0, 0, 0, 1, 0xB1, 0, 0, 0, 0]⟩]⟩

def begun : Method := {
  method with code := some ⟨body, 0, 0, some (body.reachable ⟨#[some 0], 0, 0⟩)⟩ }

def longer : Body := {
  body with
  entries := #[(⟨1⟩, .insn .nop), (⟨0⟩, .branch (.leave none))]
  nextId := 2
  version := 2
  edits := #[⟨none, [⟨1⟩], [], 0, 0⟩] }

/-- What is seen of the class at once. -/
def Seen (c : ClassModel) : Prop :=
  c.methods = [method] ∧ c.file.methods = [raw] ∧ c.file.fields = [] ∧ c.file.interfaces = [] ∧
    c.file.attributes = [] ∧ c.file.pool.added = [] ∧ c.file.pool.slots.toList.take 4 =
      [none, some (.utf8 "java/lang/Object"), some (.classRef 1), some (.utf8 "Code")]

instance (c : ClassModel) : Decidable (Seen c) := inferInstanceAs (Decidable (_ ∧ _))

theorem parsed : ∃ c, ClassModel.parse source = .ok c ∧ Seen c := by
  have h : (ClassModel.parse source).toOption.any (fun c => decide (Seen c)) = true := by decide +kernel
  obtain ⟨c, hc, hseen⟩ := toOption_any.mp h
  exact ⟨c, hc, of_decide_eq_true hseen⟩

theorem begun_eq : method.beginEdit = .ok begun := by
  have ha : body.analyzeStack 0 = .ok ⟨#[some 0], 0, 0⟩ :=
    Body.analyzeStack_straight (s := ⟨#[some 0], 0, 0, []⟩) rfl rfl (by cbv) rfl
  have hs : method.parameterSlots = 0 := by cbv
  exact Method.beginEdit_first rfl (hs ▸ ha)

theorem longer_eq : body.editAll [.atStart [.insn .nop]] = .ok longer := by cbv

def edited : Method := begun.withBody longer

def code : CodeAttribute := ⟨0, 0, [0, 0xB1], [], []⟩

/-- A body without constants leaves every pool as it is. -/
theorem encoded (p : Pool) : edited.encode p = (.ok (some code), p) :=
  Method.encode_of_ok rfl (by decide) (by simp [longer, Body.nodes, Branch.Overruns]) rfl

section

variable {c : ClassModel}

theorem code_lowest (h : Seen c) : c.file.pool.constant 3 = .ok (.utf8 "Code") ∧
    ∀ j, c.file.pool.constant j = .ok (.utf8 "Code") → 3 ≤ j := by
  obtain ⟨-, -, -, -, -, -, hslots⟩ := h
  have hsplit : c.file.pool.slots.toList = [none, some (.utf8 "java/lang/Object"), some (.classRef 1)] ++
      some (.utf8 "Code") :: c.file.pool.slots.toList.drop 4 := by
    conv_lhs => rw [← List.take_append_drop 4 c.file.pool.slots.toList, hslots]
    rfl
  exact constant_first _ hsplit (by decide) (by decide)

theorem written (h : Seen c) (hp : c.file.pool.Reached) : ∃ f,
    { c with methods := [edited] }.finish = .ok f ∧ f.Fits := by
  obtain ⟨hcode, hlow⟩ := code_lowest h
  obtain ⟨-, hraw, hfields, hinterfaces, hattributes, hadded, -⟩ := h
  have hintern : internUtf8 AttributeKind.code.name c.file.pool = (.ok 3, c.file.pool) := by
    have hindex := hp.index_iff.mpr ⟨hcode, hlow⟩
    unfold internUtf8 intern
    rw [AttributeKind.name, hindex]
  let written : RawMember := { raw with attributes := Attribute.setIn ⟨3, code.write⟩ raw.attributes }
  have hmethod : ClassModel.encodeMethod [raw] edited c.file.pool = (.ok [written], c.file.pool) := by
    refine run_bind_ok.mpr ⟨some code, c.file.pool, encoded _, ?_⟩
    refine run_bind_ok.mpr ⟨⟨3, code.write⟩, c.file.pool, (Shadows.lift _).ok_iff.mpr ?_, rfl⟩
    exact run_bind_ok.mpr ⟨3, c.file.pool, hintern, rfl⟩
  refine ⟨{ c.file with methods := [written] },
    except_bind_ok.mpr ⟨([written], c.file.pool), complete_ok.mpr ?_, rfl⟩, ?_⟩
  · simp only [ClassModel.encodeMethods, hraw, List.foldlM_cons, List.foldlM_nil]
    exact run_bind_ok.mpr ⟨[written], c.file.pool, hmethod, rfl⟩
  · constructor
    · simp [hadded]
    · simp [hinterfaces]
    · simp [hfields]
    · simp
    · simp only [hfields, List.nil_append, List.mem_singleton]
      rintro m rfl
      decide
    · simp [hattributes, AttributesFit]

end

end TwiceNamed

open TwiceNamed in
/-- The code of the edited method is written under the first index of "Code", behind the code that is
read. -/
theorem TwiceNamed.edit_unread : ∃ c c' bytes f raw', ClassModel.parse source = .ok c ∧
    method.beginEdit = .ok begun ∧ body.editAll [.atStart [.insn .nop]] = .ok longer ∧
    c.Edited c' ∧ c'.methods = [begun.withBody longer] ∧ c'.toBytes = .ok bytes ∧
    ClassFile.parse bytes = .ok f ∧ f.methods[0]? = some raw' ∧
    f.pool.findAttribute AttributeKind.code.name raw'.attributes = .ok raw.attributes.head? ∧
    (f.pool.named AttributeKind.code.name raw'.attributes).length = 2 := by
  obtain ⟨c, hc, hseen⟩ := parsed
  have hp := (ClassFile.parse_ok (ClassModel.parse_parts hc).1).1
  obtain ⟨f, hf, hfits⟩ := written hseen hp
  obtain ⟨hcode, hlow⟩ := code_lowest hseen
  have hedit : c.Edited { c with methods := [edited] } := by
    refine ⟨rfl, ?_⟩
    rw [hseen.1]
    exact .cons (.changed longer (.begun .refl begun_eq)) .nil
  have hbytes : { c with methods := [edited] }.toBytes = .ok f.write := by
    have hmodified : { c with methods := [edited] }.isModified = true := Bool.or_true _
    rw [ClassModel.toBytes_modified hmodified, hf]
    rfl
  obtain ⟨g, raw₀, raw', first, least, p, _, p', found, hparse, hraw, hraw', -, -, -, hfirst, hleast,
    hmin, hfound, hread, hcount, -⟩ := ClassModel.edited_code hc hedit (i := 0) rfl rfl hbytes
      fun f' hf' => by cases hf.symm.trans hf'; exact hfits
  rw [hseen.2.1] at hraw
  cases hraw
  obtain ⟨hmem, hname⟩ := findAttribute_some hfirst
  cases List.mem_singleton.mp hmem
  cases UInt16.le_antisymm (hmin 3 (utf8_ok.mpr hcode)) (hlow least (utf8_ok.mp hleast))
  have hone : c.file.pool.named AttributeKind.code.name raw.attributes = raw.attributes :=
    List.filter_cons_of_pos (named_iff.mpr hname)
  refine ⟨c, _, f.write, g, raw', hc, begun_eq, longer_eq, hedit, rfl, hbytes, hparse, hraw', ?_, ?_⟩
  · rw [hread, hfound]
    rfl
  · rw [hcount, hone]
    rfl

end ClassGraft
