import ClassGraft.ClassModel
import ClassGraft.Proofs.PoolLookup

namespace ClassGraft

namespace MethodCode

variable {c c' : MethodCode} {a : StackAnalysis} {parameters : Nat} {entry : Option Frame}
  {owner : BinaryName} {body : Body}

theorem check_ok : c.check parameters = .ok a ↔ c.body.checkNeutral = .ok () ∧
    c.body.checkLabels = .ok () ∧ c.body.analyzeStack parameters = .ok a ∧
      ∀ before, c.reachableBefore = some before → c.body.checkReachable before a = .ok () := by
  unfold check
  cases c.reachableBefore with
  | none =>
    simp only [except_bind_ok]
    constructor
    · rintro ⟨_, hn, _, hl, a, ha, h⟩
      cases h
      exact ⟨hn, hl, ha, fun before hb => by cases hb⟩
    · rintro ⟨hn, hl, ha, -⟩
      exact ⟨(), hn, (), hl, a, ha, rfl⟩
  | some before =>
    simp only [except_bind_ok]
    constructor
    · rintro ⟨_, hn, _, hl, a, ha, _, hr, h⟩
      cases h
      exact ⟨hn, hl, ha, fun before hb => Option.some.inj hb ▸ hr⟩
    · rintro ⟨hn, hl, ha, hr⟩
      exact ⟨(), hn, (), hl, a, ha, (), hr before rfl, rfl⟩

theorem read_body {pool : Pool} {a : Attribute} (h : MethodCode.read pool entry a = .ok c) :
    ∃ code, Body.ofCode pool entry code = .ok c.body := by
  obtain ⟨code, -, h⟩ := except_bind_ok.mp h
  obtain ⟨b, hb, h⟩ := except_bind_ok.mp h
  cases h
  exact ⟨code, hb⟩

/-- The frames that validation leaves: without an entry frame those there are, and else those that
inference completes. -/
def Framed (c : MethodCode) (entry : Option Frame) (owner : BinaryName) (body : Body) : Prop :=
  entry = none ∧ body = c.body ∨ ∃ e n, entry = some e ∧ c.body.inferFrames e owner = .ok (n, body)

theorem validate_iff : c.validate parameters entry owner = .ok c' ↔
    ∃ a body, c.check parameters = .ok a ∧ max a.maxStack c.maxStack.toNat ≤ 65535 ∧
      max a.maxLocals c.maxLocals.toNat ≤ 65535 ∧ c.Framed entry owner body ∧
      c' = ⟨body, (max a.maxStack c.maxStack.toNat).toUInt16,
        (max a.maxLocals c.maxLocals.toNat).toUInt16, c.reachableBefore⟩ := by
  constructor
  · intro h
    obtain ⟨a, ha, h⟩ := except_bind_ok.mp h
    dsimp only at h
    split at h
    next => cases h
    next hs =>
      split at h
      next => cases h
      next hl =>
        cases entry with
        | none =>
          cases h
          exact ⟨a, c.body, ha, Nat.le_of_not_lt hs, Nat.le_of_not_lt hl, .inl ⟨rfl, rfl⟩, rfl⟩
        | some e =>
          obtain ⟨⟨n, body⟩, hinfer, h⟩ := except_bind_ok.mp h
          cases h
          exact ⟨a, body, ha, Nat.le_of_not_lt hs, Nat.le_of_not_lt hl, .inr ⟨e, n, rfl, hinfer⟩, rfl⟩
  · rintro ⟨a, body, ha, hs, hl, hbody, rfl⟩
    refine except_bind_ok.mpr ⟨a, ha, ?_⟩
    dsimp only
    rw [if_neg (Nat.not_lt.mpr hs), if_neg (Nat.not_lt.mpr hl)]
    rcases hbody with ⟨rfl, rfl⟩ | ⟨e, n, rfl, hinfer⟩
    · rfl
    · exact except_bind_ok.mpr ⟨(n, body), hinfer, rfl⟩

/-- Limits that are kept stay as they are. -/
theorem validate_within (ha : c.check parameters = .ok a) (hs : a.maxStack ≤ c.maxStack.toNat)
    (hl : a.maxLocals ≤ c.maxLocals.toNat) (hbody : c.Framed entry owner body) :
    c.validate parameters entry owner = .ok { c with body } := by
  have hs' : c.maxStack.toNat ≤ 65535 := Nat.le_of_lt_succ c.maxStack.toNat_lt
  have hl' : c.maxLocals.toNat ≤ 65535 := Nat.le_of_lt_succ c.maxLocals.toNat_lt
  refine validate_iff.mpr ⟨a, body, ha, Nat.max_le.mpr ⟨Nat.le_trans hs hs', hs'⟩,
    Nat.max_le.mpr ⟨Nat.le_trans hl hl', hl'⟩, hbody, ?_⟩
  rw [Nat.max_eq_right hs, Nat.max_eq_right hl, Nat.toUInt16_eq, Nat.toUInt16_eq, UInt16.ofNat_toNat,
    UInt16.ofNat_toNat]

end MethodCode

namespace Method

variable {m m' : Method} {b : Body} {pool p p' : Pool} {owner : BinaryName} {hasFrames : Bool}
  {raw : RawMember} {index : Nat}

/-- A method is read with the entry frame that its flags, its name and its type ask for, and with a body
from the first attribute of its name. -/
theorem read_parts (h : Method.read pool owner hasFrames raw index = .ok m) :
    (∃ isConstructor, m.entry = if hasFrames then
      some (.entry owner (Flags.isStatic raw.flags) isConstructor m.type) else none) ∧
    ∃ found, pool.findAttribute AttributeKind.code.name raw.attributes = .ok found ∧
      match found with
      | none => m.code = none
      | some a => ∃ code, MethodCode.read pool m.entry a = .ok code ∧ m.code = some code := by
  obtain ⟨text, -, h⟩ := except_bind_ok.mp h
  obtain ⟨name, -, h⟩ := except_bind_ok.mp h
  obtain ⟨descriptor, -, h⟩ := except_bind_ok.mp h
  obtain ⟨type, -, h⟩ := except_bind_ok.mp h
  obtain ⟨found, hfound, h⟩ := except_bind_ok.mp h
  cases found with
  | none =>
    cases h
    exact ⟨⟨decide (name = MemberName.init), rfl⟩, none, hfound, rfl⟩
  | some a =>
    obtain ⟨code, hcode, h⟩ := except_bind_ok.mp h
    cases h
    exact ⟨⟨decide (name = MemberName.init), rfl⟩, some a, hfound, code, hcode, rfl⟩

/-- A method keeps the position that it was read from. -/
theorem read_index (h : Method.read pool owner hasFrames raw index = .ok m) : m.index = index := by
  obtain ⟨text, -, h⟩ := except_bind_ok.mp h
  obtain ⟨name, -, h⟩ := except_bind_ok.mp h
  obtain ⟨descriptor, -, h⟩ := except_bind_ok.mp h
  obtain ⟨type, -, h⟩ := except_bind_ok.mp h
  obtain ⟨found, -, h⟩ := except_bind_ok.mp h
  cases found with
  | none => cases h; rfl
  | some a =>
    obtain ⟨code, -, h⟩ := except_bind_ok.mp h
    cases h
    rfl

theorem beginEdit_ok (h : m.beginEdit = .ok m') :
    m'.entry = m.entry ∧ m'.owner = m.owner ∧ m'.body? = m.body? := by
  unfold beginEdit at h
  split at h
  next body maxStack maxLocals hcode =>
    obtain ⟨a, -, h⟩ := except_bind_ok.mp h
    cases h
    refine ⟨rfl, rfl, ?_⟩
    rw [body?, body?, hcode]
    rfl
  next => cases h; exact ⟨rfl, rfl, rfl⟩

/-- Before the first edit it is recorded what can be reached. -/
theorem beginEdit_first {maxStack maxLocals : UInt16} {a : StackAnalysis}
    (hc : m.code = some ⟨b, maxStack, maxLocals, none⟩)
    (ha : b.analyzeStack m.parameterSlots = .ok a) :
    m.beginEdit = .ok { m with code := some ⟨b, maxStack, maxLocals, some (b.reachable a)⟩ } := by
  unfold beginEdit
  rw [hc]
  exact except_bind_ok.mpr ⟨a, ha, rfl⟩

theorem isModified_eq {c : MethodCode} (hc : m.code = some c) : m.isModified = c.body.isModified := by
  rw [isModified, body?, hc]
  rfl

/-- What was not edited is not looked at. -/
theorem validate_unmodified (h : m.isModified = false) : m.validate = .ok m := by
  unfold validate
  split
  next c hc =>
    rw [isModified_eq hc] at h
    rw [if_neg (by simp [h])]
  next => rfl

theorem validate_modified {c : MethodCode} (hc : m.code = some c) (h : c.body.isModified = true) :
    m.validate = c.validate m.parameterSlots m.entry m.owner >>= fun c' =>
      .ok { m with code := some c' } := by
  unfold validate
  rw [hc]
  exact if_pos h

theorem validate_iff : m.validate = .ok m' ↔ m.isModified = false ∧ m' = m ∨
    ∃ c c', m.code = some c ∧ c.body.isModified = true ∧
      c.validate m.parameterSlots m.entry m.owner = .ok c' ∧ m' = { m with code := some c' } := by
  constructor
  · intro h
    cases hm : m.isModified with
    | false =>
      rw [validate_unmodified hm] at h
      exact .inl ⟨rfl, (Except.ok.inj h).symm⟩
    | true =>
      cases hc : m.code with
      | none =>
        rw [isModified, body?, hc] at hm
        cases hm
      | some c =>
        rw [isModified_eq hc] at hm
        rw [validate_modified hc hm] at h
        obtain ⟨c', hc', h⟩ := except_bind_ok.mp h
        exact .inr ⟨c, c', rfl, hm, hc', (Except.ok.inj h).symm⟩
  · rintro (⟨hm, rfl⟩ | ⟨c, c', hc, hm, hc', rfl⟩)
    · exact validate_unmodified hm
    · rw [validate_modified hc hm]
      exact except_bind_ok.mpr ⟨c', hc', rfl⟩

theorem isModified_of_invalid {cause : ClassError} (h : m.validate = .error cause) :
    m.isModified = true := by
  cases hm : m.isModified with
  | true => rfl
  | false =>
    rw [validate_unmodified hm] at h
    cases h

/-- Validation that finds the limits kept changes nothing but the body. -/
theorem validate_within {c : MethodCode} {entry : Frame} {a : StackAnalysis} {before : List NodeId}
    {count : Nat} (hc : m.code = some c) (hmodified : c.body.isModified = true)
    (he : m.entry = some entry) (hneutral : c.body.checkNeutral = .ok ())
    (hlabels : c.body.checkLabels = .ok ()) (ha : c.body.analyzeStack m.parameterSlots = .ok a)
    (hbefore : c.reachableBefore = some before) (hreach : c.body.checkReachable before a = .ok ())
    (hstack : a.maxStack ≤ c.maxStack.toNat) (hlocals : a.maxLocals ≤ c.maxLocals.toNat)
    (hi : c.body.inferFrames entry m.owner = .ok (count, b)) :
    m.validate = .ok (m.withBody b) := by
  have hcheck : c.check m.parameterSlots = .ok a :=
    MethodCode.check_ok.mpr ⟨hneutral, hlabels, ha, fun _ hb =>
      Option.some.inj (hb.symm.trans hbefore) ▸ hreach⟩
  refine validate_iff.mpr (.inr ⟨c, { c with body := b }, hc, hmodified,
    MethodCode.validate_within hcheck hstack hlocals (.inr ⟨entry, count, he, hi⟩), ?_⟩)
  rw [withBody, hc]
  rfl

theorem encode_ok {code : CodeAttribute} (hb : m.body? = some b)
    (h : m.encode p = (.ok (some code), p')) :
    ∃ maxStack maxLocals, b.encodeChecked maxStack maxLocals m.entry p = (.ok code, p') := by
  obtain ⟨c, hc, rfl⟩ := Option.map_eq_some_iff.mp hb
  unfold Method.encode at h
  rw [hc] at h
  obtain ⟨code', p'', hcode, h⟩ := Pool.run_bind_ok.mp h
  cases h
  exact ⟨c.maxStack, c.maxLocals, hcode⟩

end Method

namespace ClassModel

variable {s : Bytes} {c : ClassModel}

/-- What has been read of a class. -/
theorem parse_parts (h : ClassModel.parse s = .ok c) :
    ClassFile.parse s = .ok c.file ∧ c.source = s ∧ c.membersModified = false ∧
      (c.file.methods.zipIdx.mapM fun x =>
        Method.read c.file.pool c.name c.file.version.hasFrames x.1 x.2) = .ok c.methods := by
  unfold ClassModel.parse at h
  obtain ⟨file, hf, h⟩ := except_bind_ok.mp h
  obtain ⟨text, -, h⟩ := except_bind_ok.mp h
  obtain ⟨name, -, h⟩ := except_bind_ok.mp h
  obtain ⟨methods, hm, h⟩ := except_bind_ok.mp h
  obtain ⟨fields, -, h⟩ := except_bind_ok.mp h
  cases h
  exact ⟨hf, rfl, rfl, hm⟩

theorem parse_length (h : ClassModel.parse s = .ok c) : c.methods.length = c.file.methods.length := by
  rw [← (mapM_ok_iff.mp (parse_parts h).2.2.2).length_eq, List.length_zipIdx]

/-- Each member is read as the method at its place. -/
theorem parse_member (h : ClassModel.parse s = .ok c) {i : Nat} {raw : RawMember}
    (hraw : c.file.methods[i]? = some raw) : ∃ m, c.methods[i]? = some m ∧
      Method.read c.file.pool c.name c.file.version.hasFrames raw i = .ok m := by
  have hplaced : c.file.methods.zipIdx[i]? = some (raw, i) := by
    rw [List.getElem?_zipIdx, hraw, Option.map_some, Nat.zero_add]
  exact forall₂_get? (mapM_ok_iff.mp (parse_parts h).2.2.2) hplaced

theorem parse_method (h : ClassModel.parse s = .ok c) {i : Nat} {m : Method} (hm : c.methods[i]? = some m) :
    ∃ raw, c.file.methods[i]? = some raw ∧
      Method.read c.file.pool c.name c.file.version.hasFrames raw i = .ok m := by
  obtain ⟨x, hx, hread⟩ := forall₂_get? (mapM_ok_iff.mp (parse_parts h).2.2.2).flip hm
  rw [List.getElem?_zipIdx, Nat.zero_add] at hx
  obtain ⟨raw, hraw, rfl⟩ := Option.map_eq_some_iff.mp hx
  exact ⟨raw, hraw, hread⟩

end ClassModel

end ClassGraft
