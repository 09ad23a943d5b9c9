import ClassGraft.Proofs.CheckedEncoding
import ClassGraft.Proofs.ClassChanges

namespace ClassGraft

open Pool

namespace Method

variable {m : Method} {p q : Pool}

theorem encode_leads {x : Option CodeAttribute} (h : m.encode p = (.ok x, q)) : p.Leads q := by
  unfold encode at h
  cases hcode : m.code with
  | none =>
    rw [hcode] at h
    cases h
    exact .refl
  | some c =>
    rw [hcode] at h
    obtain ⟨code, r, hcode, h⟩ := run_bind_ok.mp h
    cases h
    exact (c.body.encode_interns c.maxStack c.maxLocals m.entry).run (Body.encodeChecked_ok hcode)

/-- A method is encoded as its body is, unless a table stops it. -/
theorem encode_of_ok {c : MethodCode} {code : CodeAttribute} (hc : m.code = some c)
    (hroom : c.body.room < 2 ^ 64) (hplain : ∀ br, Node.branch br ∈ c.body.nodes → ¬br.Overruns)
    (h : c.body.encode c.maxStack c.maxLocals m.entry p = (.ok code, q)) :
    m.encode p = (.ok (some code), q) := by
  unfold encode
  rw [hc]
  exact run_bind_ok.mpr ⟨code, q, Body.encodeChecked_of_ok hroom hplain h, rfl⟩

/-- A method that was edited has a body, so that there is something to encode. -/
theorem encode_modified {x : Option CodeAttribute} (hm : m.isModified = true)
    (h : m.encode p = (.ok x, q)) : ∃ code, x = some code := by
  unfold encode at h
  cases hcode : m.code with
  | none =>
    rw [isModified, body?, hcode] at hm
    cases hm
  | some c =>
    rw [hcode] at h
    obtain ⟨code, r, -, h⟩ := run_bind_ok.mp h
    cases h
    exact ⟨code, rfl⟩

/-- The encoding of an edited method is stopped by a table in its body. -/
theorem encode_stops (hroom : ∀ b, m.body? = some b → b.room < 2 ^ 64) :
    (∃ h q, Halt.IsStop h ∧ m.encode p = (.error h, q)) ↔ ∃ b, m.body? = some b ∧ b.Overruns p := by
  unfold encode
  cases hcode : m.code with
  | none =>
    refine iff_of_false ?_ ?_
    · rintro ⟨h, q, -, hrun⟩
      cases hrun
    · rintro ⟨b, hb, -⟩
      rw [body?, hcode] at hb
      cases hb
  | some c =>
    have hbody : m.body? = some c.body := by
      rw [body?, hcode]
      rfl
    have hstops := Body.encodeChecked_stops (p := p) (hroom _ hbody) c.maxStack c.maxLocals m.entry
    simp only [hbody, Option.some.injEq, exists_eq_left', ← hstops, run_bind_error]
    refine exists₂_congr fun h q => and_congr_right fun _ => or_iff_left ?_
    rintro ⟨code, r, -, hpure⟩
    cases hpure

end Method

namespace ClassModel

variable {c : ClassModel} {f : ClassFile} {m : Method} {raw raw' : RawMember} {raws raws' : List RawMember}
  {p q : Pool}

/-- What a method is written as in the place of a member: as that was read, or with the code of its edited
body at the index of the name. -/
inductive Encodes (m : Method) (raw : RawMember) (p : Pool) : RawMember → Pool → Prop
  | kept : m.isModified = false → Encodes m raw p raw p
  | coded {code : CodeAttribute} {i : PoolIndex} {r q : Pool} : m.isModified = true →
      m.encode p = (.ok (some code), r) → internUtf8 AttributeKind.code.name r = (.ok i, q) →
      Encodes m raw p { raw with attributes := Attribute.setIn ⟨i, code.write⟩ raw.attributes } q

theorem encodeMethod_unmodified (hm : m.isModified = false) (raws : List RawMember) :
    encodeMethod raws m = pure raws := by
  unfold encodeMethod
  rw [hm]
  rfl

theorem encodeMethod_modified (hm : m.isModified = true) (h : encodeMethod raws m p = (.ok raws', q)) :
    ∃ raw raw', raws[m.index]? = some raw ∧ Encodes m raw p raw' q ∧ raws' = raws.set m.index raw' := by
  unfold encodeMethod at h
  rw [if_pos hm] at h
  obtain ⟨x, r, hx, h⟩ := run_bind_ok.mp h
  obtain ⟨code, rfl⟩ := m.encode_modified hm hx
  obtain ⟨a, r', ha, h⟩ := run_bind_ok.mp h
  obtain ⟨i, r'', hi, ha⟩ := run_bind_ok.mp ((Shadows.lift _).ok_iff.mp ha)
  cases ha
  cases hraw : raws[m.index]? with
  | none =>
    rw [hraw] at h
    cases h
  | some raw =>
    rw [hraw] at h
    cases h
    exact ⟨raw, _, rfl, .coded hm hx hi, rfl⟩

theorem Encodes.leads (h : Encodes m raw p raw' q) : p.Leads q := by
  cases h with
  | kept => exact .refl
  | coded _ hcode hi => exact (Method.encode_leads hcode).trans ((internUtf8_interns _).run hi)

/-- A method changes the member at its place only. -/
theorem encodeMethod_ok (h : encodeMethod raws m p = (.ok raws', q)) :
    raws'.length = raws.length ∧ p.Leads q ∧ (∀ i, i ≠ m.index → raws'[i]? = raws[i]?) ∧
      ∀ raw, raws[m.index]? = some raw → ∃ raw', raws'[m.index]? = some raw' ∧ Encodes m raw p raw' q := by
  cases hm : m.isModified with
  | false =>
    rw [encodeMethod_unmodified hm] at h
    cases h
    exact ⟨rfl, .refl, fun _ _ => rfl, fun raw hraw => ⟨raw, hraw, .kept hm⟩⟩
  | true =>
    obtain ⟨raw, raw', hraw, hencoded, rfl⟩ := encodeMethod_modified hm h
    obtain ⟨hi, -⟩ := List.getElem?_eq_some_iff.mp hraw
    refine ⟨List.length_set, hencoded.leads, fun i hne => List.getElem?_set_ne hne.symm, fun raw₀ hraw₀ => ?_⟩
    cases hraw.symm.trans hraw₀
    exact ⟨raw', List.getElem?_set_self hi, hencoded⟩

/-- Methods that go to places from `k` on are written there in turn, while the pool grows. -/
theorem foldlM_encodes {ms : List Method} {k : Nat} (h : ms.foldlM encodeMethod raws p = (.ok raws', q)) :
    raws'.length = raws.length ∧ p.Leads q ∧
      ((∀ i m, ms[i]? = some m → m.index = k + i) → (∀ i, i < k → raws'[i]? = raws[i]?) ∧
        ∀ i m raw, ms[i]? = some m → raws[k + i]? = some raw → ∃ raw' r r', raws'[k + i]? = some raw' ∧
          Encodes m raw r raw' r' ∧ p.Leads r ∧ r'.Leads q) := by
  induction ms generalizing raws p k with
  | nil =>
    cases h
    exact ⟨rfl, .refl, fun _ => ⟨fun _ _ => rfl, fun i m raw hm => nomatch hm⟩⟩
  | cons m ms ih =>
    rw [List.foldlM_cons] at h
    obtain ⟨raws₁, r, hfirst, h⟩ := run_bind_ok.mp h
    obtain ⟨hlength, hl, hothers, hplace⟩ := encodeMethod_ok hfirst
    obtain ⟨hlength', hl', hrest⟩ := ih (k := k + 1) h
    refine ⟨hlength'.trans hlength, hl.trans hl', fun hindex => ?_⟩
    have hm : m.index = k := hindex 0 m rfl
    obtain ⟨hbelow, habove⟩ := hrest fun i m' hm' => by
      rw [hindex (i + 1) m' hm']
      omega
    refine ⟨fun i hi => (hbelow i (by omega)).trans (hothers i (by omega)), fun i m' raw hm' hraw => ?_⟩
    cases i with
    | zero =>
      cases hm'
      obtain ⟨raw', hraw', hencoded⟩ := hplace raw (hm ▸ hraw)
      refine ⟨raw', p, r, ?_, hencoded, .refl, hl'⟩
      rw [Nat.add_zero, hbelow k (by omega), ← hm]
      exact hraw'
    | succ i =>
      have hshift : k + (i + 1) = k + 1 + i := by omega
      rw [hshift] at hraw ⊢
      obtain ⟨raw', r₁, r₂, hraw', hencoded, hl₁, hl₂⟩ :=
        habove i m' raw hm' ((hothers _ (by omega)).trans hraw)
      exact ⟨raw', r₁, r₂, hraw', hencoded, hl.trans hl₁, hl₂⟩

theorem toBytes_modified (h : c.isModified = true) : c.toBytes = c.finish.map ClassFile.write := by
  rw [toBytes, if_pos h]
  cases c.finish <;> rfl

/-- Only the methods and the pool are not as they were in the class. -/
theorem finish_ok (h : c.finish = .ok f) : ∃ methods p, c.encodeMethods c.file.pool = (.ok methods, p) ∧
    c.file.pool.Leads p ∧ f = { c.file with methods, pool := p } := by
  obtain ⟨⟨methods, p⟩, hm, h⟩ := except_bind_ok.mp h
  cases h
  have hrun := complete_ok.mp hm
  exact ⟨methods, p, hrun, (foldlM_encodes (k := 0) hrun).2.1, rfl⟩

theorem finish_length (h : c.finish = .ok f) : f.methods.length = c.file.methods.length := by
  obtain ⟨methods, p, hrun, -, rfl⟩ := finish_ok h
  exact (foldlM_encodes (k := 0) hrun).1

/-- Each method goes to the place that it has among the methods. -/
def Indexed (c : ClassModel) : Prop := ∀ (i : Nat) (m : Method), c.methods[i]? = some m → m.index = i

theorem parse_indexed {s : Bytes} (h : ClassModel.parse s = .ok c) : c.Indexed := by
  intro i m hm
  obtain ⟨raw, -, hread⟩ := parse_method h hm
  exact Method.read_index hread

theorem finish_encoded {i : Nat} (hc : c.Indexed) (hf : c.finish = .ok f)
    (hraw : c.file.methods[i]? = some raw) (hm : c.methods[i]? = some m) :
    ∃ raw' r r', f.methods[i]? = some raw' ∧ Encodes m raw r raw' r' ∧ c.file.pool.Leads r ∧
      r'.Leads f.pool := by
  obtain ⟨methods, q, hrun, -, rfl⟩ := finish_ok hf
  have hplaced := (foldlM_encodes (k := 0) hrun).2.2 fun i m hm => (hc i m hm).trans (Nat.zero_add i).symm
  have hat := hplaced.2 i m raw hm
  rw [Nat.zero_add] at hat
  exact hat hraw

/-- Behind some methods one is come to that is not written: its body holds a table whose last key is not
computed, or no member is at its place. -/
def Stops (c : ClassModel) : Prop :=
  ∃ before m behind raws p, c.methods = before ++ m :: behind ∧
    before.foldlM encodeMethod c.file.methods c.file.pool = (.ok raws, p) ∧ m.isModified = true ∧
    ((∃ b, m.body? = some b ∧ b.Overruns p) ∨
      c.file.methods.length ≤ m.index ∧ ∃ code q i r, m.encode p = (.ok (some code), q) ∧
        internUtf8 AttributeKind.code.name q = (.ok i, r))

theorem encodeMethod_stops (hroom : ∀ b, m.body? = some b → b.room < 2 ^ 64) :
    (∃ h q, Halt.IsStop h ∧ encodeMethod raws m p = (.error h, q)) ↔ m.isModified = true ∧
      ((∃ b, m.body? = some b ∧ b.Overruns p) ∨
        raws.length ≤ m.index ∧ ∃ code q i r, m.encode p = (.ok (some code), q) ∧
          internUtf8 AttributeKind.code.name q = (.ok i, r)) := by
  cases hm : m.isModified with
  | false =>
    rw [encodeMethod_unmodified hm]
    exact iff_of_false (fun ⟨_, _, _, hrun⟩ => nomatch hrun) fun ⟨hm, _⟩ => nomatch hm
  | true =>
    rw [← Method.encode_stops hroom]
    unfold encodeMethod
    rw [if_pos hm]
    constructor
    · rintro ⟨h, q, hstop, hrun⟩
      refine ⟨rfl, ?_⟩
      rcases run_bind_error.mp hrun with hcode | ⟨x, r, hx, hrun⟩
      · exact .inl ⟨h, q, hstop, hcode⟩
      · obtain ⟨code, rfl⟩ := m.encode_modified hm hx
        rcases run_bind_error.mp hrun with hintern | ⟨a, r', ha, hrun⟩
        · obtain ⟨e, -, rfl⟩ := (Shadows.lift _).error_iff.mp hintern
          exact hstop.elim
        · obtain ⟨i, r'', hi, ha⟩ := run_bind_ok.mp ((Shadows.lift _).ok_iff.mp ha)
          cases hraw : raws[m.index]? with
          | none => exact .inr ⟨List.getElem?_eq_none_iff.mp hraw, code, r, i, r'', hx, hi⟩
          | some raw =>
            rw [hraw] at hrun
            cases hrun
    · rintro ⟨-, ⟨h, q, hstop, hcode⟩ | ⟨hlength, code, q, i, r, hcode, hi⟩⟩
      · exact ⟨h, q, hstop, run_bind_error.mpr (.inl hcode)⟩
      · refine ⟨.range, r, trivial, run_bind_error.mpr (.inr ⟨some code, q, hcode, ?_⟩)⟩
        refine run_bind_error.mpr (.inr ⟨⟨i, code.write⟩, r, ?_, ?_⟩)
        · exact (Shadows.lift _).ok_iff.mpr (run_bind_ok.mpr ⟨i, r, hi, rfl⟩)
        · rw [List.getElem?_eq_none_iff.mpr hlength]
          rfl

/-- The writing of a class is stopped by one of its methods. -/
theorem finish_stops (hroom : ∀ m ∈ c.methods, ∀ b, m.body? = some b → b.room < 2 ^ 64) :
    (∃ h, Halt.IsStop h ∧ c.finish = .error h) ↔ c.Stops := by
  have hfinish (h : Halt ClassError) :
      c.finish = .error h ↔ ∃ q, c.encodeMethods c.file.pool = (.error h, q) := by
    rw [finish, except_bind_error, complete_error]
    exact or_iff_left fun ⟨_, _, hpure⟩ => nomatch hpure
  simp only [hfinish, encodeMethods, run_foldlM_error]
  constructor
  · rintro ⟨h, hstop, q, before, m, behind, raws, r, hsplit, hbefore, hm⟩
    have hmem : m ∈ c.methods := by simp [hsplit]
    obtain ⟨hmod, hwhy⟩ := (encodeMethod_stops (hroom m hmem)).mp ⟨h, q, hstop, hm⟩
    rw [(foldlM_encodes (k := 0) hbefore).1] at hwhy
    exact ⟨before, m, behind, raws, r, hsplit, hbefore, hmod, hwhy⟩
  · rintro ⟨before, m, behind, raws, r, hsplit, hbefore, hmod, hwhy⟩
    have hmem : m ∈ c.methods := by simp [hsplit]
    rw [← (foldlM_encodes (k := 0) hbefore).1] at hwhy
    obtain ⟨h, q, hstop, hm⟩ := (encodeMethod_stops (hroom m hmem)).mpr ⟨hmod, hwhy⟩
    exact ⟨h, hstop, q, before, m, behind, raws, r, hsplit, hbefore, hm⟩

end ClassModel

end ClassGraft
