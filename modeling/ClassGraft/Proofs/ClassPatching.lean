import ClassGraft.Proofs.ClassEdits

namespace ClassGraft

open Pool

namespace ClassModel

variable {c c' : ClassModel} {x : Change} {xs : List Change} {p q : Pool} {fields : List RawMember}
  {attributes : List Attribute}

/-- What a method is written as: as it was read, or with the code of its edited body set. -/
inductive Rewrites (q : Pool) (m : Method) (raw : RawMember) : RawMember → Prop
  | kept : m.isModified = false → Rewrites q m raw raw
  | coded {k : PoolIndex} {p p' : Pool} {code : CodeAttribute} {attributes : List Attribute} :
      m.isModified = true → m.encode p = (.ok (some code), p') → p'.Extends q →
      q.Least AttributeKind.code.name k → Attribute.Puts ⟨k, code.write⟩ raw.attributes attributes →
      Rewrites q m raw { raw with attributes }

/-- A class file around some changes to a class that was read from some bytes. Everything is as it was, but
for what the changes name: fields come behind those that there were, only the attributes that are set
differ from those before, and of an edited method only the code. Constants keep their indices and their
very bytes. -/
structure Around (s : Bytes) (c : ClassModel) (xs : List Change) (c' : ClassModel) (bytes : Bytes)
    (f : ClassFile) : Prop where
  version : f.version = c.file.version
  flags : f.flags = c.file.flags
  thisClass : f.thisClass = c.file.thisClass
  superClass : f.superClass = c.file.superClass
  interfaces : f.interfaces = c.file.interfaces
  constants : ∀ i k, c.file.pool.constant i = .ok k → f.pool.constant i = .ok k ∧
    ∃ bs, entryBytes? (s.drop 10) i = some bs ∧ entryBytes? (bytes.drop 10) i = some bs
  fields : ∃ added, f.fields = c.file.fields ++ added ∧
    List.Forall₂ (fun d m => Declares f.pool { d with flags := FlagOwner.ofField.keep d.flags } m)
      (xs.filterMap Change.field?) added
  attributes : ∃ new, List.Forall₂ (Sets f.pool) (xs.filterMap Change.attribute?) new ∧
    (f.attributes.filter fun a => a.name ∉ new.map Attribute.name) =
      (c.file.attributes.filter fun a => a.name ∉ new.map Attribute.name) ∧
    ∀ i, f.attributes.find? (·.name == i) =
      (new.reverse.find? (·.name == i)).or (c.file.attributes.find? (·.name == i))
  count : f.methods.length = c.file.methods.length
  untouched : ∀ i, (∀ x ∈ xs, x.position? ≠ some i) → f.methods[i]? = c.file.methods[i]?
  methods : ∀ (i : Nat) (raw : RawMember), c.file.methods[i]? = some raw → ∃ m raw',
    c'.methods[i]? = some m ∧ f.methods[i]? = some raw' ∧ Rewrites f.pool m raw raw'

theorem Rewrites.read {o : FlagOwner} {m : Method} {raw raw' : RawMember} (h : Rewrites q m raw raw')
    (hraw : raw.kept o = raw) : raw'.kept o = raw' := by
  have hflags : o.keep raw.flags = raw.flags := congrArg RawMember.flags hraw
  cases h with
  | kept => exact hraw
  | coded => rw [RawMember.kept, hflags]

theorem Declares.read {d : Field} {m : RawMember} (h : Declares p d m) :
    Declares p.settled { d with flags := FlagOwner.ofField.keep d.flags } (m.kept .ofField) :=
  ⟨congrArg FlagOwner.ofField.keep h.flags, h.name, h.type, h.attributes⟩

theorem Sets.read {x : String × Bytes} {a : Attribute} (h : Sets p x a) : Sets p.settled x a :=
  ⟨h.name, h.info⟩

theorem Rewrites.of_encodes {m : Method} {raw raw' : RawMember} {r r' : Pool} (hr : r.Reached)
    (h : Encodes m raw r raw' r') (hl : r'.Leads q) : Rewrites q.settled m raw raw' := by
  obtain hm | @⟨code, k, p, _, hm, hcode, hk⟩ := h
  · exact .kept hm
  · have hp := (Method.encode_leads hcode).reached hr
    obtain ⟨hlk, hindex, -⟩ := internUtf8_ok hp hk
    have hleast : q.Least AttributeKind.code.name k :=
      ((hlk.reached hp).least_iff.mpr hindex).leads (hlk.reached hp) hl
    exact .coded hm hcode (hlk.trans hl).grows hleast (Attribute.puts_setIn _ _)

/-- What a class file holds behind the pool that it was read with. -/
theorem finish_rewrites {f : ClassFile} (hp : c.file.pool.Reached) (hc : c.Indexed)
    (hf : c.finish = .ok f) (hlength : c.methods.length = c.file.methods.length) :
    f.methods.length = c.file.methods.length ∧
      ∀ (i : Nat) (raw : RawMember), c.file.methods[i]? = some raw → ∃ m raw', c.methods[i]? = some m ∧
        f.methods[i]? = some raw' ∧ Rewrites f.pool.settled m raw raw' := by
  refine ⟨finish_length hf, fun i raw hraw => ?_⟩
  obtain ⟨hi, -⟩ := List.getElem?_eq_some_iff.mp hraw
  have hm := List.getElem?_eq_getElem (hlength ▸ hi : i < c.methods.length)
  obtain ⟨raw', r, r', hget, hencodes, hl, hl'⟩ := finish_encoded hc hf hraw hm
  exact ⟨_, raw', hm, hget, .of_encodes (hl.reached hp) hencodes hl'⟩

section

variable {s : Bytes} {f : ClassFile} {fields : List RawMember} {attributes : List Attribute}

/-- What a class behind some changes is read back as. -/
theorem Changed.reads_back (hc : ClassModel.parse s = .ok c)
    (h : c.Changed xs c' fields attributes) (hindexed : c'.Indexed) (hf : c'.finish = .ok f)
    (hfits : f.Fits) : c'.file.pool.Leads f.pool ∧ f.methods.length = c.file.methods.length ∧
      (∀ (i : Nat) (raw : RawMember), c.file.methods[i]? = some raw → ∃ m raw', c'.methods[i]? = some m ∧
        f.methods[i]? = some raw' ∧ Rewrites f.pool.settled m raw raw') ∧
      ClassFile.parse f.write = .ok { c.file with
        pool := f.pool.settled
        fields := c.file.fields ++ fields.map (RawMember.kept .ofField)
        methods := f.methods
        attributes := Attribute.setAllIn attributes c.file.attributes } := by
  obtain ⟨hparse, -⟩ := parse_parts hc
  obtain ⟨hreach, hversion⟩ := ClassFile.parse_ok hparse
  obtain ⟨rest, -, hcontent⟩ := ClassFile.parse_layout hparse
  have hkept := ClassContent.read_kept hcontent
  have hlength : c'.methods.length = c'.file.methods.length := by
    rw [h.length, h.file]
    exact parse_length hc
  have hfile : c'.file.methods = c.file.methods := by rw [h.file]
  obtain ⟨hcount, hmethods⟩ := finish_rewrites (h.pool.reached hreach) hindexed hf hlength
  rw [hfile] at hcount hmethods
  obtain ⟨methods, p, -, hl, hshape⟩ := finish_ok hf
  have hfinal : f = { c.file with
      pool := p
      fields := c.file.fields ++ fields
      methods
      attributes := Attribute.setAllIn attributes c.file.attributes } := by
    rw [hshape, h.file]
  clear hshape
  subst hfinal
  refine ⟨hl, hcount, hmethods, ?_⟩
  -- Writing keeps the assigned flags only, and no others were read.
  have hmember : ∀ raw ∈ c.file.methods, raw.kept .ofMethod = raw :=
    List.map_inj_left.mp ((congrArg ClassContent.methods hkept).trans (List.map_id _).symm)
  have hmember' : ∀ raw' ∈ methods, raw'.kept .ofMethod = raw' := by
    intro raw' hraw'
    obtain ⟨i, hi⟩ := List.mem_iff_getElem?.mp hraw'
    obtain ⟨hlt, -⟩ := List.getElem?_eq_some_iff.mp hi
    have hraw := List.getElem?_eq_getElem (hcount ▸ hlt : i < c.file.methods.length)
    obtain ⟨m, found, -, hfound, hrewrites⟩ := hmethods i _ hraw
    cases hi.symm.trans hfound
    exact hrewrites.read (hmember _ (List.getElem_mem _))
  have hflags : FlagOwner.ofClass.keep c.file.flags = c.file.flags := congrArg ClassContent.flags hkept
  have hfields : c.file.fields.map (RawMember.kept .ofField) = c.file.fields :=
    congrArg ClassContent.fields hkept
  have hall : methods.map (RawMember.kept .ofMethod) = methods :=
    (List.map_congr_left hmember').trans (List.map_id _)
  refine (hfits.parse_write ((h.pool.trans hl).reached hreach) hversion).trans ?_
  simp only [ClassContent.kept, hflags, hfields, hall, List.map_append]

/-- Constants that were read are written as the bytes that they were read from. -/
theorem entries_kept {bytes : Bytes} {f₀ : ClassFile} (h₀ : ClassFile.parse s = .ok f₀)
    (h : ClassFile.parse bytes = .ok f) (hsource : f₀.pool.source <+: f.pool.source) {i : PoolIndex}
    {k : Constant} (hk : f₀.pool.constant i = .ok k) :
    ∃ bs, entryBytes? (s.drop 10) i = some bs ∧ entryBytes? (bytes.drop 10) i = some bs := by
  obtain ⟨rest, hpool, -⟩ := ClassFile.parse_layout h₀
  obtain ⟨bs, hbs, -⟩ := read_entry hpool hk
  obtain ⟨tail₀, hs⟩ := ClassFile.parse_entries h₀
  obtain ⟨tail, hbytes⟩ := ClassFile.parse_entries h
  obtain ⟨further, hfurther⟩ := hsource
  refine ⟨bs, ?_, ?_⟩
  · rw [hs]
    exact entryBytes?_append hbs tail₀
  · rw [hbytes, ← hfurther]
    exact entryBytes?_append (entryBytes?_append hbs further) tail

/-- A method that no change names is written as it was read. -/
theorem Rewrites.unedited {p : Pool} {owner : BinaryName} {hasFrames : Bool} {m : Method}
    {raw raw' : RawMember} {index : Nat} (h : Rewrites q m raw raw')
    (hm : Method.read p owner hasFrames raw index = .ok m) : raw' = raw := by
  cases h with
  | kept => rfl
  | coded hmodified => exact absurd (Method.read_unmodified hm) (by simp [hmodified])

end

/-- A class that was changed is written and read again as it was, around the changes. -/
theorem written_around {s bytes : Bytes} (hc : ClassModel.parse s = .ok c)
    (hrun : c.performAll xs = .ok c') (hmod : c'.isModified = true) (hbytes : c'.toBytes = .ok bytes)
    (hfits : ∀ f, c'.finish = .ok f → f.Fits) :
    ∃ f, ClassFile.parse bytes = .ok f ∧ Around s c xs c' bytes f := by
  obtain ⟨hparse, -⟩ := parse_parts hc
  have hreach := (ClassFile.parse_ok hparse).1
  have hindexed := performAll_indexed (parse_indexed hc) hrun
  obtain ⟨fields, attributes, h⟩ := Changed.run hreach hrun
  rw [toBytes_modified hmod] at hbytes
  obtain ⟨f, hf, rfl⟩ := except_map_ok hbytes
  obtain ⟨hl, hcount, hmethods, hparsed⟩ := h.reads_back hc hindexed hf (hfits f hf)
  have hl₀ := h.pool.trans hl
  refine ⟨_, hparsed, rfl, rfl, rfl, rfl, rfl, ?_, ?_, ?_, hcount, ?_, hmethods⟩
  · intro i k hk
    refine ⟨hl₀.grows.constant hk, entries_kept hparse hparsed ?_ hk⟩
    exact ⟨f.pool.added.flatMap Constant.write, by rw [settled, hl₀.source]⟩
  · refine ⟨fields.map (RawMember.kept .ofField), rfl, ?_⟩
    exact List.forall₂_map_right_iff.mpr (h.fields.imp fun _ _ hd => (hd.leads hl).read)
  · refine ⟨attributes,
      h.attributes.imp fun _ _ ha => (ha.leads (h.pool.reached hreach) hl).read, ?_,
      Attribute.find?_setAllIn attributes c.file.attributes⟩
    refine Attribute.filter_setAllIn (fun a ha b hb => ?_) _
    rw [decide_eq_false_iff_not, not_not, hb]
    exact List.mem_map_of_mem ha
  · intro i hi
    cases hraw : c.file.methods[i]? with
    | none =>
      rw [List.getElem?_eq_none_iff] at hraw ⊢
      exact hcount ▸ hraw
    | some raw =>
      obtain ⟨m, raw', hm, hraw', hrewrites⟩ := hmethods i raw hraw
      obtain ⟨m₀, hm₀, hread₀⟩ := parse_member hc hraw
      cases (hm.symm.trans (h.methods i hi)).trans hm₀
      rw [← hrewrites.unedited hread₀]
      exact hraw'

end ClassModel

namespace Retouched

open TwiceNamed

def flag : Field := ⟨Flags.publicOnly, ⟨"retouched", by decide⟩, .base .boolean⟩

/-- The body of the method becomes longer, a field is declared, and an attribute is set. -/
def changes : List Change :=
  [.beginEdit 0, .setBody 0 longer, .addField flag, .setAttribute "Code" [7]]

theorem parsed : ∃ c, ClassModel.parse source = .ok c ∧ Seen c ∧ Roomy 10 c.file.pool := by
  obtain ⟨c, hc, hseen⟩ := TwiceNamed.parsed
  have h : (ClassModel.parse source).toOption.any (fun c => decide (c.file.pool.size ≤ 10 ∧
      c.file.pool.sourceSlots ≤ c.file.pool.size)) = true := by decide +kernel
  rw [hc] at h
  obtain ⟨hsize, hslots⟩ := of_decide_eq_true h
  refine ⟨c, hc, hseen, hsize, hslots, ?_⟩
  obtain ⟨-, -, -, -, -, hadded, -⟩ := hseen
  rw [hadded]
  exact fun k hk => absurd hk List.not_mem_nil

theorem code_known {c : ClassModel} {q : Pool} (h : Seen c) (hp : c.file.pool.Reached)
    (hl : c.file.pool.Leads q) : internUtf8 "Code" q = (.ok 3, q) := by
  obtain ⟨hcode, hlow⟩ := code_lowest h
  exact intern_known (hl.index (hp.index_iff.mpr ⟨hcode, hlow⟩))

/-- What the changes make of the class. -/
theorem performed {c : ClassModel} (h : Seen c) (hp : c.file.pool.Reached) (hr : Roomy 10 c.file.pool) :
    ∃ i j q, c.file.pool.Leads q ∧ Roomy 12 q ∧ c.performAll changes = .ok { c with
      file := { c.file with
        pool := q
        fields := [⟨flag.flags, i, j, []⟩]
        attributes := [⟨3, [7]⟩] }
      methods := [edited]
      fields := c.fields ++ [flag]
      membersModified := true } := by
  obtain ⟨i, p, hi, hroom⟩ := hr.intern flag.name.text (by decide) (by omega)
  obtain ⟨j, q, hj, hroom'⟩ := hroom.intern flag.type.text (by decide) (by omega)
  have hl : c.file.pool.Leads q := ((internUtf8_interns _).run hi).trans ((internUtf8_interns _).run hj)
  have hcode := code_known h hp hl
  obtain ⟨hmethods, -, hfields, -, hattributes, -, -⟩ := h
  refine ⟨i, j, q, hl, hroom', ?_⟩
  have hbegin : c.perform (.beginEdit 0) = .ok { c with methods := [begun] } := by
    show c.onMethod 0 Method.beginEdit = _
    unfold ClassModel.onMethod
    simp only [hmethods, List.getElem?_cons_zero, begun_eq, ClassModel.setMethod]
    rfl
  have hfield : ({ c with methods := [edited] } : ClassModel).perform (.addField flag) = .ok { c with
      file := { c.file with pool := q, fields := [⟨flag.flags, i, j, []⟩] }
      methods := [edited]
      fields := c.fields ++ [flag]
      membersModified := true } := by
    refine except_bind_ok.mpr ⟨_, ClassModel.withPool_ok.mpr ⟨p, hi, rfl⟩,
      except_bind_ok.mpr ⟨_, ClassModel.withPool_ok.mpr ⟨q, hj, rfl⟩, ?_⟩⟩
    show Except.ok _ = _
    rw [hfields]
    rfl
  have hattribute := ClassModel.withPool_ok (c := { c with
      file := { c.file with pool := q, fields := [⟨flag.flags, i, j, []⟩] }
      methods := [edited]
      fields := c.fields ++ [flag]
      membersModified := true }).mpr ⟨q, hcode, rfl⟩
  refine except_bind_ok.mpr ⟨_, hbegin, except_bind_ok.mpr ⟨_, rfl, except_bind_ok.mpr ⟨_, hfield,
    except_bind_ok.mpr ⟨_, except_bind_ok.mpr ⟨_, hattribute, rfl⟩, ?_⟩⟩⟩⟩
  show Except.ok _ = _
  rw [hattributes]
  rfl

/-- The class fits the format when it is written. -/
theorem finished {c : ClassModel} {q : Pool} {m : RawMember} (hroom : Roomy 12 q)
    (hcode : internUtf8 "Code" q = (.ok 3, q)) (hpool : c.file.pool = q) (hfields : c.file.fields = [m])
    (hm : m.attributes = []) (hattributes : c.file.attributes = [⟨3, [7]⟩])
    (hinterfaces : c.file.interfaces = []) (hraw : c.file.methods = [raw]) (hmethods : c.methods = [edited]) :
    ∃ f, c.finish = .ok f ∧ f.Fits := by
  let written : RawMember := { raw with attributes := Attribute.setIn ⟨3, code.write⟩ raw.attributes }
  have hmethod : ClassModel.encodeMethod [raw] edited q = (.ok [written], q) := by
    refine run_bind_ok.mpr ⟨some code, q, encoded q, ?_⟩
    refine run_bind_ok.mpr ⟨⟨3, code.write⟩, q, (Shadows.lift _).ok_iff.mpr ?_, rfl⟩
    exact run_bind_ok.mpr ⟨3, q, hcode, rfl⟩
  refine ⟨{ c.file with methods := [written], pool := q },
    except_bind_ok.mpr ⟨([written], q), complete_ok.mpr ?_, rfl⟩, ?_⟩
  · simp only [ClassModel.encodeMethods, hraw, hmethods, hpool, List.foldlM_cons, List.foldlM_nil]
    exact run_bind_ok.mpr ⟨[written], q, hmethod, rfl⟩
  · constructor
    · exact hroom.texts
    · simp [hinterfaces]
    · simp [hfields]
    · simp
    · simp only [hfields, List.singleton_append, List.forall_mem_cons, hm]
      decide
    · simp [hattributes, AttributesFit]

end Retouched

open TwiceNamed Retouched in
/-- The class is read again with the field, around the longer body. -/
theorem Retouched.written_again : ∃ c c' bytes f, ClassModel.parse source = .ok c ∧
    c.performAll changes = .ok c' ∧ c'.isModified = true ∧ c'.toBytes = .ok bytes ∧
    ClassFile.parse bytes = .ok f ∧ ClassModel.Around source c changes c' bytes f ∧
    f.fields.length = 1 ∧ f.methods.length = 1 := by
  obtain ⟨c, hc, hseen, hroom⟩ := Retouched.parsed
  have hp := (ClassFile.parse_ok (ClassModel.parse_parts hc).1).1
  obtain ⟨i, j, q, hl, hroom', hrun⟩ := performed hseen hp hroom
  have hcode := code_known hseen hp hl
  obtain ⟨-, hraw, hfields, hinterfaces, -, -, -⟩ := hseen
  obtain ⟨f, hf, hfits⟩ := finished (c := { c with
      file := { c.file with
        pool := q
        fields := [⟨flag.flags, i, j, []⟩]
        attributes := [⟨3, [7]⟩] }
      methods := [edited]
      fields := c.fields ++ [flag]
      membersModified := true }) hroom' hcode rfl rfl rfl rfl hinterfaces hraw rfl
  have hbytes := (ClassModel.toBytes_modified rfl).trans (congrArg (Except.map ClassFile.write) hf)
  obtain ⟨g, hparse, haround⟩ := ClassModel.written_around hc hrun rfl hbytes
    fun f' hf' => by cases hf.symm.trans hf'; exact hfits
  obtain ⟨added, hadded, hall⟩ := haround.fields
  refine ⟨c, _, f.write, g, hc, hrun, rfl, hbytes, hparse, haround, ?_, ?_⟩
  · rw [hadded, hfields, List.nil_append, ← hall.length_eq]
    rfl
  · rw [haround.count, hraw]
    rfl

end ClassGraft
