import ClassGraft.Proofs.PoolBytes

namespace ClassGraft

namespace Pool

/-- What a pool can be asked for. It adds the constants that it lacks. -/
inductive Request where
  | utf8 (s : String)
  | classRef (t : RefType)
  | string (s : String)
  | nameAndType (name descriptor : String)
  | field (owner : BinaryName) (name descriptor : String)
  | method (owner : RefType) (name descriptor : String) (isInterface : Bool)
  | integer (n : Int32)
  | float (bits : UInt32)
  | long (n : Int64)
  | double (bits : UInt64)
  | methodType (descriptor : String)
  | invokeDynamic (bootstrap : UInt16) (name descriptor : String)
  | attributeOf (k : AttributeKind) (content : k.Content)
  /-- A body is encoded, with the constants and attributes that it needs. -/
  | code (b : Body) (maxStack maxLocals : UInt16) (entry : Option Frame)

namespace Request

/-- The request without its answer. -/
def perform : Request → PoolM Unit
  | utf8 s => do let _ ← internUtf8 s
  | classRef t => do let _ ← internClass t
  | string s => do let _ ← internString s
  | nameAndType name descriptor => do let _ ← internNameAndType name descriptor
  | field owner name descriptor => do let _ ← internField owner name descriptor
  | method owner name descriptor isInterface => do
    let _ ← internMethod owner name descriptor isInterface
  | integer n => do let _ ← intern (.integer n)
  | float bits => do let _ ← intern (.float bits)
  | long n => do let _ ← intern (.long n)
  | double bits => do let _ ← intern (.double bits)
  | methodType descriptor => do let _ ← internMethodType descriptor
  | invokeDynamic bootstrap name descriptor => do
    let _ ← internInvokeDynamic bootstrap name descriptor
  | attributeOf k content => do let _ ← internAttribute k content
  | code b maxStack maxLocals entry => do let _ ← b.encode maxStack maxLocals entry

theorem perform_interns (r : Request) : Interns r.perform := by
  cases r with
  | utf8 s => exact .map (internUtf8_interns s)
  | classRef t => exact .map (internClass_interns t)
  | string s => exact .map (.bind (internUtf8_interns s) fun _ => intern_interns _)
  | nameAndType name descriptor => exact .map (internNameAndType_interns name descriptor)
  | field owner name descriptor =>
    exact .map (.bind (internClass_interns _) fun _ =>
      .bind (internNameAndType_interns name descriptor) fun _ => intern_interns _)
  | method owner name descriptor isInterface =>
    exact .map (.bind (internClass_interns owner) fun _ =>
      .bind (internNameAndType_interns name descriptor) fun _ => intern_interns _)
  | integer | float | long | double => exact .map (intern_interns _)
  | methodType descriptor => exact .map (.bind (internUtf8_interns descriptor) fun _ => intern_interns _)
  | invokeDynamic bootstrap name descriptor =>
    exact .map (.bind (internNameAndType_interns name descriptor) fun _ => intern_interns _)
  | attributeOf k content => exact .map (internAttribute_interns k content)
  | code b maxStack maxLocals entry => exact .map (b.encode_interns maxStack maxLocals entry)

end Request

/-- The pool behind some requests. One that fails leaves what it has added. -/
def after (p : Pool) (rs : List Request) : Pool := rs.foldl (fun p r => (r.perform p).2) p

/-- The pools to start from. -/
inductive Fresh : Pool → Prop
  | empty : Fresh Pool.empty
  | read {s rest : Bytes} {p : Pool} : Pool.read s = .ok (p, rest) → Fresh p

/-- The second pool has the slots of the first one, and finds at an index what that finds there. -/
structure Keeps (p q : Pool) : Prop where
  slots : ∀ n, n < p.size → n < q.size ∧ q.slots[n]? = p.slots[n]?
  constant : ∀ i c, p.constant i = .ok c → q.constant i = .ok c
  utf8 : ∀ i s, p.utf8 i = .ok s → q.utf8 i = .ok s
  className : ∀ i s, p.className i = .ok s → q.className i = .ok s
  classType : ∀ i t, p.classType i = .ok t → q.classType i = .ok t
  nameAndType : ∀ i nt, p.nameAndType i = .ok nt → q.nameAndType i = .ok nt
  member : ∀ i m, p.member i = .ok m → q.member i = .ok m

/-- A pool that can be written. The index behind that of a wide constant is in range and names nothing;
and what is written, these bytes right behind the number of slots, is read again with all entries at their
indices, if no text is too long. -/
structure Rereadable (p : Pool) (bytes : Bytes) : Prop where
  size : p.size ≤ 65535
  unusable : ∀ i c, p.constant i = .ok c → c.isWide = true →
    (i + 1).toNat = i.toNat + 1 ∧ i.toNat + 1 < p.size ∧
      p.constant (i + 1) = .error (.invalidIndex (i + 1))
  verbatim : p.write = Write.u16 p.size.toUInt16 ++ bytes ++ p.added.flatMap Constant.write
  reread : (∀ c ∈ p.added, c.Fits) → ∀ rest, ∃ q, Pool.read (p.write ++ rest) = .ok (q, rest) ∧
    q.slots = p.slots

/-- The slot behind each wide constant holds nothing. -/
def Spaced (p : Pool) : Prop := ∀ (n : Nat) (c : Constant),
  p.slots[n]? = some (some c) → c.isWide = true → p.slots[n + 1]? = some none

variable {p q : Pool} {c : Constant} {i : PoolIndex}

theorem after_leads (p : Pool) (rs : List Request) : p.Leads (p.after rs) := by
  induction rs generalizing p with
  | nil => exact .refl
  | cons r rs ih => exact (r.perform_interns.leads p).trans (ih _)

theorem after_append (p : Pool) (rs ss : List Request) :
    p.after (rs ++ ss) = (p.after rs).after ss := List.foldl_append

theorem Fresh.reached (h : p.Fresh) : p.Reached := by
  cases h with
  | empty => exact .empty
  | read hr => exact .read hr

theorem Leads.slots (h : p.Leads q) {n : Nat} (hn : n < p.size) :
    n < q.size ∧ q.slots[n]? = p.slots[n]? := by
  induction h with
  | refl => exact ⟨hn, rfl⟩
  | @add q c _ _ _ ih =>
    obtain ⟨hlt, heq⟩ := ih
    exact ⟨Nat.lt_trans hlt (size_lt_append q c), (append_slots_lt hlt c).trans heq⟩

theorem Leads.source (h : p.Leads q) : q.source = p.source := by
  induction h with
  | refl => rfl
  | add _ _ _ ih => exact ih

theorem className_ok {s : String} : p.className i = .ok s ↔
    ∃ j, p.constant i = .ok (.classRef j) ∧ p.utf8 j = .ok s := by
  unfold className
  rw [except_bind_ok]
  constructor
  · rintro ⟨c, hc, h⟩
    split at h
    next j => exact ⟨j, hc, h⟩
    next => cases h
  · rintro ⟨j, hc, h⟩
    exact ⟨_, hc, h⟩

theorem Extends.className {s : String} (h : p.Extends q) (hs : p.className i = .ok s) :
    q.className i = .ok s := by
  obtain ⟨j, hc, hj⟩ := className_ok.mp hs
  exact className_ok.mpr ⟨j, h.constant hc, h.utf8 hj⟩

theorem Extends.nameAndType {nt : String × String} (h : p.Extends q) (hn : p.nameAndType i = .ok nt) :
    q.nameAndType i = .ok nt := by
  obtain ⟨name, descriptor⟩ := nt
  obtain ⟨j, k, hc, hj, hk⟩ := nameAndType_ok.mp hn
  exact nameAndType_ok.mpr ⟨j, k, h.constant hc, h.constant hj, h.constant hk⟩

theorem Extends.member {m : Member} (h : p.Extends q) (hm : p.member i = .ok m) :
    q.member i = .ok m := by
  unfold Pool.member at hm ⊢
  obtain ⟨c, hc, hm⟩ := except_bind_ok.mp hm
  refine except_bind_ok.mpr ⟨c, h.constant hc, ?_⟩
  cases c with
  | fieldRef | methodRef =>
    obtain ⟨_, hr, hm⟩ := except_bind_ok.mp hm
    cases hr
    obtain ⟨⟨name, descriptor⟩, hn, hm⟩ := except_bind_ok.mp hm
    obtain ⟨owner, ho, hm⟩ := except_bind_ok.mp hm
    refine except_bind_ok.mpr ⟨_, rfl, except_bind_ok.mpr ⟨(name, descriptor), ?_, ?_⟩⟩
    · exact h.nameAndType hn
    · exact except_bind_ok.mpr ⟨owner, h.className ho, hm⟩
  | _ => cases hm

theorem Leads.keeps (h : p.Leads q) : p.Keeps q where
  slots _ := h.slots
  constant _ _ := h.grows.constant
  utf8 _ _ := h.grows.utf8
  className _ _ := h.grows.className
  classType i t ht := by
    obtain ⟨name, hn, ht⟩ := except_bind_ok.mp ht
    exact except_bind_ok.mpr ⟨name, h.grows.className hn, ht⟩
  nameAndType _ _ := h.grows.nameAndType
  member _ _ := h.grows.member

theorem Spaced.append (h : p.Spaced) (c : Constant) : (p.append c).Spaced := by
  intro n d hd hw
  rcases append_slots_some hd with hold | ⟨rfl, rfl⟩
  · have hnext := h n d hold hw
    have hlt : n + 1 < p.size := (Array.getElem?_eq_some_iff.mp hnext).1
    rw [append_slots_lt hlt]
    exact hnext
  · rw [append_slots, if_pos hw, size, ← Array.size_push (some d), Array.getElem?_push, if_pos rfl]

theorem lasts_spaced : Lasts Spaced where
  empty n c h := absurd h (empty_slots n c)
  append _ c _ h := h.append c
  read _ _ _ h := h

theorem Reached.unusable (h : p.Reached) (hc : p.constant i = .ok c) (hw : c.isWide = true) :
    (i + 1).toNat = i.toNat + 1 ∧ i.toNat + 1 < p.size ∧
      p.constant (i + 1) = .error (.invalidIndex (i + 1)) := by
  have hnext := h.lasts lasts_spaced i.toNat c (constant_ok.mp hc) hw
  have hlt : i.toNat + 1 < p.size := (Array.getElem?_eq_some_iff.mp hnext).1
  have hfits := h.sound.fits
  have hi : (i + 1).toNat = i.toNat + 1 := by
    rw [UInt16.toNat_add]
    exact Nat.mod_eq_of_lt (by simp; omega)
  refine ⟨hi, hlt, ?_⟩
  unfold Pool.constant
  rw [hi, hnext]

theorem Reached.rereadable (h : p.Reached) : p.Rereadable p.source where
  size := h.sound.fits
  unusable _ _ := h.unusable
  verbatim := rfl
  reread hfits rest := ⟨p.settled, h.read_write hfits rest, rfl⟩

/-- The source of a pool that was read are the bytes behind the number of slots. -/
theorem read_source {s rest : Bytes} (h : Pool.read s = .ok (p, rest)) :
    s = Write.u16 p.size.toUInt16 ++ p.source ++ rest := by
  obtain ⟨count, s', q, hcount, hq, hsize, rfl⟩ := read_ok h
  obtain ⟨bs, rfl, -⟩ := readEntries_exact _ _ _ _ _ hq
  have hsize' : size ⟨q.slots, (bs ++ rest).take ((bs ++ rest).length - rest.length), count.toNat,
      q.index⟩ = count.toNat := hsize
  have htake : (bs ++ rest).take ((bs ++ rest).length - rest.length) = bs := by
    rw [List.length_append, Nat.add_sub_cancel]
    exact List.take_left
  rw [Reader.u16_ok hcount, hsize', htake, Nat.toUInt16_eq, UInt16.ofNat_toNat, List.append_assoc]

/-- A pool that was read is written as it was found. -/
theorem read_bytes {s rest : Bytes} (h : Pool.read s = .ok (p, rest)) : s = p.write ++ rest := by
  rw [write, read_added h, List.flatMap_nil, List.append_nil]
  exact read_source h

/-- A pool only grows behind what it holds, whatever it is asked for and however that ends. Entries keep
their indices and lookups their results, the slot behind a wide constant is never used, and there are at
most 65535 slots; what is written is read again as it is, and the constants that were read in the beginning
are written as they were found. -/
theorem requests_grow {start : Pool} (h : start.Fresh) (before behind : List Request) :
    (start.after before).Keeps (start.after (before ++ behind)) ∧
    (start.after (before ++ behind)).Rereadable start.source ∧
    ∀ s rest, Pool.read s = .ok (start, rest) →
      s = Write.u16 start.size.toUInt16 ++ start.source ++ rest := by
  have hp := after_leads start before
  have hq : (start.after before).Leads (start.after (before ++ behind)) := by
    rw [after_append]
    exact after_leads _ behind
  have hlast := ((hp.trans hq).reached h.reached).rereadable
  rw [(hp.trans hq).source] at hlast
  exact ⟨hq.keeps, hlast, fun s rest => read_source⟩

end Pool

namespace LonePool

open Pool

/-- A pool of one wide constant. -/
def source : Bytes := [5, 0, 0, 0, 0, 0, 0, 0, 7]

def start : Pool := { Pool.empty.append (.long 7) with source, sourceSlots := 3 }

def grown : Pool := (start.append (.utf8 "a")).append (.double 0)

theorem start_read : Pool.read (0 :: 3 :: source) = .ok (start, []) := by
  have hi : intern (.long 7) Pool.empty = (.ok 1, Pool.empty.append (.long 7)) :=
    intern_fresh (by simp [empty]) (by decide)
  exact (Reached.intern .empty hi).read_write (by decide) []

theorem start_grown : start.after ([.utf8 "a"] ++ [.long 7, .double 0]) = grown := by
  have ha : (Request.utf8 "a").perform start = (.ok (), start.append (.utf8 "a")) :=
    run_bind_ok.mpr ⟨_, _, intern_fresh (by simp [start, empty, append]) (by decide), rfl⟩
  have hlong : (Request.long 7).perform (start.append (.utf8 "a")) =
      (.ok (), start.append (.utf8 "a")) := by
    have hindex : start.index[Constant.long 7]? = some 1 :=
      append_index_new (p := Pool.empty) (by simp [empty])
    exact run_bind_ok.mpr ⟨_, _, intern_known (append_index_some hindex _), rfl⟩
  have hdouble : (Request.double 0).perform (start.append (.utf8 "a")) = (.ok (), grown) :=
    run_bind_ok.mpr ⟨_, _, intern_fresh (by simp [start, empty, append]) (by decide), rfl⟩
  simp only [after, List.cons_append, List.nil_append, List.foldl_cons, List.foldl_nil, ha, hlong,
    hdouble]

/-- The text comes behind the constant that was read, whose second slot stays free, and the new wide
constant behind the text. -/
theorem read_back : start.Fresh ∧ ∃ q, Pool.read (grown.write ++ []) = .ok (q, []) ∧
    q.slots = #[none, some (.long 7), none, some (.utf8 "a"), some (.double 0), none] ∧
    grown.constant 2 = .error (.invalidIndex 2) ∧ start.Keeps grown ∧
    grown.write = [0, 6] ++ source ++ [1, 0, 1, 0x61, 6, 0, 0, 0, 0, 0, 0, 0, 0] := by
  have hfresh : start.Fresh := .read start_read
  have hgrow := requests_grow hfresh [] ([.utf8 "a"] ++ [.long 7, .double 0])
  rw [List.nil_append, start_grown] at hgrow
  obtain ⟨hkeeps, hre, -⟩ := hgrow
  obtain ⟨q, hq, hslots⟩ := hre.reread (by decide) []
  obtain ⟨-, -, hnone⟩ := hre.unusable 1 (.long 7) rfl rfl
  exact ⟨hfresh, q, hq, hslots, hnone, hkeeps, by decide⟩

end LonePool

end ClassGraft
