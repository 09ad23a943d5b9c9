import ClassGraft.Proofs.PlacedAttributes

namespace ClassGraft

open Pool

/-- What can be done to a class that was read. An operation that fails half way leaves constants behind;
so does a request for them. -/
inductive Change where
  /-- Editing of the method at a position begins. -/
  | beginEdit (i : Nat)
  | setBody (i : Nat) (b : Body)
  | validate (i : Nat)
  | addField (d : Field)
  | setAttribute (name : String) (info : Bytes)
  | request (r : Request)

namespace Change

/-- The position of the method that is edited. -/
def position? : Change → Option Nat
  | beginEdit i | setBody i _ | validate i => some i
  | _ => none

def field? : Change → Option Field
  | addField d => some d
  | _ => none

def attribute? : Change → Option (String × Bytes)
  | setAttribute name info => some (name, info)
  | _ => none

end Change

namespace ClassModel

/-- Changes the method at a position, if there is one. -/
def onMethod (c : ClassModel) (i : Nat) (f : Method → Except ClassError Method) :
    Except ClassError ClassModel :=
  match c.methods[i]? with
  | none => .ok c
  | some m => do return c.setMethod i (← f m)

def perform (c : ClassModel) : Change → Except ClassError ClassModel
  | .beginEdit i => c.onMethod i Method.beginEdit
  | .setBody i b => c.onMethod i fun m => .ok (m.withBody b)
  | .validate i => c.onMethod i Method.validate
  | .addField d => c.addField d
  | .setAttribute name info => c.setAttribute name info
  | .request r => .ok { c with file := { c.file with pool := (r.perform c.file.pool).2 } }

/-- Makes some changes in turn. -/
def performAll (c : ClassModel) (xs : List Change) : Except ClassError ClassModel := xs.foldlM perform c

/-- The member declares a field without attributes. -/
structure Declares (p : Pool) (d : Field) (m : RawMember) : Prop where
  flags : m.flags = d.flags
  name : p.utf8 m.name = .ok d.name.text
  type : p.utf8 m.descriptor = .ok d.type.text
  attributes : m.attributes = []

/-- The attribute is set under the lowest index of its name. -/
structure Sets (p : Pool) (x : String × Bytes) (a : Attribute) : Prop where
  name : p.Least x.1 a.name
  info : a.info = x.2

/-- A class behind some changes to one that was read: what they declare and set comes to what there was,
and only the methods that they name can differ. -/
structure Changed (c : ClassModel) (xs : List Change) (c' : ClassModel) (fields : List RawMember)
    (attributes : List Attribute) : Prop where
  pool : c.file.pool.Leads c'.file.pool
  file : c'.file = { c.file with
    pool := c'.file.pool
    fields := c.file.fields ++ fields
    attributes := Attribute.setAllIn attributes c.file.attributes }
  fields : List.Forall₂ (Declares c'.file.pool) (xs.filterMap Change.field?) fields
  attributes : List.Forall₂ (Sets c'.file.pool) (xs.filterMap Change.attribute?) attributes
  length : c'.methods.length = c.methods.length
  methods : ∀ i, (∀ x ∈ xs, x.position? ≠ some i) → c'.methods[i]? = c.methods[i]?

variable {c c' c'' : ClassModel} {x : Change} {xs : List Change} {p q : Pool} {fields : List RawMember}
  {attributes : List Attribute}

theorem Declares.leads {d : Field} {m : RawMember} (h : Declares p d m) (hl : p.Leads q) :
    Declares q d m := ⟨h.flags, hl.grows.utf8 h.name, hl.grows.utf8 h.type, h.attributes⟩

theorem Sets.leads {x : String × Bytes} {a : Attribute} (h : Sets p x a) (hp : p.Reached)
    (hl : p.Leads q) : Sets q x a := ⟨h.name.leads hp hl, h.info⟩

theorem onMethod_ok {i : Nat} {f : Method → Except ClassError Method} (h : c.onMethod i f = .ok c') :
    c'.file = c.file ∧ c'.methods.length = c.methods.length ∧
      ∀ j, j ≠ i → c'.methods[j]? = c.methods[j]? := by
  unfold onMethod at h
  split at h
  next => cases h; exact ⟨rfl, rfl, fun j hj => rfl⟩
  next =>
    obtain ⟨m', -, h⟩ := except_bind_ok.mp h
    cases h
    exact ⟨rfl, List.length_set, fun j hj => List.getElem?_set_ne (Ne.symm hj)⟩

theorem onMethod_indexed {i : Nat} {f : Method → Except ClassError Method}
    (hf : ∀ m m', f m = .ok m' → m'.index = m.index) (hc : c.Indexed) (h : c.onMethod i f = .ok c') :
    c'.Indexed := by
  unfold onMethod at h
  split at h
  next => cases h; exact hc
  next m hm =>
    obtain ⟨m', hm', h⟩ := except_bind_ok.mp h
    cases h
    intro j d hd
    rcases eq_or_ne i j with rfl | hne
    · obtain ⟨hi, -⟩ := List.getElem?_eq_some_iff.mp hm
      cases (List.getElem?_set_self hi).symm.trans hd
      exact (hf m m' hm').trans (hc i m hm)
    · exact hc j d ((List.getElem?_set_ne hne).symm.trans hd)

/-- Changes leave each method at its place. -/
theorem performAll_indexed (hc : c.Indexed) (h : c.performAll xs = .ok c') : c'.Indexed := by
  refine foldlM_keeps (fun x c c' hc hx => ?_) hc h
  cases x with
  | beginEdit i => exact onMethod_indexed (fun _ _ => Method.beginEdit_index) hc hx
  | setBody i b => exact onMethod_indexed (fun m m' hm => by cases hm; rfl) hc hx
  | validate i => exact onMethod_indexed (fun _ _ => Method.validate_index) hc hx
  | addField d =>
    obtain ⟨_, _, _, _, -, -, rfl⟩ := addField_ok hx
    exact hc
  | setAttribute name info =>
    obtain ⟨_, _, -, rfl⟩ := setAttribute_ok hx
    exact hc
  | request r =>
    cases hx
    exact hc

section

variable {α β : Type} {f : α → Option β} {as : List α} {a : α}

theorem filterMap_concat_none (h : f a = none) : (as ++ [a]).filterMap f = as.filterMap f := by
  rw [List.filterMap_append, List.filterMap_cons_none h, List.filterMap_nil, List.append_nil]

theorem filterMap_concat_some {b : β} (h : f a = some b) :
    (as ++ [a]).filterMap f = as.filterMap f ++ [b] := by
  rw [List.filterMap_append, List.filterMap_cons_some h, List.filterMap_nil]

end

namespace Changed

theorem start (c : ClassModel) : c.Changed [] c [] [] :=
  ⟨.refl, by rw [List.append_nil]; rfl, .nil, .nil, rfl, fun _ _ => rfl⟩

/-- A change to a method. -/
theorem edited {i : Nat} {f : Method → Except ClassError Method}
    (h : c.Changed xs c' fields attributes) (hx : x.position? = some i) (hf : x.field? = none)
    (ha : x.attribute? = none) (hc : c'.onMethod i f = .ok c'') :
    c.Changed (xs ++ [x]) c'' fields attributes := by
  obtain ⟨hfile, hlength, hothers⟩ := onMethod_ok hc
  constructor
  · rw [hfile]; exact h.pool
  · rw [hfile]; exact h.file
  · rw [hfile, filterMap_concat_none hf]
    exact h.fields
  · rw [hfile, filterMap_concat_none ha]
    exact h.attributes
  · exact hlength.trans h.length
  · intro j hj
    obtain ⟨hxs, hlast⟩ := List.forall_mem_append.mp hj
    have hne : j ≠ i := by
      rintro rfl
      exact hlast x (List.mem_singleton.mpr rfl) hx
    exact (hothers j hne).trans (h.methods j hxs)

/-- What a change does to a class. -/
theorem step (hp : c.file.pool.Reached) (h : c.Changed xs c' fields attributes) (hx : c'.perform x = .ok c'') :
    ∃ fields attributes, c.Changed (xs ++ [x]) c'' fields attributes := by
  have others {j : Nat} (hj : ∀ y ∈ xs ++ [x], y.position? ≠ some j) : c'.methods[j]? = c.methods[j]? :=
    h.methods j fun y hy => hj y (List.mem_append_left _ hy)
  have hreach := h.pool.reached hp
  cases x with
  | beginEdit i => exact ⟨_, _, h.edited rfl rfl rfl hx⟩
  | setBody i b => exact ⟨_, _, h.edited rfl rfl rfl hx⟩
  | validate i => exact ⟨_, _, h.edited rfl rfl rfl hx⟩
  | request r =>
    cases hx
    have hl : c'.file.pool.Leads (r.perform c'.file.pool).2 := r.perform_interns.leads c'.file.pool
    refine ⟨fields, attributes, h.pool.trans hl, ?_, ?_, ?_, h.length, fun j => others⟩
    · rw [h.file]
    · rw [filterMap_concat_none rfl]
      exact h.fields.imp fun _ _ hd => hd.leads hl
    · rw [filterMap_concat_none rfl]
      exact h.attributes.imp fun _ _ ha => ha.leads hreach hl
  | addField d =>
    obtain ⟨i, j, p, q, hi, hj, rfl⟩ := addField_ok hx
    obtain ⟨hl, -, hname⟩ := internUtf8_ok hreach hi
    obtain ⟨hl', -, htype⟩ := internUtf8_ok (hl.reached hreach) hj
    refine ⟨fields ++ [⟨d.flags, i, j, []⟩], attributes, h.pool.trans (hl.trans hl'), ?_, ?_, ?_, h.length,
      fun j => others⟩
    · rw [h.file, List.append_assoc]
    · rw [filterMap_concat_some (f := Change.field?) rfl]
      refine List.rel_append (h.fields.imp fun _ _ hd => hd.leads (hl.trans hl')) (.cons ?_ .nil)
      exact ⟨rfl, hl'.grows.utf8 hname, htype, rfl⟩
    · rw [filterMap_concat_none rfl]
      exact h.attributes.imp fun _ _ ha => ha.leads hreach (hl.trans hl')
  | setAttribute name info =>
    obtain ⟨i, p, hi, rfl⟩ := setAttribute_ok hx
    obtain ⟨hl, hindex, -⟩ := internUtf8_ok hreach hi
    refine ⟨fields, attributes ++ [⟨i, info⟩], h.pool.trans hl, ?_, ?_, ?_, h.length, fun j => others⟩
    · rw [Attribute.setAllIn, List.foldl_append, h.file]
      rfl
    · rw [filterMap_concat_none rfl]
      exact h.fields.imp fun _ _ hd => hd.leads hl
    · rw [filterMap_concat_some (f := Change.attribute?) rfl]
      exact List.rel_append (h.attributes.imp fun _ _ ha => ha.leads hreach hl)
        (.cons ⟨(hl.reached hreach).least_iff.mpr hindex, rfl⟩ .nil)

theorem run (hp : c.file.pool.Reached) (h : c.performAll xs = .ok c') :
    ∃ fields attributes, c.Changed xs c' fields attributes := by
  induction xs using List.reverseRecOn generalizing c' with
  | nil => cases h; exact ⟨[], [], start c⟩
  | append_singleton xs x ih =>
    rw [performAll, List.foldlM_append] at h
    obtain ⟨c₁, h₁, h⟩ := except_bind_ok.mp h
    rw [List.foldlM_cons] at h
    obtain ⟨c₂, h₂, h⟩ := except_bind_ok.mp h
    cases h
    obtain ⟨fields, attributes, hc⟩ := ih h₁
    exact step hp hc h₂

end Changed

end ClassModel

end ClassGraft
