import ClassGraft.Proofs.ClassPatching
import ClassGraft.Proofs.CodeLayout
import ClassGraft.Proofs.LoadDecoding

namespace ClassGraft

open Layout

/-- The index of the text that a constant names, if it stands for one where it is loaded. -/
def Constant.text? : Constant → Option PoolIndex
  | .string t | .classRef t | .methodType t => some t
  | _ => none

namespace Pool

/-- The bytes of an entry: those that were read, or those that it is written as if it was added. -/
def ownBytes? (p : Pool) (i : PoolIndex) : Option Bytes :=
  if i.toNat < p.sourceSlots then entryBytes? p.source i else (p.constant i).toOption.map Constant.write

/-- The text that an entry names, by its index. -/
def text? (p : Pool) (i : PoolIndex) : Option PoolIndex := (p.constant i).toOption.bind Constant.text?

/-- The bytes of an entry, with those of the text that it names in place of the index. -/
def rawContent? (p : Pool) (i : PoolIndex) : Option Bytes :=
  match p.text? i with
  | some t => (p.ownBytes? i).bind fun entry => (p.ownBytes? t).map fun text => entry.take 1 ++ text
  | none => p.ownBytes? i

/-- Among the texts that are decoded like the one that an entry names, the lowest has the same bytes. -/
def SpelledFirst (p : Pool) (i : PoolIndex) : Prop :=
  ∀ t s k, p.text? i = some t → p.utf8 t = .ok s → p.Least s k → p.ownBytes? k = p.ownBytes? t

/-- What is loaded from one entry before and from another one after: the tag is the same. All else is the
same too, unless the text is spelled in different ways. -/
structure Reloads (p q : Pool) (i j : PoolIndex) : Prop where
  tag : ∃ tag body body', p.rawContent? i = some (tag :: body) ∧ q.rawContent? j = some (tag :: body')
  kept : q.rawContent? j = p.rawContent? i ↔ p.SpelledFirst i

variable {p q : Pool} {i j k t : PoolIndex} {c : Constant} {s rest : Bytes}

theorem text?_of_constant (h : p.constant i = .ok c) : p.text? i = c.text? := by
  rw [text?, h]
  rfl

theorem Least.unique {s : String} (hi : p.Least s i) (hj : p.Least s j) : i = j :=
  UInt16.le_antisymm (hi.2 j hj.1) (hj.2 i hi.1)

theorem Leads.sourceSlots (h : p.Leads q) : q.sourceSlots = p.sourceSlots := by
  induction h with
  | refl => rfl
  | add _ _ _ ih => exact ih

/-- All slots of a pool that was read are from its source. -/
theorem read_sourceSlots (h : Pool.read s = .ok (p, rest)) : p.sourceSlots = p.size := by
  obtain ⟨count, s', q, -, -, hsize, rfl⟩ := read_ok h
  exact hsize.symm

theorem ownBytes?_kept (h : Pool.read s = .ok (p, rest)) (hl : p.Leads q) (hi : i.toNat < p.size) :
    q.ownBytes? i = p.ownBytes? i := by
  have hslots := read_sourceSlots h
  have hq : i.toNat < q.sourceSlots := by rw [hl.sourceSlots, hslots]; exact hi
  have hp : i.toNat < p.sourceSlots := by rw [hslots]; exact hi
  rw [ownBytes?, ownBytes?, if_pos hq, if_pos hp, hl.source]

theorem constant_lt (h : p.constant i = .ok c) : i.toNat < p.size :=
  (Array.getElem?_eq_some_iff.mp (constant_ok.mp h)).1

theorem ownBytes?_some (h : Pool.read s = .ok (p, rest)) (hc : p.constant i = .ok c) :
    ∃ bs, p.ownBytes? i = some bs ∧ Reader.Reads Constant.read bs c := by
  have hi : i.toNat < p.sourceSlots := by
    rw [read_sourceSlots h]
    exact constant_lt hc
  obtain ⟨bs, hbs, hread⟩ := read_entry h hc
  exact ⟨bs, by rw [ownBytes?, if_pos hi, hbs], hread⟩

/-- All entries but texts are encoded in one way. -/
theorem ownBytes?_write (h : Pool.read s = .ok (p, rest)) (hl : p.Leads q) (hc : q.constant i = .ok c)
    (htext : ∀ text, c ≠ .utf8 text) : q.ownBytes? i = some c.write := by
  by_cases hi : i.toNat < p.size
  · have hp : p.constant i = .ok c := by
      rw [constant_ok, ← (hl.slots hi).2]
      exact constant_ok.mp hc
    obtain ⟨bs, hbs, hread⟩ := ownBytes?_some h hp
    have hwrite := Constant.read_write (hread []) htext
    rw [List.append_nil, List.append_nil] at hwrite
    rw [ownBytes?_kept h hl hi, hbs, hwrite]
  · have hq : ¬i.toNat < q.sourceSlots := by
      rw [hl.sourceSlots, read_sourceSlots h]
      exact hi
    rw [ownBytes?, if_neg hq, hc]
    rfl

/-- An entry that names no text is loaded again with the same bytes. -/
theorem reloads_same (h : Pool.read s = .ok (p, rest)) (hl : p.Leads q) (hi : p.constant i = .ok c)
    (hj : q.constant j = .ok c) (hnone : c.text? = none) (htext : ∀ text, c ≠ .utf8 text) :
    p.Reloads q i j := by
  have hraw : p.rawContent? i = some c.write := by
    rw [rawContent?, text?_of_constant hi, hnone]
    exact ownBytes?_write h .refl hi htext
  have hraw' : q.rawContent? j = some c.write := by
    rw [rawContent?, text?_of_constant hj, hnone]
    exact ownBytes?_write h hl hj htext
  refine ⟨?_, ?_⟩
  · obtain ⟨tag, body, hwrite⟩ : ∃ tag body, c.write = tag :: body := by
      cases c with
      | methodRef owner nt isInterface => cases isInterface <;> exact ⟨_, _, rfl⟩
      | _ => exact ⟨_, _, rfl⟩
    exact ⟨tag, body, body, by rw [hraw, hwrite], by rw [hraw', hwrite]⟩
  · have hspelled : p.SpelledFirst i := by
      intro t s k ht
      rw [text?_of_constant hi, hnone] at ht
      cases ht
    rw [hraw, hraw']
    exact ⟨fun _ => hspelled, fun _ => rfl⟩

/-- An entry that names a text is loaded again with the first text that is decoded alike. -/
theorem reloads_text {text : String} {tag : UInt8} {make : PoolIndex → Constant}
    (hwrite : ∀ k, (make k).write = tag :: Write.u16 k) (htext : ∀ k, (make k).text? = some k)
    (h : Pool.read s = .ok (p, rest)) (hl : p.Leads q) (hi : p.constant i = .ok (make t))
    (ht : p.utf8 t = .ok text) (hj : q.constant j = .ok (make k)) (hk : q.Least text k) :
    p.Reloads q i j := by
  have hp : p.Reached := .read h
  have hutf8 (k : PoolIndex) : ∀ text, make k ≠ .utf8 text := by
    intro text heq
    have := htext k
    rw [heq] at this
    cases this
  have hleast : p.Least text k := by
    obtain ⟨k', hk', -⟩ := hp.lowest _ _ (constant_ok.mp (utf8_ok.mp ht))
    have hk' : p.Least text k' := hp.least_iff.mpr hk'
    rw [(hk'.leads hp hl).unique hk] at hk'
    exact hk'
  obtain ⟨old, hold, -⟩ := ownBytes?_some h (utf8_ok.mp ht)
  obtain ⟨new, hnew, -⟩ := ownBytes?_some h (utf8_ok.mp hleast.1)
  have hnew' : q.ownBytes? k = some new := by
    rw [ownBytes?_kept h hl (constant_lt (utf8_ok.mp hleast.1)), hnew]
  have hraw : p.rawContent? i = some (tag :: old) := by
    rw [rawContent?, text?_of_constant hi, htext, ownBytes?_write h .refl hi (hutf8 t), hwrite]
    simp [hold]
  have hraw' : q.rawContent? j = some (tag :: new) := by
    rw [rawContent?, text?_of_constant hj, htext, ownBytes?_write h hl hj (hutf8 k), hwrite]
    simp [hnew']
  refine ⟨⟨tag, old, new, hraw, hraw'⟩, ?_⟩
  rw [hraw, hraw']
  constructor
  · intro heq t' text' k' ht' htext' hk'
    rw [text?_of_constant hi, htext] at ht'
    cases ht'
    cases ht.symm.trans htext'
    cases heq
    rw [hk'.unique hleast, hnew, hold]
  · intro hfirst
    have heq := hfirst t text k (by rw [text?_of_constant hi, htext]) ht hleast
    rw [hnew, hold] at heq
    cases heq
    rfl

end Pool

namespace Literal

variable {p q : Pool} {l : Literal} {j : PoolIndex}

/-- The entry at an index is one that a literal is given: a text is the lowest one that is decoded alike. -/
def Entered (q : Pool) : Literal → PoolIndex → Prop
  | .int n, j => q.constant j = .ok (.integer n)
  | .float bits, j => q.constant j = .ok (.float bits)
  | .long n, j => q.constant j = .ok (.long n)
  | .double bits, j => q.constant j = .ok (.double bits)
  | .string s, j => ∃ k, q.constant j = .ok (.string k) ∧ q.Least s k
  | .classRef t, j => ∃ k, q.constant j = .ok (.classRef k) ∧ q.Least t.className k
  | .methodType t, j => ∃ k, q.constant j = .ok (.methodType k) ∧ q.Least t.text k
  | .methodHandle i, j => j = i
  | .dynamic i _, j => j = i

theorem Entered.leads (h : l.Entered p j) (hp : p.Reached) (hl : p.Leads q) : l.Entered q j := by
  cases l with
  | int n | float bits | long n | double bits => exact hl.grows.constant h
  | string s | classRef t | methodType t =>
    obtain ⟨k, hk, hleast⟩ := h
    exact ⟨k, hl.grows.constant hk, hleast.leads hp hl⟩
  | methodHandle i | dynamic i t => exact h

/-- A constant that names a text, and the text, are entered. -/
theorem entered_text {s : String} {make : PoolIndex → Constant} (hp : p.Reached)
    (h : (do Pool.intern (make (← Pool.internUtf8 s)) : PoolM PoolIndex) p = (.ok j, q)) :
    ∃ k, q.constant j = .ok (make k) ∧ q.Least s k := by
  obtain ⟨k, r, hk, h⟩ := Pool.run_bind_ok.mp h
  obtain ⟨hl, hindex, -⟩ := Pool.internUtf8_ok hp hk
  have hr := hl.reached hp
  have hleast : r.Least s k := hr.least_iff.mpr hindex
  obtain ⟨-, -, hj⟩ := Pool.intern_ok hr.sound h
  exact ⟨k, hj, hleast.leads hr ((Pool.intern_interns _).run h)⟩

theorem intern_entered (hp : p.Reached) (h : l.intern p = (.ok j, q)) : l.Entered q j := by
  cases l with
  | int n | float bits | long n | double bits => exact (Pool.intern_ok hp.sound h).2.2
  | string s | classRef t | methodType t => exact entered_text hp h
  | methodHandle i | dynamic i t =>
    cases h
    rfl

/-- What a literal was read from is loaded again from the entry that it is given. -/
theorem Entered.reloads {s rest : Bytes} {i : PoolIndex} (hj : l.Entered q j)
    (h : Pool.read s = .ok (p, rest)) (hl : p.Leads q) (hi : p.literal i = .ok l) :
    p.Reloads q i j := by
  obtain ⟨c, hc, hi⟩ := except_bind_ok.mp hi
  have same (hj : q.constant j = .ok c) (hnone : c.text? = none) (htext : ∀ text, c ≠ .utf8 text) :
      p.Reloads q i j := Pool.reloads_same h hl hc hj hnone htext
  cases c with
  | integer n | float bits | long n | double bits =>
    cases hi
    exact same hj rfl nofun
  | string t =>
    obtain ⟨text, ht, hi⟩ := except_bind_ok.mp hi
    cases hi
    obtain ⟨k, hj, hk⟩ := hj
    exact Pool.reloads_text (fun _ => rfl) (fun _ => rfl) h hl hc ht hj hk
  | classRef t =>
    obtain ⟨type, htype, hi⟩ := except_bind_ok.mp hi
    cases hi
    obtain ⟨k, hj, hk⟩ := hj
    obtain ⟨name, hname, htype⟩ := except_bind_ok.mp htype
    obtain ⟨t', hc', ht⟩ := Pool.className_ok.mp hname
    cases hc.symm.trans hc'
    rw [RefType.className_of_parse (except_mapError_ok.mp htype)] at hk
    exact Pool.reloads_text (fun _ => rfl) (fun _ => rfl) h hl hc ht hj hk
  | methodType t =>
    obtain ⟨text, ht, hi⟩ := except_bind_ok.mp hi
    obtain ⟨type, htype, hi⟩ := except_bind_ok.mp hi
    cases hi
    obtain ⟨k, hj, hk⟩ := hj
    rw [MethodType.text_of_parse (except_mapError_ok.mp htype)] at hk
    exact Pool.reloads_text (fun _ => rfl) (fun _ => rfl) h hl hc ht hj hk
  | methodHandle kind member =>
    cases hi
    cases hj
    exact same (hl.grows.constant hc) rfl nofun
  | dynamic bootstrap nt =>
    obtain ⟨⟨name, descriptor⟩, -, hi⟩ := except_bind_ok.mp hi
    obtain ⟨type, -, hi⟩ := except_bind_ok.mp hi
    cases hi
    cases hj
    exact same (hl.grows.constant hc) rfl nofun
  | _ => cases hi

end Literal

end ClassGraft
