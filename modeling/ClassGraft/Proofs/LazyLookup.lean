import ClassGraft.LazyPool
import ClassGraft.Proofs.PoolBytes

namespace ClassGraft

theorem HandleKind.tag_injective {k l : HandleKind} (h : k.tag = l.tag) : k = l := by
  cases k <;> cases l <;> first | rfl | exact absurd h (by decide)

theorem Constant.key_injective {c d : Constant} (h : c.key = d.key) : c = d := by
  cases c with
  | methodHandle kind member =>
    cases d with
    | methodHandle kind' member' =>
      obtain ⟨ht, rfl⟩ := ConstantKey.methodHandle.inj h
      rw [HandleKind.tag_injective ht]
    | _ => cases h
  | _ => cases d <;> cases h; rfl

section

variable {κ : Type} [BEq κ] [Hashable κ] {key : Constant → κ} {c : Constant}
  {slots : Array (Option Constant)}

theorem tabulate_push_some : tabulate key (slots.push (some c)) =
    (tabulate key slots).insertIfNew (key c) slots.size.toUInt16 := by
  unfold tabulate
  rw [Array.toList_push, List.zipIdx_append, List.foldl_append]
  simp [enterSlot]

theorem tabulate_push_none : tabulate key (slots.push none) = tabulate key slots := by
  unfold tabulate
  rw [Array.toList_push, List.zipIdx_append, List.foldl_append]
  simp [enterSlot]

variable [LawfulBEq κ] [LawfulHashable κ]

/-- Keys that tell constants apart do as well as the constants. -/
theorem tabulate_key (hkey : ∀ c d, key c = key d → c = d) (c : Constant) :
    (tabulate key slots)[key c]? = (tabulate id slots)[c]? := by
  unfold tabulate
  suffices h : ∀ (xs : List (Option Constant × Nat)) (t : Std.HashMap κ PoolIndex)
      (u : Std.HashMap Constant PoolIndex), (∀ c, t[key c]? = u[c]?) →
      ∀ c, (xs.foldl (enterSlot key) t)[key c]? = (xs.foldl (enterSlot id) u)[c]? from
    h _ _ _ (fun _ => by rw [Std.HashMap.getElem?_empty, Std.HashMap.getElem?_empty]) c
  intro xs
  induction xs with
  | nil => exact fun t u h => h
  | cons x xs ih =>
    refine fun t u h => ih _ _ fun c => ?_
    obtain ⟨_ | d, n⟩ := x
    · exact h c
    · have hmem : key d ∈ t ↔ d ∈ u := by
        rw [Std.HashMap.mem_iff_isSome_getElem?, h, ← Std.HashMap.mem_iff_isSome_getElem?]
      have heq : (key d == key c) = (d == c) := by
        rw [Bool.eq_iff_iff, beq_iff_eq, beq_iff_eq]
        exact ⟨hkey d c, congrArg key⟩
      simp only [enterSlot, id, Std.HashMap.getElem?_insertIfNew, hmem, heq, h]

end

namespace Pool

variable {p : Pool} {c : Constant} {i : PoolIndex}

theorem append_tabulated (h : p.index = tabulate id p.slots) (c : Constant) :
    (p.append c).index = tabulate id (p.append c).slots := by
  rw [append_index, append_slots, h]
  split
  next => rw [tabulate_push_none, tabulate_push_some]; rfl
  next => rw [tabulate_push_some]; rfl

theorem lasts_tabulated : Lasts fun p => p.index = tabulate id p.slots where
  empty := rfl
  append _ c _ h := append_tabulated h c
  read _ _ _ h := h

theorem Reached.index_first (h : p.Reached) (hi : p.index[c]? = some i) {n : Nat} (hn : n < i.toNat) :
    p.slots[n]? ≠ some (some c) := by
  intro hc
  obtain ⟨j, hj, hle⟩ := h.lowest n c hc
  cases hi.symm.trans hj
  omega

end Pool

namespace LazyPool

/-- The pools that can arise: an empty one or one that was read, behind all that was asked for since. -/
inductive Reached : LazyPool → Prop
  | empty : Reached LazyPool.empty
  | read {s rest : Bytes} {z : LazyPool} : LazyPool.read s = .ok (z, rest) → Reached z
  | intern {c : Constant} {r : Except ClassError PoolIndex} {z z' : LazyPool} :
      Reached z → LazyPool.intern c z = (r, z') → Reached z'

/-- What a search through all slots finds or adds. -/
def search (c : Constant) (slots : Array (Option Constant)) :
    Except ClassError PoolIndex × Array (Option Constant) :=
  match slots.findIdx? (· == some c) with
  | some n => (.ok n.toUInt16, slots)
  | none =>
    if slots.size + c.width > 65535 then (.error (.poolOverflow c slots.size), slots)
    else (.ok slots.size.toUInt16, slots ++ if c.isWide then #[some c, none] else #[some c])

/-- The table, if there is one, is what it would be if it were made now. -/
def Current (z : LazyPool) : Prop := ∀ table, z.lookup = some table →
  ∀ c : Constant, table[c.key]? = (tabulate id z.slots)[c]?

/-- Two computations do the same, the first one with a table that is made late. -/
def Mirrors {α : Type} (x : LazyPoolM α) (y : PoolM α) : Prop := ∀ z : LazyPool, z.Reached →
  y z.pool = ((x z).1, (x z).2.pool) ∧ (x z).2.Reached

variable {z z' : LazyPool} {c : Constant} {i : PoolIndex} {α β : Type}

theorem tabled_current (h : z.Current) : ∃ table, z.tabled = { z with lookup := some table } ∧
    ∀ c : Constant, table[c.key]? = (tabulate id z.slots)[c]? := by
  unfold tabled
  split
  next table ht => exact ⟨table, by rw [← ht], h table ht⟩
  next => exact ⟨_, rfl, fun c => tabulate_key (fun _ _ => Constant.key_injective) c⟩

/-- The pool that is held, with one more constant. -/
theorem pool_append (z : LazyPool) (c : Constant) (lookup : Option (Std.HashMap ConstantKey PoolIndex)) :
    LazyPool.pool ⟨(z.pool.append c).slots, z.source, z.sourceSlots, lookup⟩ = z.pool.append c := by
  show Pool.mk (z.pool.append c).slots z.source z.sourceSlots (tabulate id (z.pool.append c).slots) = _
  rw [← Pool.append_tabulated rfl c]
  rfl

/-- What becomes of a pool that is asked for a constant. -/
theorem intern_run (h : z.Current) (c : Constant) : ∃ table, 
    (∀ d : Constant, table[d.key]? = z.pool.index[d]?) ∧
    intern c z = match z.pool.index[c]? with
      | some i => (.ok i, { z with lookup := some table })
      | none => if z.pool.size + c.width > 65535
        then (.error (.poolOverflow c z.pool.size), { z with lookup := some table })
        else (.ok z.pool.size.toUInt16, ⟨(z.pool.append c).slots, z.source, z.sourceSlots,
          some (table.insert c.key z.pool.size.toUInt16)⟩) := by
  obtain ⟨table, htabled, htable⟩ := tabled_current h
  refine ⟨table, htable, ?_⟩
  have hmodify : (modify tabled : LazyPoolM Unit) z = (.ok (), { z with lookup := some table }) :=
    congrArg (Prod.mk (Except.ok ())) htabled
  have hget (y : LazyPool) : (get : LazyPoolM LazyPool) y = (.ok y, y) := rfl
  unfold intern
  simp only [run_bind, hmodify, hget, Option.bind_some, htable]
  show _ = match (tabulate id z.slots)[c]? with | some _ => _ | none => _
  cases (tabulate id z.slots)[c]? with
  | some i => rfl
  | none =>
    have hsize : z.pool.size = z.slots.size := rfl
    rw [hsize]
    simp only [run_bind, push]
    by_cases hfull : z.slots.size + c.width > 65535
    · simp only [if_pos hfull]
    · simp only [if_neg hfull]
      rfl

theorem intern_step (h : z.Current) (c : Constant) :
    Pool.intern c z.pool = ((intern c z).1, (intern c z).2.pool) ∧ (intern c z).2.Current := by
  obtain ⟨table, htable, hrun⟩ := intern_run h c
  rw [hrun]
  unfold Pool.intern
  cases hi : z.pool.index[c]? with
  | some i =>
    refine ⟨rfl, ?_⟩
    rintro _ ⟨⟩
    exact htable
  | none =>
    by_cases hfull : z.pool.size + c.width > 65535
    · simp only [if_pos hfull]
      refine ⟨rfl, ?_⟩
      rintro _ ⟨⟩
      exact htable
    · simp only [if_neg hfull, pool_append]
      refine ⟨trivial, ?_⟩
      rintro _ ⟨⟩ d
      have hnew : c ∉ z.pool.index := fun hin => by
        rw [Std.HashMap.mem_iff_isSome_getElem?, hi] at hin
        cases hin
      have heq : (c.key == d.key) = (c == d) := by
        rw [Bool.eq_iff_iff, beq_iff_eq, beq_iff_eq]
        exact ⟨Constant.key_injective, congrArg Constant.key⟩
      show _ = (tabulate id (z.pool.append c).slots)[d]?
      rw [← Pool.append_tabulated rfl c, Pool.append_index, Std.HashMap.getElem?_insertIfNew,
        Std.HashMap.getElem?_insert, heq, htable]
      simp only [hnew, not_false_eq_true, and_true]

theorem read_pool {s rest : Bytes} (h : LazyPool.read s = .ok (z, rest)) :
    Pool.read s = .ok (z.pool, rest) ∧ z.lookup = none := by
  obtain ⟨⟨p, rest'⟩, hp, h⟩ := except_bind_ok.mp h
  cases h
  refine ⟨?_, rfl⟩
  rw [hp]
  unfold pool
  rw [← (Pool.Reached.read hp).lasts Pool.lasts_tabulated]

theorem Reached.current (h : z.Reached) : z.Current ∧ z.pool.Reached := by
  induction h with
  | empty => exact ⟨nofun, .empty⟩
  | read hr =>
    obtain ⟨hp, hnone⟩ := read_pool hr
    refine ⟨fun table ht => ?_, .read hp⟩
    rw [hnone] at ht
    cases ht
  | @intern c r z z' _ hi ih =>
    obtain ⟨hstep, hcurrent⟩ := intern_step ih.1 c
    rw [hi] at hstep hcurrent
    exact ⟨hcurrent, .intern ih.2 hstep⟩

theorem intern_mirrors (c : Constant) : Mirrors (intern c) (Pool.intern c) := fun _ hz =>
  ⟨(intern_step hz.current.1 c).1, .intern hz rfl⟩

theorem Mirrors.bind {x : LazyPoolM α} {y : PoolM α} {f : α → LazyPoolM β} {g : α → PoolM β}
    (h : Mirrors x y) (hf : ∀ a, Mirrors (f a) (g a)) : Mirrors (x >>= f) (y >>= g) := by
  intro z hz
  obtain ⟨hy, hz'⟩ := h z hz
  rw [run_bind, run_bind, hy]
  rcases hx : x z with ⟨e | a, z'⟩
  · rw [hx] at hz'
    exact ⟨rfl, hz'⟩
  · rw [hx] at hz'
    exact hf a z' hz'

theorem internUtf8_mirrors (s : String) : Mirrors (internUtf8 s) (Pool.internUtf8 s) := intern_mirrors _

theorem internClass_mirrors (t : RefType) : Mirrors (internClass t) (Pool.internClass t) :=
  .bind (internUtf8_mirrors _) fun _ => intern_mirrors _

theorem internNameAndType_mirrors (name descriptor : String) :
    Mirrors (internNameAndType name descriptor) (Pool.internNameAndType name descriptor) :=
  .bind (internUtf8_mirrors _) fun _ => .bind (internUtf8_mirrors _) fun _ => intern_mirrors _

theorem internField_mirrors (owner : BinaryName) (name descriptor : String) :
    Mirrors (internField owner name descriptor) (Pool.internField owner name descriptor) :=
  .bind (internClass_mirrors _) fun _ => .bind (internNameAndType_mirrors _ _) fun _ => intern_mirrors _

theorem internMethod_mirrors (owner : RefType) (name descriptor : String) (isInterface : Bool) :
    Mirrors (internMethod owner name descriptor isInterface)
      (Pool.internMethod owner name descriptor isInterface) :=
  .bind (internClass_mirrors _) fun _ => .bind (internNameAndType_mirrors _ _) fun _ => intern_mirrors _

/-- What a computation finds is still found in the pool behind it. -/
theorem Mirrors.yields {x : LazyPoolM α} {y : PoolM α} {Q : Pool → α → Prop} {a : α} (h : Mirrors x y)
    (hy : Pool.Yields y Q) (hz : z.Reached) (hx : x z = (.ok a, z')) : Q z'.pool a := by
  obtain ⟨hrun, hz'⟩ := h z hz
  rw [hx] at hrun hz'
  obtain ⟨hsound, -, hq⟩ := hy z.pool a z'.pool hz.current.2.sound hrun
  exact hq z'.pool hsound (.refl _)

theorem search_pool (h : z.pool.Reached) (c : Constant) :
    search c z.slots = ((Pool.intern c z.pool).1, (Pool.intern c z.pool).2.slots) := by
  have hfits : z.slots.size ≤ 65535 := h.sound.fits
  unfold search Pool.intern
  cases hi : z.pool.index[c]? with
  | some i =>
    obtain ⟨hlt, hat⟩ := Array.getElem?_eq_some_iff.mp (h.sound.indexed c i hi)
    have hfind : z.slots.findIdx? (· == some c) = some i.toNat := by
      rw [Array.findIdx?_eq_some_iff_getElem]
      exact ⟨hlt, beq_iff_eq.mpr hat, fun n hn hbeq => h.index_first hi hn
        ((Array.getElem?_eq_getElem _).trans (congrArg some (beq_iff_eq.mp hbeq)))⟩
    have hback : i.toNat.toUInt16 = i := by rw [Nat.toUInt16_eq, UInt16.ofNat_toNat]
    simp only [hfind, hback]
    rfl
  | none =>
    have hfind : z.slots.findIdx? (· == some c) = none := by
      rw [Array.findIdx?_eq_none_iff]
      intro x hx
      rw [Bool.eq_false_iff]
      intro hbeq
      rw [beq_iff_eq.mp hbeq] at hx
      obtain ⟨n, hn⟩ := Array.getElem?_of_mem hx
      obtain ⟨i, hi', -⟩ := h.lowest n c hn
      rw [hi] at hi'
      cases hi'
    rw [hfind]
    show (if z.slots.size + c.width > 65535 then _ else _) = _
    have hsize : z.pool.size = z.slots.size := rfl
    rw [hsize]
    split
    next => rfl
    next =>
      refine congrArg (Prod.mk (Except.ok _)) ?_
      show _ = (z.pool.append c).slots
      rw [Pool.append_slots]
      split <;> rfl

/-- A constant is asked for in a pool that has come about in any way. It is found at the lowest index
where it lies and nothing is added, or else it is put behind the others, unless it does not fit, as by a
search through all slots; and what goes in by parts comes out as it was. -/
theorem lookup_searches (h : z.Reached) :
    (∀ c, search c z.slots = ((intern c z).1, (intern c z).2.slots) ∧
      Pool.intern c z.pool = ((intern c z).1, (intern c z).2.pool) ∧
      ∀ i, (intern c z).1 = .ok i → (intern c z).2.slots[i.toNat]? = some (some c) ∧
        ∀ n < i.toNat, (intern c z).2.slots[n]? ≠ some (some c)) ∧
    (∀ s i z', internUtf8 s z = (.ok i, z') → z'.pool.utf8 i = .ok s) ∧
    (∀ t i z', internClass t z = (.ok i, z') → z'.pool.classType i = .ok t) ∧
    (∀ name descriptor i z', internNameAndType name descriptor z = (.ok i, z') →
      z'.pool.nameAndType i = .ok (name, descriptor)) ∧
    (∀ owner name descriptor i z', internField owner name descriptor z = (.ok i, z') →
      z'.pool.member i = .ok ⟨owner.text, name, descriptor, false⟩) ∧
    ∀ owner name descriptor isInterface i z',
      internMethod owner name descriptor isInterface z = (.ok i, z') →
      z'.pool.member i = .ok ⟨owner.className, name, descriptor, isInterface⟩ := by
  refine ⟨fun c => ?_, fun s i z' hx => ?_, fun t i z' hx => ?_, fun name descriptor i z' hx => ?_,
    fun owner name descriptor i z' hx => ?_, fun owner name descriptor isInterface i z' hx => ?_⟩
  · obtain ⟨hrun, hz'⟩ := intern_mirrors c z h
    refine ⟨?_, hrun, fun i hi => ?_⟩
    · rw [search_pool h.current.2, hrun]
      rfl
    · have hindex := Pool.intern_index (hrun.trans (congrArg (Prod.mk · _) hi))
      have hpool := hz'.current.2
      exact ⟨hpool.sound.indexed c i hindex, fun n hn => hpool.index_first hindex hn⟩
  · exact (internUtf8_mirrors s).yields (Pool.internUtf8_yields s) h hx
  · exact Pool.classType_ok ((internClass_mirrors t).yields (Pool.internClass_yields t) h hx).1
  · exact (internNameAndType_mirrors _ _).yields (Pool.internNameAndType_yields _ _) h hx
  · exact (internField_mirrors _ _ _).yields (Pool.internField_member _ _ _) h hx
  · exact (internMethod_mirrors _ _ _ _).yields (Pool.internMethod_member _ _ _ _) h hx

end LazyPool

namespace TwinPool

open LazyPool

/-- A pool that was read with two entries for one constant. -/
def source : Bytes := [3, 0, 0, 0, 7, 3, 0, 0, 0, 7]

def start : LazyPool := ⟨#[none, some (.integer 7), some (.integer 7)], source, 3, none⟩

theorem start_read : LazyPool.read (0 :: 3 :: source) = .ok (start, []) := by
  have hread : Pool.readEntries 3 Pool.empty source =
      .ok ((Pool.empty.append (.integer 7)).append (.integer 7), []) := by
    rw [Pool.readEntries, if_pos (by decide)]
    show Pool.readEntries 3 (Pool.empty.append (.integer 7)) [3, 0, 0, 0, 7] = _
    rw [Pool.readEntries, if_pos (by decide)]
    show Pool.readEntries 3 ((Pool.empty.append (.integer 7)).append (.integer 7)) [] = _
    rw [Pool.readEntries, if_neg (by decide)]
  unfold LazyPool.read Pool.read
  show ((Pool.readEntries 3 Pool.empty source).mapError ClassError.unreadable >>= _) >>= _ = _
  rw [hread]
  rfl

theorem start_search (n : Int32) : search (.integer n) start.slots =
    match [none, some (.integer 7), some (.integer 7)].findIdx? (· == some (Constant.integer n)) with
    | some k => (.ok k.toUInt16, start.slots)
    | none => (.ok 3, start.slots.push (some (.integer n))) := by
  unfold search
  rw [show start.slots = [none, some (.integer 7), some (.integer 7)].toArray from rfl,
    List.findIdx?_toArray]
  rfl

/-- Of the two, the first one is found. A constant that is not there comes behind them. -/
theorem first_found : start.Reached ∧
    ((intern (.integer 7) start).1, (intern (.integer 7) start).2.slots) = (.ok 1, start.slots) ∧
    ((intern (.integer 8) start).1, (intern (.integer 8) start).2.slots) =
      (.ok 3, start.slots.push (some (.integer 8))) := by
  have h : start.Reached := .read start_read
  obtain ⟨hlookup, -⟩ := lookup_searches h
  exact ⟨h, (hlookup (.integer 7)).1.symm.trans (start_search 7),
    (hlookup (.integer 8)).1.symm.trans (start_search 8)⟩

end TwinPool

end ClassGraft
