import ClassGraft.Proofs.ByteReading
import ClassGraft.Proofs.PoolLookup

namespace ClassGraft

variable {α β γ : Type}

/-- The reader takes just these bytes for the value, and moves its offset past them. -/
def Consumes (m : CodeReader α) (bs : Bytes) (a : α) : Prop :=
  ∀ o rest, m ⟨o, bs ++ rest⟩ = .ok (a, ⟨o + bs.length, rest⟩)

namespace Consumes

theorem pure (a : α) : Consumes (Pure.pure a) [] a := fun _ _ => rfl

theorem bind {m : CodeReader α} {f : α → CodeReader β} {bs cs : Bytes} {a : α} {b : β}
    (hm : Consumes m bs a) (hf : Consumes (f a) cs b) : Consumes (m >>= f) (bs ++ cs) b := by
  intro o rest
  have h := hm o (cs ++ rest)
  simp only [Bind.bind, StateT.bind, List.append_assoc, h, Except.bind]
  rw [hf, List.length_append, Nat.add_assoc]

theorem map {m : CodeReader α} {bs : Bytes} {a : α} (hm : Consumes m bs a) (f : α → β) :
    Consumes (do return f (← m)) bs (f a) := by
  have h := bind (f := fun a => Pure.pure (f a)) hm (pure (f a))
  rwa [List.append_nil] at h

theorem look {x : Except ClassError α} {a : α} (h : x = .ok a) :
    Consumes (CodeSite.look x) [] a := by
  intro o rest
  rw [h]
  rfl

/-- What comes behind a value is looked up with it. -/
theorem bindLook {m : CodeReader α} {x : α → Except ClassError β} {bs : Bytes} {a : α} {b : β}
    (hm : Consumes m bs a) (h : x a = .ok b) :
    Consumes (m >>= fun a => CodeSite.look (x a)) bs b := by
  have hb := hm.bind (f := fun a => CodeSite.look (x a)) (look h)
  rwa [List.append_nil] at hb

theorem lookThen {m : CodeReader α} {x : α → Except ClassError β} {f : β → CodeReader γ}
    {bs cs : Bytes} {a : α} {b : β} {d : γ} (hm : Consumes m bs a) (h : x a = .ok b)
    (hf : Consumes (f b) cs d) :
    Consumes (m >>= fun a => CodeSite.look (x a) >>= f) (bs ++ cs) d :=
  bind (f := fun a => CodeSite.look (x a) >>= f) hm (bind (f := f) (look h) hf)

theorem fetch (c : CodeSite) {r : Reader α} {bs : Bytes} {a : α} (h : r.Reads bs a) :
    Consumes (c.fetch bs.length r) bs a := by
  intro o rest
  simp only [CodeSite.fetch, h rest]

theorem times {item : CodeReader α} {write : α → Bytes} (xs : List α)
    (h : ∀ a ∈ xs, Consumes item (write a) a) :
    Consumes (Reader.times xs.length item) (xs.flatMap write) xs := by
  have collect (acc : List α) : ∀ o rest,
      Reader.collect item xs.length acc ⟨o, xs.flatMap write ++ rest⟩ =
        .ok (acc.reverse ++ xs, ⟨o + (xs.flatMap write).length, rest⟩) := by
    induction xs generalizing acc with
    | nil => intro o rest; simp [Reader.collect]
    | cons a xs ih =>
      intro o rest
      have ha := h a List.mem_cons_self o (xs.flatMap write ++ rest)
      rw [List.flatMap_cons, List.append_assoc, List.length_cons, Reader.collect, ha]
      simp only [ih (fun b hb => h b (List.mem_cons_of_mem _ hb)) (a :: acc), List.reverse_cons,
        List.append_assoc, List.singleton_append, List.length_append, Nat.add_assoc]
  exact collect []

end Consumes

/-- The bytes are those of an instruction at a site. -/
def CodeSite.Decodes (c : CodeSite) (bs : Bytes) (i : CodeItem) : Prop :=
  ∃ op tail, bs = op :: tail ∧ Consumes (c.item op) tail i

namespace CodeSite

variable (c : CodeSite)

theorem u8_consumes (v : UInt8) : Consumes c.u8 [v] v := .fetch c (.u8 v)

theorem i8_consumes (v : Int8) : Consumes c.i8 [v.toUInt8] v := .fetch c (.i8 v)

theorem u16_consumes (v : UInt16) : Consumes c.u16 (Write.u16 v) v := .fetch c (.u16 v)

theorem i16_consumes (v : Int16) : Consumes c.i16 (Write.i16 v) v := .fetch c (.i16 v)

theorem i32_consumes (v : Int32) : Consumes c.i32 (Write.i32 v) v := .fetch c (.i32 v)

theorem skip_consumes (bs : Bytes) : Consumes (c.skip bs.length) bs bs := .fetch c (.raw bs)

theorem byteSlot_consumes {slot : UInt16} (h : slot < 256) :
    Consumes c.byteSlot [slot.toUInt8] slot := by
  have hb := (c.u8_consumes slot.toUInt8).map UInt8.toUInt16
  rwa [UInt16.toUInt8_toUInt16 h] at hb

theorem near_consumes {relative : Int} {target : Nat} (hr : -32768 ≤ relative ∧ relative ≤ 32767)
    (h : c.jump relative = .ok target) :
    Consumes c.near (Write.i16 (Int16.ofInt relative)) target := by
  have hi : (Int16.ofInt relative).toInt = relative := by
    rw [Int16.toInt_ofInt_of_le] <;> omega
  exact (c.i16_consumes _).bindLook (by rw [hi, h])

theorem far_consumes {relative : Int} {target : Nat}
    (hr : -2147483648 ≤ relative ∧ relative ≤ 2147483647) (h : c.jump relative = .ok target) :
    Consumes c.far (Write.i32 (Int32.ofInt relative)) target := by
  have hi : (Int32.ofInt relative).toInt = relative := by
    rw [Int32.toInt_ofInt_of_le] <;> omega
  exact (c.i32_consumes _).bindLook (by rw [hi, h])

theorem classAt_consumes {i : PoolIndex} {t : RefType} (h : c.pool.classType i = .ok t) :
    Consumes c.classAt (Write.u16 i) t := (c.u16_consumes i).bindLook h

end CodeSite

theorem Instruction.ofOpcode?_opcode? {i : Instruction} {op : UInt8} (h : i.opcode? = some op) :
    Instruction.ofOpcode? op = some i := by
  cases i <;> cases h
  case nop | constNull | compareLong | arrayLength | monitorEnter | monitorExit => rfl
  case constInt n | constLong n | constFloat n | constDouble n => revert n; decide
  case arrayLoad k | arrayStore k => cases k <;> rfl
  case stack op => cases op <;> rfl
  case arithmetic op k => cases op <;> cases k <;> rfl
  case shift op long | bitwise op long => cases op <;> cases long <;> rfl
  case convert k => cases k <;> rfl
  case compareFloat m | compareDouble m => cases m <;> rfl

theorem short_slot {slot : UInt16} (h : slot < 4) : slot = 0 ∨ slot = 1 ∨ slot = 2 ∨ slot = 3 := by
  have hn : slot.toNat < 4 := h
  simp only [← UInt16.toNat_inj]
  have h0 : (0 : UInt16).toNat = 0 := rfl
  have h1 : (1 : UInt16).toNat = 1 := rfl
  have h2 : (2 : UInt16).toNat = 2 := rfl
  have h3 : (3 : UInt16).toNat = 3 := rfl
  omega

theorem Instruction.ofOpcode?_load (k : ValueKind) {slot : UInt16} (h : slot < 4) :
    Instruction.ofOpcode? (0x1A + 4 * k.code + slot.toUInt8) = some (.load k slot) := by
  rcases short_slot h with rfl | rfl | rfl | rfl <;> cases k <;> rfl

theorem Instruction.ofOpcode?_store (k : ValueKind) {slot : UInt16} (h : slot < 4) :
    Instruction.ofOpcode? (0x3B + 4 * k.code + slot.toUInt8) = some (.store k slot) := by
  rcases short_slot h with rfl | rfl | rfl | rfl <;> cases k <;> rfl

namespace CodeSite

variable {c : CodeSite}

theorem decodes_one {op : UInt8} {i : Instruction} (h : Instruction.ofOpcode? op = some i) :
    c.Decodes [op] (.inl i) := by
  refine ⟨op, [], rfl, ?_⟩
  simp only [item, h]
  exact .pure _

theorem decodes_instruction {op : UInt8} {tail : Bytes} {i : Instruction}
    (h : c.item op = do return .inl (← c.instruction op)) (hi : Consumes (c.instruction op) tail i) :
    c.Decodes (op :: tail) (.inl i) := by
  refine ⟨op, tail, rfl, ?_⟩
  rw [h]
  exact hi.map _

theorem decodes_wide {op : UInt8} {tail : Bytes} {i : CodeItem}
    (h : Consumes c.wide (op :: tail) i) : c.Decodes (0xC4 :: op :: tail) i :=
  ⟨0xC4, op :: tail, rfl, h⟩

/-- The three forms of an instruction with a slot. -/
theorem decodes_slot {short normal : UInt8} {slot : UInt16} {i : Instruction}
    (hshort : slot < 4 → Instruction.ofOpcode? (short + slot.toUInt8) = some i)
    (hitem : c.item normal = do return .inl (← c.instruction normal))
    (hbyte : slot < 256 → Consumes (c.instruction normal) [slot.toUInt8] i)
    (hwide : Consumes c.wide (normal :: Write.u16 slot) (.inl i)) :
    c.Decodes (slotForm short normal slot) (.inl i) := by
  unfold slotForm
  split
  next h => exact decodes_one (hshort h)
  next =>
    split
    next h => exact decodes_instruction hitem (hbyte h)
    next => exact decodes_wide hwide

theorem decodes_load (k : ValueKind) (slot : UInt16) :
    c.Decodes (slotForm (0x1A + 4 * k.code) (0x15 + k.code) slot) (.inl (.load k slot)) := by
  refine decodes_slot (Instruction.ofOpcode?_load k) (by cases k <;> rfl) (fun h => ?_)
    (.bind (c.u8_consumes _) ?_)
  · cases k <;> exact (c.byteSlot_consumes h).map _
  · cases k <;> exact (c.u16_consumes slot).map _

theorem decodes_store (k : ValueKind) (slot : UInt16) :
    c.Decodes (slotForm (0x3B + 4 * k.code) (0x36 + k.code) slot) (.inl (.store k slot)) := by
  refine decodes_slot (Instruction.ofOpcode?_store k) (by cases k <;> rfl) (fun h => ?_)
    (.bind (c.u8_consumes _) ?_)
  · cases k <;> exact (c.byteSlot_consumes h).map _
  · cases k <;> exact (c.u16_consumes slot).map _

theorem decodes_increment (slot : UInt16) (amount : Int16) :
    c.Decodes (incrementForm slot amount) (.inl (.increment slot amount)) := by
  unfold incrementForm
  split
  next h =>
    simp only [Bool.and_eq_true, decide_eq_true_eq] at h
    refine decodes_instruction rfl ?_
    have hs := c.byteSlot_consumes h.1
    refine .bind hs ?_
    have ha := (c.i8_consumes amount.toInt8).map fun n => Instruction.increment slot n.toInt16
    rwa [h.2] at ha
  next =>
    refine decodes_wide (.bind (c.u8_consumes _) ?_)
    exact .bind (c.u16_consumes slot) ((c.i16_consumes amount).map _)

theorem decodes_ldc {l : Literal} {i : PoolIndex} (h : c.pool.literal i = .ok l) :
    c.Decodes (ldcForm l.width i) (.inl (.ldc l)) := by
  unfold ldcForm
  split
  next => exact decodes_instruction rfl (((c.u16_consumes i).bindLook h).map _)
  next =>
    split
    next hi => exact decodes_instruction rfl (((c.byteSlot_consumes hi).bindLook h).map _)
    next => exact decodes_instruction rfl (((c.u16_consumes i).bindLook h).map _)

theorem decodes_field (a : FieldAccess) {f : FieldRef} {i : PoolIndex}
    (h : c.pool.fieldRef i = .ok f) :
    c.Decodes ((0xB2 + a.code) :: Write.u16 i) (.inl (.field a f)) := by
  refine decodes_instruction (by cases a <;> rfl) ?_
  cases a <;> exact ((c.u16_consumes i).bindLook h).map _

theorem decodes_invoke (k : InvokeKind) {m : MethodRef} {i : PoolIndex} (slots : UInt8)
    (h : c.pool.methodRef i = .ok m) :
    c.Decodes (if k = .interface then (0xB6 + k.code) :: Write.u16 i ++ [slots, 0]
      else (0xB6 + k.code) :: Write.u16 i) (.inl (.invoke k m)) := by
  have hm := (c.u16_consumes i).bindLook h
  cases k with
  | interface =>
    refine decodes_instruction rfl ?_
    exact .lookThen (c.u16_consumes i) h ((c.skip_consumes [slots, 0]).map _)
  | virtual => exact decodes_instruction rfl (hm.map _)
  | special => exact decodes_instruction rfl (hm.map _)
  | static => exact decodes_instruction rfl (hm.map _)

theorem decodes_invokeDynamic {s : CallSite} {i : PoolIndex} (h : c.pool.callSite i = .ok s) :
    c.Decodes (0xBA :: Write.u16 i ++ [0, 0]) (.inl (.invokeDynamic s)) := by
  refine decodes_instruction rfl ?_
  exact .lookThen (c.u16_consumes i) h ((c.skip_consumes [0, 0]).map _)

theorem decodes_new {n : BinaryName} {i : PoolIndex} (h : c.pool.classType i = .ok (.object n)) :
    c.Decodes (0xBB :: Write.u16 i) (.inl (.new n)) := by
  have hp : c.pool.plainClass i = .ok n := by
    simp only [Pool.plainClass, h, bind, Except.bind]
    rfl
  exact decodes_instruction rfl (((c.u16_consumes i).bindLook hp).map _)

theorem decodes_newArray (t : BaseType) : c.Decodes [0xBC, t.arrayCode] (.inl (.newArray t)) := by
  refine decodes_instruction rfl (.bind (c.u8_consumes _) ?_)
  cases t <;> exact .pure _

theorem decodes_class {op : UInt8} {make : RefType → Instruction} {t : RefType} {i : PoolIndex}
    (h : c.item op = do return .inl (← c.instruction op))
    (hm : c.instruction op = do return make (← c.classAt)) (ht : c.pool.classType i = .ok t) :
    c.Decodes (op :: Write.u16 i) (.inl (make t)) := by
  refine decodes_instruction h ?_
  rw [hm]
  exact (c.classAt_consumes ht).map make

theorem decodes_newMultiArray {t : RefType} {i : PoolIndex} (dimensions : UInt8)
    (h : c.pool.classType i = .ok t) :
    c.Decodes (0xC5 :: Write.u16 i ++ [dimensions]) (.inl (.newMultiArray t dimensions)) :=
  decodes_instruction rfl (.bind (c.classAt_consumes h) ((c.u8_consumes dimensions).map _))

end CodeSite

open Pool in
/-- Whatever the site, an instruction is read back from its bytes. -/
theorem Instruction.encode_yields (i : Instruction) :
    Yields i.encode fun q bs => (∀ l, i = .ldc l → q.Names l) →
      ∀ length offset, (CodeSite.mk q length offset).Decodes bs (.inl i) := by
  cases i with
  | bipush n =>
    exact .pure fun q _ _ _ => CodeSite.decodes_instruction rfl ((CodeSite.i8_consumes _ n).map _)
  | sipush n =>
    exact .pure fun q _ _ _ => CodeSite.decodes_instruction rfl ((CodeSite.i16_consumes _ n).map _)
  | ldc l =>
    exact l.intern_yields.map fun q i _ h hn _ _ => CodeSite.decodes_ldc (h (hn l rfl))
  | load k slot => exact .pure fun q _ _ _ => CodeSite.decodes_load k slot
  | store k slot => exact .pure fun q _ _ _ => CodeSite.decodes_store k slot
  | increment slot amount => exact .pure fun q _ _ _ => CodeSite.decodes_increment slot amount
  | field a f => exact (internField_yields f).map fun q i _ h _ _ _ => CodeSite.decodes_field a h
  | invoke k m =>
    exact (internMethod_yields m).map fun q i _ h _ _ _ => CodeSite.decodes_invoke k _ h
  | invokeDynamic s =>
    exact (internInvokeDynamic_yields s).map fun q i _ h _ _ _ => CodeSite.decodes_invokeDynamic h
  | new n =>
    exact (internClass_yields _).map fun q i _ h _ _ _ => CodeSite.decodes_new (classType_ok h.1)
  | newArray t => exact .pure fun q _ _ _ => CodeSite.decodes_newArray t
  | newRefArray t | checkCast t | instanceOf t =>
    exact (internClass_yields t).map fun q i _ h _ _ _ =>
      CodeSite.decodes_class rfl rfl (classType_ok h.1)
  | newMultiArray t dimensions =>
    exact (internClass_yields t).map fun q i _ h _ _ _ =>
      CodeSite.decodes_newMultiArray dimensions (classType_ok h.1)
  | _ => exact .pure fun q _ _ _ => CodeSite.decodes_one (Instruction.ofOpcode?_opcode? rfl)

end ClassGraft
