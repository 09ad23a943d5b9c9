import ClassGraft.Proofs.InstructionBytes

namespace ClassGraft

namespace Branch

variable {L M N : Type}

theorem size_pos (offset : Nat) (b : Branch L) : 0 < b.size offset := by
  cases b <;> simp only [size] <;> (try split) <;> omega

/-- A table switch has a target, and its bounds are numbers of four bytes. -/
def Bounded : Branch L → Prop
  | .tableSwitch _ low targets => targets ≠ [] ∧ low.toInt + targets.length - 1 ≤ 2147483647
  | _ => True

@[simp] theorem map_tableSwitch (f : L → M) (default : L) (low : Int32) (ls : List L) :
    (Branch.tableSwitch default low ls).map f = .tableSwitch (f default) low (ls.map f) := by
  simp [Branch.map, Branch.mapM]

@[simp] theorem map_lookupSwitch (f : L → M) (default : L) (cases : List (Int32 × L)) :
    (Branch.lookupSwitch default cases).map f =
      .lookupSwitch (f default) (cases.map fun c => (c.1, f c.2)) := by
  simp [Branch.map, Branch.mapM]

theorem size_map (f : L → M) (b : Branch L) (offset : Nat) :
    (b.map f).size offset = b.size offset := by
  cases b with
  | tableSwitch default low targets => simp [Branch.size]
  | lookupSwitch default cases => simp [Branch.size]
  | _ => rfl

theorem map_map (f : L → M) (g : M → N) (b : Branch L) : (b.map f).map g = b.map fun l => g (f l) := by
  cases b with
  | tableSwitch default low ls => simp
  | lookupSwitch default cases => simp
  | _ => rfl

theorem map_congr {f g : L → M} {b : Branch L} (h : ∀ l ∈ b.targets, f l = g l) :
    b.map f = b.map g := by
  cases b with
  | tableSwitch default low ls =>
    simp only [targets, List.mem_cons, forall_eq_or_imp] at h
    simp only [map_tableSwitch, h.1, List.map_congr_left h.2]
  | lookupSwitch default cases =>
    simp only [targets, List.mem_cons, forall_eq_or_imp, List.mem_map] at h
    have hc : cases.map (fun c => (c.1, f c.2)) = cases.map fun c => (c.1, g c.2) :=
      List.map_congr_left fun c hc => by rw [h.2 _ ⟨c, hc, rfl⟩]
    simp only [map_lookupSwitch, h.1, hc]
  | ret | leave | athrow => rfl
  | _ =>
    have hl := h _ List.mem_cons_self
    simp only [Branch.map, Branch.mapM, hl]

@[simp] theorem targets_map (f : L → M) (b : Branch L) : (b.map f).targets = b.targets.map f := by
  cases b with
  | tableSwitch default low ls => simp [targets]
  | lookupSwitch default cases => simp [targets]
  | _ => rfl

end Branch

namespace CodeSite

variable {c : CodeSite} {place : Label → Except ClassError Nat} {l : Label} {target : Nat}

theorem jump_ok (h : target < c.length) : c.jump (target - c.offset) = .ok target := by
  unfold jump
  have ht : (c.offset : Int) + (target - c.offset) = target := by omega
  simp only [ht]
  rw [if_neg (by omega)]
  simp

theorem near_decodes {bs : Bytes} (hb : Branch.nearJump c.offset place l = .ok bs)
    (hl : place l = .ok target) (ht : target < c.length) : Consumes c.near bs target := by
  simp only [Branch.nearJump, hl, bind, Except.bind] at hb
  split at hb
  next hr =>
    cases Except.ok.inj hb
    exact c.near_consumes hr (jump_ok ht)
  next => cases hb

/-- The bytes of a far jump. -/
def farBytes (offset target : Nat) : Bytes := Write.i32 (Int32.ofInt (target - offset))

theorem farJump_ok (hl : place l = .ok target) :
    Branch.farJump c.offset place l = .ok (farBytes c.offset target) := by
  simp only [Branch.farJump, hl]
  rfl

theorem far_decodes (ht : target < c.length) (hc : c.offset < c.length) (hn : c.length ≤ 65535) :
    Consumes c.far (farBytes c.offset target) target :=
  c.far_consumes (by omega) (jump_ok ht)

theorem decodes_branch {op : UInt8} {tail : Bytes} {b : Branch Nat}
    (h : c.item op = do return .inr (← c.branch op)) (hb : Consumes (c.branch op) tail b) :
    c.Decodes (op :: tail) (.inr b) := by
  refine ⟨op, tail, rfl, ?_⟩
  rw [h]
  exact hb.map _

theorem decodes_near {op : UInt8} {bs : Bytes} {make : Nat → Branch Nat}
    (h : c.item op = do return .inr (← c.branch op))
    (hm : c.branch op = do return make (← c.near))
    (hb : (do return op :: (← Branch.nearJump c.offset place l)) = .ok bs)
    (hl : place l = .ok target) (ht : target < c.length) :
    bs.length = 3 ∧ c.Decodes bs (.inr (make target)) := by
  obtain ⟨tail, hj, hb⟩ := except_bind_ok.mp hb
  cases Except.ok.inj hb
  constructor
  · simp only [Branch.nearJump, hl, bind, Except.bind] at hj
    split at hj
    next => cases Except.ok.inj hj; rfl
    next => cases hj
  · refine decodes_branch h ?_
    rw [hm]
    exact (near_decodes hj hl ht).map make

theorem decodes_far {op : UInt8} {bs : Bytes} {make : Nat → Branch Nat}
    (h : c.item op = do return .inr (← c.branch op))
    (hm : c.branch op = do return make (← c.far))
    (hb : (do return op :: (← Branch.farJump c.offset place l)) = .ok bs)
    (hl : place l = .ok target) (ht : target < c.length) (hc : c.offset < c.length)
    (hn : c.length ≤ 65535) : bs.length = 5 ∧ c.Decodes bs (.inr (make target)) := by
  rw [farJump_ok hl] at hb
  cases Except.ok.inj hb
  refine ⟨rfl, decodes_branch h ?_⟩
  rw [hm]
  exact (far_decodes ht hc hn).map make

theorem decodes_ret (slot : UInt16) :
    c.Decodes (if slot < 256 then [0xA9, slot.toUInt8] else 0xC4 :: 0xA9 :: Write.u16 slot)
      (.inr (.ret slot)) := by
  split
  next h => exact decodes_branch rfl ((c.byteSlot_consumes h).map _)
  next =>
    refine decodes_wide (.bind (c.u8_consumes _) ?_)
    exact (c.u16_consumes slot).map _

/-- The bytes of a table switch with the offsets of its targets. -/
def tableBytes (offset default : Nat) (low : Int32) (targets : List Nat) : Bytes :=
  0xAA :: (List.replicate (switchPadding offset) 0 ++ (farBytes offset default ++ (Write.i32 low ++
    (Write.i32 (Int32.ofInt (low.toInt + targets.length - 1)) ++
      targets.flatMap (farBytes offset)))))

theorem decodes_tableSwitch {default : Nat} {low : Int32} {targets : List Nat}
    (hbound : (Branch.tableSwitch default low targets).Bounded)
    (ht : ∀ t ∈ default :: targets, t < c.length) (hc : c.offset < c.length)
    (hn : c.length ≤ 65535) :
    c.Decodes (tableBytes c.offset default low targets)
      (.inr (.tableSwitch default low targets)) := by
  refine decodes_branch rfl ?_
  have hlow := low.le_toInt
  have hpos : 0 < targets.length := List.length_pos_iff.mpr hbound.1
  have hhigh : (Int32.ofInt (low.toInt + targets.length - 1)).toInt =
      low.toInt + targets.length - 1 := by
    rw [Int32.toInt_ofInt_of_le] <;> have := hbound.2 <;> omega
  have hpad := c.skip_consumes (List.replicate (switchPadding c.offset) 0)
  rw [List.length_replicate] at hpad
  have hd := ht default List.mem_cons_self
  refine .bind hpad (.bind (far_decodes hd hc hn)
    (.bind (c.i32_consumes low) (.bind (c.i32_consumes _) ?_)))
  rw [if_neg]
  · have hcount : ((Int32.ofInt (low.toInt + targets.length - 1)).toInt - low.toInt + 1).toNat =
        targets.length := by
      rw [hhigh]
      omega
    rw [hcount]
    refine .map (.times targets fun t h => ?_) _
    exact far_decodes (ht t (List.mem_cons_of_mem _ h)) hc hn
  · rw [Int32.lt_iff_toInt_lt, hhigh]
    omega

/-- The bytes of a look-up switch with the offsets of its targets. -/
def lookupBytes (offset default : Nat) (cases : List (Int32 × Nat)) : Bytes :=
  0xAB :: (List.replicate (switchPadding offset) 0 ++ (farBytes offset default ++
    (Write.i32 (Int32.ofNat cases.length) ++
      cases.flatMap fun e => Write.i32 e.1 ++ farBytes offset e.2)))

theorem decodes_lookupSwitch {default : Nat} {cases : List (Int32 × Nat)}
    (hd : default < c.length) (ht : ∀ e ∈ cases, e.2 < c.length) (hc : c.offset < c.length)
    (hn : c.length ≤ 65535) (hl : cases.length ≤ 65535) :
    c.Decodes (lookupBytes c.offset default cases) (.inr (.lookupSwitch default cases)) := by
  refine decodes_branch rfl ?_
  have hcount : (Int32.ofNat cases.length).toInt = cases.length := by
    rw [Int32.toInt_ofNat_of_lt (by omega)]
  have hpad := c.skip_consumes (List.replicate (switchPadding c.offset) 0)
  rw [List.length_replicate] at hpad
  refine .bind hpad (.bind (far_decodes hd hc hn) (.bind (c.i32_consumes _) ?_))
  rw [if_neg]
  · have hnat : (Int32.ofNat cases.length).toInt.toNat = cases.length := by
      rw [hcount]
      omega
    rw [hnat]
    refine .map (.times cases fun e h => ?_) _
    exact .bind (c.i32_consumes e.1) ((far_decodes (ht e h) hc hn).map _)
  · rw [Int32.lt_iff_toInt_lt, hcount]
    have h0 : (0 : Int32).toInt = 0 := rfl
    omega

theorem farBytes_length (offset target : Nat) : (farBytes offset target).length = 4 := rfl

theorem flatMap_length {α : Type} {f : α → Bytes} {n : Nat} (xs : List α)
    (h : ∀ a, (f a).length = n) : (xs.flatMap f).length = n * xs.length := by
  induction xs with
  | nil => rfl
  | cons a xs ih =>
    rw [List.flatMap_cons, List.length_append, ih, h, List.length_cons, Nat.mul_add, Nat.mul_one]
    omega

theorem encode_tableSwitch {default : Label} {low : Int32} {targets : List Label} {off : Label → Nat}
    (hd : place default = .ok (off default)) (hl : ∀ l ∈ targets, place l = .ok (off l)) :
    (Branch.tableSwitch default low targets).encode c.offset place =
      .ok (tableBytes c.offset (off default) low (targets.map off)) := by
  have hjumps : targets.mapM (Branch.farJump c.offset place) =
      .ok (targets.map fun l => farBytes c.offset (off l)) :=
    mapM_ok fun l h => farJump_ok (hl l h)
  simp only [Branch.encode, Branch.encodeWith, farJump_ok hd, hjumps, bind, Except.bind]
  refine congrArg Except.ok ?_
  rw [tableBytes, List.length_map, List.flatMap_map]
  simp [List.flatMap]

theorem encode_lookupSwitch {default : Label} {entries : List (Int32 × Label)} {off : Label → Nat}
    (hd : place default = .ok (off default)) (hl : ∀ e ∈ entries, place e.2 = .ok (off e.2)) :
    (Branch.lookupSwitch default entries).encode c.offset place =
      .ok (lookupBytes c.offset (off default) (entries.map fun e => (e.1, off e.2))) := by
  have hjumps : entries.mapM (fun e => do
        return Write.i32 e.1 ++ (← Branch.farJump c.offset place e.2)) =
      .ok (entries.map fun e => Write.i32 e.1 ++ farBytes c.offset (off e.2)) :=
    mapM_ok fun e h => by
      rw [farJump_ok (hl e h)]
      rfl
  simp only [bind, Except.bind] at hjumps
  simp only [Branch.encode, Branch.encodeWith, farJump_ok hd, hjumps, bind, Except.bind]
  refine congrArg Except.ok ?_
  rw [lookupBytes, List.length_map, List.flatMap_map]
  simp [List.flatMap]

theorem tableBytes_length (offset default : Nat) (low : Int32) (targets : List Nat) :
    (tableBytes offset default low targets).length =
      (Branch.tableSwitch default low targets).size offset := by
  have h4 (n : Int32) : (Write.i32 n).length = 4 := rfl
  simp only [tableBytes, List.length_cons, List.length_append, List.length_replicate, farBytes_length,
    flatMap_length _ (farBytes_length offset), Branch.size, h4]
  omega

theorem lookupBytes_length (offset default : Nat) (entries : List (Int32 × Nat)) :
    (lookupBytes offset default entries).length = (Branch.lookupSwitch default entries).size offset := by
  have h8 (e : Int32 × Nat) : (Write.i32 e.1 ++ farBytes offset e.2).length = 8 := rfl
  have h4 (n : Int32) : (Write.i32 n).length = 4 := rfl
  simp only [lookupBytes, List.length_cons, List.length_append, List.length_replicate, farBytes_length,
    flatMap_length _ h8, Branch.size, h4]
  omega

/-- A branch takes the bytes that are laid out for it, and is read back with offsets for labels. -/
theorem decodes_encode {b : Branch Label} {bs : Bytes} {off : Label → Nat}
    (hb : b.encode c.offset place = .ok bs)
    (hl : ∀ l ∈ b.targets, place l = .ok (off l) ∧ off l < c.length) (hbound : b.Bounded)
    (hfit : c.offset + b.size c.offset ≤ c.length) (hn : c.length ≤ 65535) :
    bs.length = b.size c.offset ∧ c.Decodes bs (.inr (b.map off)) := by
  have hc : c.offset < c.length := by
    have := b.size_pos c.offset
    omega
  cases b with
  | ifZero k l =>
    obtain ⟨hp, ht⟩ := hl l List.mem_cons_self
    cases k <;> exact decodes_near rfl rfl hb hp ht
  | ifInt k l =>
    obtain ⟨hp, ht⟩ := hl l List.mem_cons_self
    cases k <;> exact decodes_near rfl rfl hb hp ht
  | ifRef k l =>
    obtain ⟨hp, ht⟩ := hl l List.mem_cons_self
    cases k <;> exact decodes_near rfl rfl hb hp ht
  | ifNull k l =>
    obtain ⟨hp, ht⟩ := hl l List.mem_cons_self
    cases k <;> exact decodes_near rfl rfl hb hp ht
  | goto l | jsr l =>
    obtain ⟨hp, ht⟩ := hl l List.mem_cons_self
    exact decodes_near rfl rfl hb hp ht
  | gotoWide l | jsrWide l =>
    obtain ⟨hp, ht⟩ := hl l List.mem_cons_self
    exact decodes_far rfl rfl hb hp ht hc hn
  | ret slot =>
    cases Except.ok.inj hb
    refine ⟨?_, decodes_ret slot⟩
    simp only [Branch.size]
    split <;> rfl
  | tableSwitch default low targets =>
    simp only [Branch.targets, List.mem_cons, forall_eq_or_imp] at hl
    cases (encode_tableSwitch hl.1.1 fun l h => (hl.2 l h).1).symm.trans hb
    rw [tableBytes_length, Branch.map_tableSwitch]
    refine ⟨by simp [Branch.size], decodes_tableSwitch ⟨by simpa using hbound.1, by simpa using hbound.2⟩
      ?_ hc hn⟩
    simp only [List.mem_cons, forall_eq_or_imp, List.mem_map, forall_exists_index, and_imp,
      forall_apply_eq_imp_iff₂]
    exact ⟨hl.1.2, fun l h => (hl.2 l h).2⟩
  | lookupSwitch default entries =>
    simp only [Branch.targets, List.mem_cons, forall_eq_or_imp, List.mem_map, forall_exists_index,
      and_imp, forall_apply_eq_imp_iff₂] at hl
    cases (encode_lookupSwitch hl.1.1 fun e h => (hl.2 e h).1).symm.trans hb
    have hcount : entries.length ≤ 65535 := by
      simp only [Branch.size] at hfit
      omega
    rw [lookupBytes_length, Branch.map_lookupSwitch]
    refine ⟨by simp [Branch.size], decodes_lookupSwitch hl.1.2 ?_ hc hn (by simpa using hcount)⟩
    simp only [List.mem_map, forall_exists_index, and_imp, forall_apply_eq_imp_iff₂]
    exact fun e h => (hl.2 e h).2
  | leave k =>
    cases k with
    | none => cases Except.ok.inj hb; exact ⟨rfl, 0xB1, [], rfl, .pure _⟩
    | some k =>
      cases Except.ok.inj hb
      cases k <;> exact ⟨rfl, _, [], rfl, .pure _⟩
  | athrow => cases Except.ok.inj hb; exact ⟨rfl, 0xBF, [], rfl, .pure _⟩

end CodeSite

end ClassGraft
