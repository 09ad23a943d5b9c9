import ClassGraft.Proofs.LoadDecoding
import ClassGraft.Proofs.PlacedBodies

namespace ClassGraft

/-- The greatest number of bytes that an instruction is written in. -/
def Instruction.room : Instruction → Nat
  | .load _ slot | .store _ slot => if slot < 4 then 1 else 4
  | .increment _ _ => 6
  | .invoke _ _ | .invokeDynamic _ => 5
  | .newMultiArray _ _ => 4
  | .sipush _ | .ldc _ | .field _ _ | .new _ | .newRefArray _ | .checkCast _ | .instanceOf _ => 3
  | .bipush _ | .newArray _ => 2
  | _ => 1

/-- A switch has the most padding at the start. -/
def CodeItem.room : CodeItem → Nat
  | .inl i => i.room
  | .inr b => b.size 0

def Node.room : Node → Nat
  | .insn i => i.room
  | .branch b => b.size 0
  | _ => 0

def Body.room (b : Body) : Nat := (b.nodes.map Node.room).sum

theorem switchPadding_le (offset : Nat) : switchPadding offset ≤ 3 := by
  unfold switchPadding
  omega

theorem Branch.size_le {L : Type} (b : Branch L) (offset : Nat) : b.size offset ≤ b.size 0 := by
  have hpad := switchPadding_le offset
  have hfirst : switchPadding 0 = 3 := rfl
  cases b with
  | tableSwitch | lookupSwitch =>
    simp only [Branch.size]
    omega
  | _ => exact Nat.le_refl _

theorem slotForm_length (short normal : UInt8) (slot : UInt16) :
    (slotForm short normal slot).length ≤ if slot < 4 then 1 else 4 := by
  unfold slotForm
  split_ifs <;> simp [Write.u16]

theorem ldcForm_length (width : Nat) (index : PoolIndex) : (ldcForm width index).length ≤ 3 := by
  unfold ldcForm
  split_ifs <;> simp [Write.u16]

theorem incrementForm_length (slot : UInt16) (amount : Int16) :
    (incrementForm slot amount).length ≤ 6 := by
  unfold incrementForm
  split_ifs <;> simp [Write.u16, Write.i16]

theorem Instruction.encode_length {i : Instruction} {p q : Pool} {bs : Bytes}
    (h : i.encode p = (.ok bs, q)) : bs.length ≤ i.room := by
  cases i with
  | bipush n | sipush n => cases h; exact Nat.le_refl _
  | load k slot | store k slot => cases h; exact slotForm_length ..
  | increment slot amount => cases h; exact incrementForm_length ..
  | newArray t => cases h; exact Nat.le_refl _
  | ldc l =>
    obtain ⟨index, _, -, h⟩ := Pool.run_bind_ok.mp h
    cases h
    exact ldcForm_length ..
  | field | new | newRefArray | checkCast | instanceOf | newMultiArray | invokeDynamic =>
    obtain ⟨index, _, -, h⟩ := Pool.run_bind_ok.mp h
    cases h
    exact Nat.le_refl _
  | invoke k m =>
    obtain ⟨index, _, -, h⟩ := Pool.run_bind_ok.mp h
    cases h
    unfold room
    split <;> simp [Write.u16]
  | _ => cases h; simp [room, Instruction.opcode?]

/-- For every two bytes of room that a value takes, a reader takes one byte at least. -/
def Covers {α : Type} (room : α → Nat) (m : CodeReader α) : Prop :=
  Meets (fun s a t => 2 * s.offset + room a ≤ 2 * t.offset) (fun _ => True) m

namespace Covers

variable {α β : Type} {room : α → Nat} {m n : CodeReader α}

theorem pure {a : α} (h : room a = 0) : Covers room (Pure.pure a) :=
  Meets.pure fun _ => by rw [h]; exact Nat.le_refl _

theorem fail (e : ClassError) : Covers room (CodeSite.fail e) := CodeSite.fail_meets trivial

theorem look (x : Except ClassError α) : Covers (fun _ => 0) (CodeSite.look x) :=
  CodeSite.look_meets (fun _ _ => trivial) fun _ _ _ => Nat.le_refl _

theorem fetch (c : CodeSite) (n : Nat) (r : Reader α) : Covers (fun _ => 2 * n) (c.fetch n r) :=
  c.fetch_meets (fun _ => trivial) fun _ _ _ _ => by dsimp only; omega

theorem bind {paid : Nat} {m : CodeReader β} {f : β → CodeReader α} (hm : Covers (fun _ => paid) m)
    (hf : ∀ b, Covers (fun a => room a - paid) (f b)) : Covers room (m >>= f) :=
  Meets.bind hm hf fun s b t a u hfirst hthen => by dsimp only at hfirst hthen; omega

theorem map {paid : β → Nat} {m : CodeReader β} {f : β → α} (hm : Covers paid m)
    (h : ∀ b, room (f b) ≤ paid b) : Covers room (do return f (← m)) :=
  Meets.map hm fun _ b _ => Nat.le_trans (Nat.add_le_add_left (h b) _)

theorem ite {p : Prop} [Decidable p] (hm : Covers room m) (hn : Covers room n) :
    Covers room (if p then m else n) := Meets.ite (fun _ => hm) fun _ => hn

theorem times {paid : Nat} {item : CodeReader α} (hi : Covers (fun _ => paid) item) (n : Nat) :
    Covers (fun xs => paid * xs.length) (Reader.times n item) := by
  refine Meets.collect (Q := fun acc s xs t => 2 * s.offset + paid * (xs.length - acc.length) ≤ 2 * t.offset)
    hi (fun acc s => ?_) (fun acc s a t xs u hfirst hrest => ?_) n []
  · rw [List.length_reverse, Nat.sub_self]
    exact Nat.le_refl _
  · dsimp only at hfirst
    rw [List.length_cons] at hrest
    have hstep : paid * (xs.length - acc.length) ≤ paid * (xs.length - (acc.length + 1)) + paid := by
      rw [← Nat.mul_succ]
      exact Nat.mul_le_mul_left paid (by omega)
    omega

end Covers

namespace CodeSite

variable (c : CodeSite) (op : UInt8)

theorem byteSlot_covers : Covers (fun _ => 2) c.byteSlot := .map (.fetch c 1 _) fun _ => Nat.le_refl _

theorem near_covers : Covers (fun _ => 4) c.near := .bind (.fetch c 2 _) fun _ => .look _

theorem far_covers : Covers (fun _ => 8) c.far := .bind (.fetch c 4 _) fun _ => .look _

theorem classAt_covers : Covers (fun _ => 4) c.classAt := .bind (.fetch c 2 _) fun _ => .look _

theorem lookupCase_covers : Covers (fun _ => 16) c.lookupCase :=
  .bind (.fetch c 4 _) fun _ => .map c.far_covers fun _ => Nat.le_refl _

theorem tableSwitch_covers : Covers (fun b => b.size 0 - 2) c.tableSwitch := by
  refine .bind (.fetch c _ _) fun _ => .bind c.far_covers fun _ => .bind (.fetch c 4 _) fun _ =>
    .bind (.fetch c 4 _) fun _ => .ite (.fail _) (.map (.times c.far_covers _) fun ts => ?_)
  simp only [Branch.size, show switchPadding 0 = 3 from rfl]
  omega

theorem lookupSwitch_covers : Covers (fun b => b.size 0 - 2) c.lookupSwitch := by
  refine .bind (.fetch c _ _) fun _ => .bind c.far_covers fun _ => .bind (.fetch c 4 _) fun _ =>
    .ite (.fail _) (.map (.times c.lookupCase_covers _) fun cs => ?_)
  simp only [Branch.size, show switchPadding 0 = 3 from rfl]
  omega

theorem ret_size (slot : UInt16) : (Branch.ret slot : Branch Nat).size 0 - 2 ≤ 2 := by
  simp only [Branch.size]
  split <;> decide

theorem branch_covers : Covers (fun b => b.size 0 - 2) (c.branch op) := by
  have near {make : Nat → Branch Nat} (h : ∀ t, (make t).size 0 = 3) :
      Covers (fun b => b.size 0 - 2) (do return make (← c.near)) :=
    .map c.near_covers fun t => by rw [h t]; decide
  have far {make : Nat → Branch Nat} (h : ∀ t, (make t).size 0 = 5) :
      Covers (fun b => b.size 0 - 2) (do return make (← c.far)) :=
    .map c.far_covers fun t => by rw [h t]; decide
  exact .ite (near fun _ => rfl) <| .ite (near fun _ => rfl) <| .ite (near fun _ => rfl) <|
    .ite (near fun _ => rfl) <| .ite (near fun _ => rfl) <|
    .ite (.map c.byteSlot_covers fun slot => ret_size slot) <| .ite c.tableSwitch_covers <|
    .ite c.lookupSwitch_covers <| .ite (near fun _ => rfl) <| .ite (near fun _ => rfl) <|
    .ite (far fun _ => rfl) <| .ite (far fun _ => rfl) (.fail _)

theorem slot_room (slot : UInt16) : (if slot < 4 then 1 else 4) - 2 ≤ 2 := by
  split <;> decide

theorem wide_covers : Covers (fun i => i.room - 2) c.wide := by
  refine .bind (.fetch c 1 _) fun _ => .ite (.map (.fetch c 2 _) fun slot => ?_) <|
    .ite (.map (.fetch c 2 _) fun slot => ?_) <|
    .ite (.bind (.fetch c 2 _) fun _ => .map (.fetch c 2 _) fun _ => Nat.zero_le _) <|
    .ite (.map (.fetch c 2 _) fun slot => ?_) (.fail _)
  · have := slot_room slot
    simp only [CodeItem.room, Instruction.room]
    omega
  · have := slot_room slot
    simp only [CodeItem.room, Instruction.room]
    omega
  · have := ret_size slot
    simp only [CodeItem.room]
    omega

theorem newArray_covers : Covers (fun i => i.room - 2) c.newArray := .bind (.fetch c 1 _) fun _ => by
  split
  · exact .pure rfl
  · exact .fail _

theorem invoke_covers (k : InvokeKind) : Covers (fun i => i.room - 2) (c.invoke k) :=
  .bind (.fetch c 2 _) fun _ => .bind (.look _) fun _ =>
    .ite (.bind (.fetch c 2 _) fun _ => .pure rfl) (.pure rfl)

theorem instruction_covers : Covers (fun i => i.room - 2) (c.instruction op) :=
  .ite (.map (.fetch c 1 _) fun _ => Nat.zero_le _) <|
    .ite (.map (.fetch c 2 _) fun _ => Nat.succ_le_succ (Nat.zero_le _)) <|
    .ite (.bind c.byteSlot_covers fun _ => .map (.look _) fun _ => Nat.le_refl _) <|
    .ite (.bind (.fetch c 2 _) fun _ => .map (.look _) fun _ => Nat.le_refl _) <|
    .ite (.map c.byteSlot_covers fun slot => slot_room slot) <|
    .ite (.map c.byteSlot_covers fun slot => slot_room slot) <|
    .ite (.bind c.byteSlot_covers fun _ => .map (.fetch c 1 _) fun _ => Nat.le_refl _) <|
    .ite (.bind (.fetch c 2 _) fun _ => .map (.look _) fun _ => Nat.le_refl _) <|
    .ite (c.invoke_covers _) <|
    .ite (.bind (.fetch c 2 _) fun _ => .bind (.look _) fun _ => .map (.fetch c 2 _) fun _ =>
      Nat.zero_le _) <|
    .ite (.bind (.fetch c 2 _) fun _ => .map (.look _) fun _ => Nat.le_refl _) <|
    .ite c.newArray_covers <| .ite (.map c.classAt_covers fun _ => Nat.succ_le_succ (Nat.zero_le _)) <|
    .ite (.map c.classAt_covers fun _ => Nat.succ_le_succ (Nat.zero_le _)) <|
    .ite (.map c.classAt_covers fun _ => Nat.succ_le_succ (Nat.zero_le _)) <|
    .bind c.classAt_covers fun _ => .map (.fetch c 1 _) fun _ => Nat.zero_le _

theorem ofOpcode?_rooms : ∀ n : Fin 256, ∀ i ∈ Instruction.ofOpcode? (.ofNat n), i.room ≤ 2 := by
  decide +kernel

theorem item_covers : Covers (fun i => i.room - 2) (c.item op) := by
  unfold item
  split
  next i hi =>
    have hroom := ofOpcode?_rooms ⟨op.toNat, op.toNat_lt⟩ i
    rw [UInt8.ofNat_toNat] at hroom
    exact .pure (Nat.sub_eq_zero_of_le (hroom hi))
  next b _ hb =>
    refine .pure ?_
    unfold Branch.ofOpcode? at hb
    split_ifs at hb <;> cases hb <;> rfl
  next =>
    exact .ite (.map (c.branch_covers op) fun _ => Nat.le_refl _) <| .ite c.wide_covers <|
      .ite (.fail _) (.map (c.instruction_covers op) fun _ => Nat.le_refl _)

end CodeSite

theorem Tiled.room_le {pool : Pool} {length o : Nat} {code : Bytes} {os : List (Nat × CodeItem)}
    (h : Tiled pool length o code os) : (os.map fun e => e.2.room).sum ≤ 2 * code.length := by
  induction h with
  | done => exact Nat.zero_le _
  | next hitem _ ih =>
    have hroom := (CodeSite.item_covers _ _).result hitem
    simp only [List.map_cons, List.sum_cons, List.length_cons, List.length_append]
    dsimp only at hroom
    omega

theorem Node.room_pseudo {ns : List Node} (h : ∀ n ∈ ns, n.isPseudo = true) :
    (ns.map Node.room).sum = 0 := by
  refine List.sum_eq_zero fun k hk => ?_
  obtain ⟨n, hn, rfl⟩ := List.mem_map.mp hk
  have hpseudo := h n hn
  cases n <;> first | rfl | cases hpseudo

theorem CodeItem.toNode_room (plan : LabelPlan) (i : CodeItem) : (i.toNode plan).room = i.room := by
  rcases i with i | b
  · rfl
  · exact b.size_map plan.label 0

theorem Body.ReadFrom.room_le {b : Body} {pool : Pool} {entry : Option Frame} {c : CodeAttribute}
    {l : Listing} {d : DebugTables} {fs : List (Nat × Frame)} (h : b.ReadFrom pool entry c l d fs) :
    b.room ≤ 2 * c.code.length := by
  have hitem (o : Nat) (i : CodeItem) :
      ((nodesAt (LabelPlan.make l c.exceptions d) d.lines fs o i).map Node.room).sum = i.room := by
    rw [nodesAt_eq, List.map_append, List.sum_append, Node.room_pseudo heads_isPseudo, List.map_singleton,
      List.sum_singleton, Nat.zero_add, CodeItem.toNode_room]
  have hlast : ((if (LabelPlan.make l c.exceptions d).contains l.length then
      [Node.label ((LabelPlan.make l c.exceptions d).label l.length)] else []).map Node.room).sum = 0 := by
    split <;> rfl
  have hitems (os : List (Nat × CodeItem)) : ((os.flatMap fun e =>
      nodesAt (LabelPlan.make l c.exceptions d) d.lines fs e.1 e.2).map Node.room).sum =
        (os.map fun e => e.2.room).sum := by
    induction os with
    | nil => rfl
    | cons e os ih =>
      rw [List.flatMap_cons, List.map_append, List.sum_append, hitem, ih, List.map_cons, List.sum_cons]
  rw [Body.room, ← h.nodes, readNodes_nodes, List.map_append, List.sum_append, hlast, hitems]
  exact (Listing.ofCode_tiled h.listing).2.room_le

end ClassGraft
