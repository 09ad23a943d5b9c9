import ClassGraft.Proofs.CodeRoundTrip
import ClassGraft.Proofs.SiteDecoding

namespace ClassGraft

/-- What a reader gives has a property. -/
def Gives {α : Type} (P : α → Prop) (m : CodeReader α) : Prop := Meets (fun _ a _ => P a) (fun _ => True) m

namespace Gives

variable {α β : Type} {P : α → Prop} {Q : β → Prop} {m n : CodeReader α}

theorem pure {a : α} (h : P a) : Gives P (Pure.pure a) := Meets.pure fun _ => h

theorem fail (e : ClassError) : Gives P (CodeSite.fail e) := CodeSite.fail_meets trivial

theorem bind {m : CodeReader β} {f : β → CodeReader α} (hf : ∀ b, Gives P (f b)) : Gives P (m >>= f) :=
  Meets.bind (.any m) hf fun _ _ _ _ _ _ h => h

theorem map {m : CodeReader β} {f : β → α} (h : ∀ b, P (f b)) : Gives P (do return f (← m)) :=
  Meets.map (.any m) fun _ b _ _ => h b

theorem mapOf {m : CodeReader β} {f : β → α} (hm : Gives Q m) (h : ∀ b, Q b → P (f b)) :
    Gives P (do return f (← m)) :=
  Meets.map hm fun _ b _ => h b

theorem ite {p : Prop} [Decidable p] (hm : p → Gives P m) (hn : ¬p → Gives P n) :
    Gives P (if p then m else n) := Meets.ite hm hn

end Gives

theorem Reader.collect_length {σ ε α : Type} {item : StateT σ (Except ε) α} {n : Nat} {acc xs : List α}
    {s t : σ} (h : Reader.collect item n acc s = .ok (xs, t)) : xs.length = acc.length + n := by
  induction n generalizing acc s with
  | zero => cases h; exact List.length_reverse
  | succ n ih =>
    unfold Reader.collect at h
    split at h
    next => cases h
    next =>
      rw [ih h, List.length_cons]
      omega

theorem Reader.times_length {σ ε α : Type} {item : StateT σ (Except ε) α} {n : Nat} {xs : List α} {s t : σ}
    (h : Reader.times n item s = .ok (xs, t)) : xs.length = n := by
  rw [Reader.collect_length h, List.length_nil, Nat.zero_add]

theorem Gives.times {α : Type} (n : Nat) (m : CodeReader α) :
    Gives (fun xs => xs.length = n) (Reader.times n m) :=
  fun _ => ⟨fun _ _ h => Reader.times_length h, fun _ _ => trivial⟩

/-- The constant that an instruction loads, if it loads one from the pool. -/
def CodeItem.loaded? : CodeItem → Option Literal
  | .inl (.ldc l) => some l
  | _ => none

/-- The index of the constant that code loads first of all, if it does so. -/
def loadedIndex? : Bytes → Option PoolIndex
  | [] => none
  | op :: operands =>
    if op = 0x12 then ((Reader.u8 operands).toOption.map Prod.fst).map UInt8.toUInt16
    else if op = 0x13 ∨ op = 0x14 then (Reader.u16 operands).toOption.map Prod.fst
    else none

namespace CodeSite

variable (c : CodeSite) (op : UInt8)

/-- The opcodes up to those that load constants stand for instructions of one byte, but for two. -/
theorem ofOpcode?_table : ∀ n : Fin 256,
    (∀ i ∈ Instruction.ofOpcode? (.ofNat n), CodeItem.loaded? (.inl i) = none) ∧
      (UInt8.ofNat n ≤ 0x14 → UInt8.ofNat n ∉ [0x10, 0x11, 0x12, 0x13, 0x14] →
        Instruction.ofOpcode? (.ofNat n) ≠ none) := by
  decide +kernel

theorem ofOpcode?_loaded {i : Instruction} (h : Instruction.ofOpcode? op = some i) :
    CodeItem.loaded? (.inl i) = none := by
  have htable := (ofOpcode?_table ⟨op.toNat, op.toNat_lt⟩).1 i
  rw [UInt8.ofNat_toNat] at htable
  exact htable h

theorem ofOpcode?_low (hlow : op ≤ 0x14) (hop : op ∉ [0x10, 0x11, 0x12, 0x13, 0x14]) :
    Instruction.ofOpcode? op ≠ none := by
  have htable := (ofOpcode?_table ⟨op.toNat, op.toNat_lt⟩).2
  rw [UInt8.ofNat_toNat] at htable
  exact htable hlow hop

/-- No opcode but three stands for the load of a constant. -/
theorem instruction_loaded (hop : op ≠ 0x12 ∧ op ≠ 0x13 ∧ op ≠ 0x14)
    (hnone : Instruction.ofOpcode? op = none) :
    Gives (fun i => CodeItem.loaded? (.inl i) = none) (c.instruction op) := by
  unfold instruction
  refine .ite (fun _ => .map fun _ => rfl) fun h10 => .ite (fun _ => .map fun _ => rfl) fun h11 =>
    .ite (fun h => absurd h hop.1) fun _ => .ite (fun h => ?_) fun _ =>
    .ite (fun _ => .map fun _ => rfl) fun _ => .ite (fun _ => .map fun _ => rfl) fun _ =>
    .ite (fun _ => .bind fun _ => .map fun _ => rfl) fun _ =>
    .ite (fun _ => .bind fun _ => .map fun _ => rfl) fun _ =>
    .ite (fun _ => .bind fun _ => .bind fun _ => ?_) fun _ =>
    .ite (fun _ => .bind fun _ => .bind fun _ => .map fun _ => rfl) fun _ =>
    .ite (fun _ => .bind fun _ => .map fun _ => rfl) fun _ =>
    .ite (fun _ => .bind fun _ => ?_) fun _ =>
    .ite (fun _ => .map fun _ => rfl) fun _ => .ite (fun _ => .map fun _ => rfl) fun _ =>
    .ite (fun _ => .map fun _ => rfl) fun _ => .bind fun _ => .map fun _ => rfl
  · exact absurd hnone (ofOpcode?_low op h (by simp [h10, h11, hop]))
  · exact .ite (fun _ => .bind fun _ => .pure rfl) fun _ => .pure rfl
  · split
    next => exact .pure rfl
    next => exact .fail _

theorem wide_loaded : Gives (fun i => i.loaded? = none) c.wide :=
  .bind fun _ => .ite (fun _ => .map fun _ => rfl) fun _ => .ite (fun _ => .map fun _ => rfl) fun _ =>
    .ite (fun _ => .bind fun _ => .map fun _ => rfl) fun _ =>
    .ite (fun _ => .map fun _ => rfl) fun _ => .fail _

/-- Instructions with other opcodes load nothing. -/
theorem item_loaded (hop : op ≠ 0x12 ∧ op ≠ 0x13 ∧ op ≠ 0x14) :
    Gives (fun i => i.loaded? = none) (c.item op) := by
  unfold item
  split
  next i _ hi => exact .pure (ofOpcode?_loaded op hi)
  next => exact .pure rfl
  next hnone _ =>
    exact .ite (fun _ => .map fun _ => rfl) fun _ => .ite (fun _ => c.wide_loaded) fun _ =>
      .ite (fun _ => .fail _) fun _ => (c.instruction_loaded op hop hnone).mapOf fun _ hi => hi

theorem load_reads {r : CodeReader PoolIndex} {s t : Cursor} {i : CodeItem}
    (h : (do return .inl (← (do return .ldc (← look (c.pool.literal (← r))) : CodeReader Instruction)) :
      CodeReader CodeItem) s = .ok (i, t)) :
    ∃ j u l, r s = .ok (j, u) ∧ c.pool.literal j = .ok l ∧ i = .inl (.ldc l) := by
  obtain ⟨⟨a, u⟩, ha, h⟩ := except_bind_ok.mp h
  cases h
  obtain ⟨⟨j, u'⟩, hj, ha⟩ := except_bind_ok.mp ha
  obtain ⟨⟨l, v⟩, hl, ha⟩ := except_bind_ok.mp ha
  cases ha
  refine ⟨j, u', l, hj, ?_, rfl⟩
  obtain ⟨l', hl', hl⟩ := except_map_ok hl
  cases hl
  exact hl'

theorem fetch_ok {α : Type} {n : Nat} {r : Reader α} {o : Nat} {s : Bytes} {a : α} {u : Cursor}
    (h : c.fetch n r ⟨o, s⟩ = .ok (a, u)) : (r s).toOption.map Prod.fst = some a := by
  unfold fetch at h
  split at h
  next b rest hr =>
    cases h
    rw [hr]
    rfl
  next => cases h

/-- An instruction loads the constant that its bytes name, and no other instruction names one. -/
theorem item_loads {op : UInt8} {o : Nat} {operands : Bytes} {i : CodeItem} {t : Cursor}
    (h : c.item op ⟨o, operands⟩ = .ok (i, t)) :
    Option.Rel (fun j l => c.pool.literal j = .ok l) (loadedIndex? (op :: operands)) i.loaded? := by
  by_cases hop : op ≠ 0x12 ∧ op ≠ 0x13 ∧ op ≠ 0x14
  · obtain ⟨h2, h3, h4⟩ := hop
    have hnone : loadedIndex? (op :: operands) = none := by
      simp only [loadedIndex?, h2, h3, h4, or_self, if_false]
    have hi : i.loaded? = none := (c.item_loaded op ⟨h2, h3, h4⟩).result h
    rw [hnone, hi]
    exact .none
  · have hcases : op = 0x12 ∨ op = 0x13 ∨ op = 0x14 := by tauto
    rcases hcases with rfl | rfl | rfl
    · obtain ⟨j, u, l, hj, hl, rfl⟩ := c.load_reads (r := c.byteSlot) h
      obtain ⟨⟨b, u'⟩, hb, hj⟩ := except_bind_ok.mp hj
      cases hj
      rw [loadedIndex?, if_pos rfl, c.fetch_ok hb]
      exact .some hl
    all_goals
      obtain ⟨j, u, l, hj, hl, rfl⟩ := c.load_reads (r := c.u16) h
      rw [loadedIndex?, if_neg (by decide), if_pos (by decide), c.fetch_ok hj]
      exact .some hl

/-- A table switch has a case, and its cases have keys. -/
theorem tableSwitch_bounded : Gives Branch.Bounded c.tableSwitch := by
  refine .bind fun _ => .bind fun default => .bind fun low => .bind fun high => ?_
  refine .ite (fun _ => .fail _) fun hle => .mapOf (.times _ c.far) fun targets hlength => ?_
  have hbounds : low.toInt ≤ high.toInt := Int32.le_iff_toInt_le.mp (Int32.not_lt.mp hle)
  have hmax := high.toInt_lt
  refine ⟨fun hnil => ?_, ?_⟩
  · rw [hnil, List.length_nil] at hlength
    omega
  · omega

theorem branch_bounded : Gives Branch.Bounded (c.branch op) :=
  .ite (fun _ => .map fun _ => trivial) fun _ => .ite (fun _ => .map fun _ => trivial) fun _ =>
    .ite (fun _ => .map fun _ => trivial) fun _ => .ite (fun _ => .map fun _ => trivial) fun _ =>
    .ite (fun _ => .map fun _ => trivial) fun _ => .ite (fun _ => .map fun _ => trivial) fun _ =>
    .ite (fun _ => c.tableSwitch_bounded) fun _ =>
    .ite (fun _ => .bind fun _ => .bind fun _ => .bind fun _ =>
      .ite (fun _ => .fail _) fun _ => .map fun _ => trivial) fun _ =>
    .ite (fun _ => .map fun _ => trivial) fun _ => .ite (fun _ => .map fun _ => trivial) fun _ =>
    .ite (fun _ => .map fun _ => trivial) fun _ => .ite (fun _ => .map fun _ => trivial) fun _ => .fail _

theorem item_bounded : Gives (fun i => ∀ br, i = .inr br → br.Bounded) (c.item op) := by
  have hwide : Gives (fun i : CodeItem => ∀ br, i = .inr br → br.Bounded) c.wide :=
    .bind fun _ => .ite (fun _ => .map fun _ br h => nomatch h) fun _ =>
      .ite (fun _ => .map fun _ br h => nomatch h) fun _ =>
      .ite (fun _ => .bind fun _ => .map fun _ br h => nomatch h) fun _ =>
      .ite (fun _ => .map fun _ br h => by cases h; trivial) fun _ => .fail _
  unfold item
  split
  next => exact .pure fun br h => nomatch h
  next b _ hb =>
    refine .pure fun br h => ?_
    cases h
    unfold Branch.ofOpcode? at hb
    split_ifs at hb <;> cases hb <;> trivial
  next =>
    refine .ite (fun _ => (c.branch_bounded op).mapOf fun b hb br h => ?_) fun _ =>
      .ite (fun _ => hwide) fun _ => .ite (fun _ => .fail _) fun _ => .map fun _ br h => nomatch h
    cases h
    exact hb

end CodeSite

namespace Listing

variable {p : Pool} {code : Bytes} {l : Listing}

/-- The indices of the constants that the instructions of some code load, in order. -/
def loads (l : Listing) (code : Bytes) : List PoolIndex :=
  l.items.filterMap fun e => loadedIndex? (code.drop e.1)

/-- Each instruction is the one that is read at its offset. -/
theorem listCode_each {length : Nat} {s : Cursor} {seen os : List (Nat × CodeItem)}
    (h : listCode p length s seen = .ok os) (hs : code.drop s.offset = s.rest) :
    ∃ ts, os = seen.reverse ++ ts ∧ ∀ e ∈ ts, ∃ op operands t, code.drop e.1 = op :: operands ∧
      (CodeSite.mk p length e.1).item op ⟨e.1 + 1, operands⟩ = .ok (e.2, t) := by
  fun_induction listCode p length s seen with
  | case1 s seen hrest =>
    cases h
    exact ⟨[], (List.append_nil _).symm, fun e he => absurd he List.not_mem_nil⟩
  | case2 => cases h
  | case3 s seen op rest hrest item t hitem _ ih =>
    obtain ⟨hsuffix, htrack⟩ := CodeSite.item_follows _ hitem
    rw [hrest] at hs
    have hlength : code.length = s.offset + (rest.length + 1) := by
      have := congrArg List.length hs
      rw [List.length_drop, List.length_cons] at this
      omega
    have hrests : code.drop t.offset = t.rest := by
      have hsub : t.rest <:+ code := by
        have hcode : rest <:+ code := by
          have hcons : op :: rest <:+ code := hs ▸ List.drop_suffix _ _
          exact (List.suffix_cons _ _).trans hcons
        exact hsuffix.trans hcode
      have hoffset : t.offset = code.length - t.rest.length := by
        dsimp only at htrack
        omega
      rw [hoffset]
      exact (List.suffix_iff_eq_drop.mp hsub).symm
    obtain ⟨ts, rfl, hts⟩ := ih h hrests
    refine ⟨(s.offset, item) :: ts, by simp, fun e he => ?_⟩
    rcases List.mem_cons.mp he with rfl | he
    · exact ⟨op, rest, t, hs, hitem⟩
    · exact hts e he

theorem ofCode_each (h : Listing.ofCode p code = .ok l) : ∀ e ∈ l.items, ∃ op operands t,
    code.drop e.1 = op :: operands ∧
      (CodeSite.mk p code.length e.1).item op ⟨e.1 + 1, operands⟩ = .ok (e.2, t) := by
  obtain ⟨items, hitems, h⟩ := except_bind_ok.mp h
  cases h
  obtain ⟨ts, rfl, hts⟩ := listCode_each hitems (show code.drop 0 = code from rfl)
  exact hts

/-- What instructions load is what their bytes name. -/
theorem ofCode_loads (h : Listing.ofCode p code = .ok l) : ∀ e ∈ l.items,
    Option.Rel (fun j lit => p.literal j = .ok lit) (loadedIndex? (code.drop e.1)) e.2.loaded? := by
  intro e he
  obtain ⟨op, operands, t, hdrop, hitem⟩ := ofCode_each h e he
  rw [hdrop]
  exact CodeSite.item_loads _ hitem

theorem ofCode_bounded (h : Listing.ofCode p code = .ok l) {o : Nat} {br : Branch Nat}
    (hbr : (o, Sum.inr br) ∈ l.items) : br.Bounded := by
  obtain ⟨op, operands, t, -, hitem⟩ := ofCode_each h _ hbr
  exact (CodeSite.item_bounded _ op).result hitem br rfl

end Listing

theorem forall₂_filterMap {α β γ : Type} {R : β → γ → Prop} {f : α → Option β} {g : α → Option γ}
    {xs : List α} (h : ∀ x ∈ xs, Option.Rel R (f x) (g x)) :
    List.Forall₂ R (xs.filterMap f) (xs.filterMap g) := by
  induction xs with
  | nil => exact .nil
  | cons x xs ih =>
    have ih' := ih fun y hy => h y (List.mem_cons_of_mem _ hy)
    have hx := h x List.mem_cons_self
    rw [List.filterMap_cons, List.filterMap_cons]
    generalize f x = b, g x = c at hx
    cases hx with
    | none => exact ih'
    | some hr => exact .cons hr ih'

/-- The constant that a node loads, if it loads one from the pool. -/
def Node.loaded? : Node → Option Literal
  | .insn (.ldc l) => some l
  | _ => none

def Body.literals (b : Body) : List Literal := b.nodes.filterMap Node.loaded?

theorem Branch.Bounded.map {L M : Type} {br : Branch L} (h : br.Bounded) (f : L → M) :
    (br.map f).Bounded := by
  cases br with
  | tableSwitch default low targets =>
    rw [Branch.map_tableSwitch]
    obtain ⟨hne, hkeys⟩ := h
    refine ⟨fun hnil => hne (List.map_eq_nil_iff.mp hnil), ?_⟩
    rwa [List.length_map]
  | lookupSwitch default cases =>
    rw [Branch.map_lookupSwitch]
    trivial
  | _ => trivial

namespace Body

variable {b : Body} {pool : Pool} {entry : Option Frame} {c : CodeAttribute} {l : Listing}
  {d : DebugTables} {fs : List (Nat × Frame)}

namespace ReadFrom

/-- A body loads what the instructions that it was read from load. -/
theorem literals (h : b.ReadFrom pool entry c l d fs) :
    b.literals = l.items.filterMap fun e => e.2.loaded? := by
  have hheads (o : Nat) : (heads (LabelPlan.make l c.exceptions d) d.lines fs o).filterMap Node.loaded? =
      [] := by
    refine List.filterMap_eq_nil_iff.mpr fun n hn => ?_
    have hpseudo := heads_isPseudo n hn
    cases n <;> first | rfl | cases hpseudo
  have hitem (i : CodeItem) : (i.toNode (LabelPlan.make l c.exceptions d)).loaded? = i.loaded? := by
    rcases i with i | br
    · cases i <;> rfl
    · rfl
  have hlast : (if (LabelPlan.make l c.exceptions d).contains l.length then
      [Node.label ((LabelPlan.make l c.exceptions d).label l.length)] else []).filterMap Node.loaded? =
        [] := by
    split <;> rfl
  have hnodes (o : Nat) (i : CodeItem) :
      (nodesAt (LabelPlan.make l c.exceptions d) d.lines fs o i).filterMap Node.loaded? =
        i.loaded?.toList := by
    rw [nodesAt_eq, List.filterMap_append, hheads, List.nil_append, List.filterMap_cons, hitem]
    cases i.loaded? <;> rfl
  rw [Body.literals, ← h.nodes, readNodes_nodes, List.filterMap_append, hlast, List.append_nil,
    List.filterMap_flatMap]
  simp only [hnodes]
  exact (List.filterMap_eq_flatMap_toList _ _).symm

/-- Every instruction of a body comes from one that was listed. -/
theorem instruction_mem (h : b.ReadFrom pool entry c l d fs) {n : Node} (hn : n ∈ b.nodes)
    (hreal : n.isPseudo = false) :
    ∃ e ∈ l.items, n = e.2.toNode (LabelPlan.make l c.exceptions d) := by
  rw [← h.nodes, readNodes_nodes] at hn
  rcases List.mem_append.mp hn with hn | hn
  · obtain ⟨e, he, hn⟩ := List.mem_flatMap.mp hn
    rw [nodesAt_eq] at hn
    rcases List.mem_append.mp hn with hn | hn
    · have hpseudo := heads_isPseudo n hn
      rw [hreal] at hpseudo
      cases hpseudo
    · exact ⟨e, he, List.mem_singleton.mp hn⟩
  · split at hn
    · rw [List.mem_singleton.mp hn] at hreal
      cases hreal
    · cases hn

/-- Its jumps lead to instructions. -/
theorem jumps (h : b.ReadFrom pool entry c l d fs) : ∀ br, Node.branch br ∈ b.nodes → br.Bounded ∧
      ∀ m ∈ br.targets, ∃ r, b.labelTarget m = .ok (some r) := by
  intro br hbr
  obtain ⟨⟨o, i⟩, hi, hnode⟩ := h.instruction_mem hbr rfl
  rcases i with i | source
  · cases hnode
  · cases hnode
    refine ⟨(Listing.ofCode_bounded h.listing hi).map _, fun m hm => ?_⟩
    rw [Branch.targets_map] at hm
    obtain ⟨t, ht, rfl⟩ := List.mem_map.mp hm
    have hstart := (Listing.isStart_iff h.listed.found t).mp (Listing.checkTargets_starts h.targets hi t ht)
    obtain ⟨⟨_, i⟩, hitem, rfl⟩ := List.mem_map.mp hstart
    obtain ⟨r, hr, -⟩ := h.target hitem (LabelPlan.wanted_target c.exceptions d hi _ ht)
    exact ⟨r, hr⟩

end ReadFrom

end Body

end ClassGraft
