import ClassGraft.Proofs.ReloadedConstants

namespace ClassGraft

open Layout

/-- The piece of a load names an entry for its literal. -/
def Enters (q : Pool) (n : Node) (pc : Piece) : Prop :=
  ∀ l, n.loaded? = some l → ∃ j, pc = .bytes (ldcForm l.width j) ∧ l.Entered q j

theorem Node.loaded?_some {n : Node} {l : Literal} : n.loaded? = some l ↔ n = .insn (.ldc l) := by
  constructor
  · intro h
    rcases n with i | br | m | k | f
    · cases i <;> cases h
      rfl
    all_goals cases h
  · rintro rfl
    rfl

theorem Piece.ofNode_enters {n : Node} {pc : Piece} {p q : Pool} (hp : p.Reached)
    (h : Piece.ofNode n p = (.ok pc, q)) : Enters q n pc := by
  intro l hl
  rw [Node.loaded?_some] at hl
  subst hl
  obtain ⟨bs, r, hbs, h⟩ := Pool.run_bind_ok.mp h
  cases h
  obtain ⟨j, r', hj, hbs⟩ := Pool.run_bind_ok.mp hbs
  cases hbs
  exact ⟨j, rfl, Literal.intern_entered hp hj⟩

theorem pieces_enter {ns : List Node} {pieces : List Piece} {p q : Pool} (hp : p.Reached)
    (h : ns.mapM Piece.ofNode p = (.ok pieces, q)) : List.Forall₂ (Enters q) ns pieces := by
  refine (Pool.Interns.mapM_runs Piece.ofNode_interns h).imp ?_
  rintro n pc ⟨r, r', hpc, hl, hl'⟩ l hload
  have hr : r.Reached := hl.reached hp
  obtain ⟨j, hform, hj⟩ := Piece.ofNode_enters hr hpc l hload
  exact ⟨j, hform, hj.leads (((Piece.ofNode_interns n).run hpc).reached hr) hl'⟩

theorem loadedIndex?_ldcForm (width : Nat) (j : PoolIndex) (rest : Bytes) :
    loadedIndex? (ldcForm width j ++ rest) = some j := by
  have hwide : ((Reader.u16 (Write.u16 j ++ rest)).toOption.map Prod.fst) = some j := by
    rw [Reader.Reads.u16 j rest]
    rfl
  unfold ldcForm
  split
  next => exact hwide
  next =>
    split
    next hsmall => exact congrArg some (UInt16.toUInt8_toUInt16 hsmall)
    next => exact hwide

/-- The bytes of an instruction that loads nothing name no constant. -/
theorem CodeSite.Decodes.loads_none {c : CodeSite} {bs : Bytes} {i : CodeItem} (h : c.Decodes bs i)
    (hi : i.loaded? = none) (rest : Bytes) : loadedIndex? (bs ++ rest) = none := by
  obtain ⟨op, tail, rfl, hitem⟩ := h
  have hrel := c.item_loads (hitem 0 rest)
  rw [hi] at hrel
  rw [List.cons_append]
  generalize loadedIndex? (op :: (tail ++ rest)) = found at hrel
  cases hrel
  rfl

section Laid

variable {q : Pool} {place : Label → Except ClassError Nat} {off : Label → Nat} {stop o : Nat}

/-- The bytes of a node name what it loads. -/
theorem emitted_loads {n : Node} {pc : Piece} {bs : Bytes} (hn : Holds q n pc) (he : Enters q n pc)
    (hb : emit place (o, pc) = .ok bs) (hj : JumpsFit place off stop [n])
    (hr : o + pc.size o ≤ stop) (hl : stop ≤ 65535) (rest : Bytes) :
    bs.length = pc.size o ∧ Option.Rel (Literal.Entered q) n.loaded?
      ((n.item? off).bind fun _ => loadedIndex? (bs ++ rest)) := by
  cases hn with
  | @insn i bs' hd =>
    cases Except.ok.inj hb
    refine ⟨rfl, ?_⟩
    show Option.Rel _ _ (loadedIndex? (bs ++ rest))
    cases hload : (Node.insn i).loaded? with
    | some l =>
      obtain ⟨j, hform, hj⟩ := he l hload
      cases hform
      rw [loadedIndex?_ldcForm]
      exact .some hj
    | none =>
      have hi : CodeItem.loaded? (.inl i) = none := by
        cases i with
        | ldc l => cases hload
        | _ => rfl
      rw [(hd stop o).loads_none hi rest]
      exact .none
  | branch br =>
    obtain ⟨hbound, ht⟩ := hj br List.mem_cons_self
    obtain ⟨hsize, hd⟩ := CodeSite.decodes_encode (c := ⟨q, stop, o⟩) hb ht hbound hr hl
    refine ⟨hsize, ?_⟩
    show Option.Rel _ none (loadedIndex? (bs ++ rest))
    rw [hd.loads_none rfl rest]
    exact .none
  | label | line | frame =>
    cases hb
    exact ⟨rfl, .none⟩

theorem items_loads (code : Bytes) (es : List (Nat × Node)) :
    (items off es).filterMap (fun e => loadedIndex? (code.drop e.1)) =
      es.filterMap fun e => (e.2.item? off).bind fun _ => loadedIndex? (code.drop e.1) := by
  rw [items, List.filterMap_filterMap]
  refine List.filterMap_congr fun e _ => ?_
  cases e.2.item? off <;> rfl

/-- Code that is laid out names what its nodes load, in order. -/
theorem loads_laid {ns : List Node} {pcs : List Piece} {parts : List Bytes} {code : Bytes}
    (h : List.Forall₂ (Holds q) ns pcs) (he : List.Forall₂ (Enters q) ns pcs)
    (hp : List.Forall₂ (fun pc bs => emit place pc = .ok bs) (lay o pcs) parts)
    (hj : JumpsFit place off stop ns) (hs : reach o pcs = stop) (hl : stop ≤ 65535)
    (hcode : code.drop o = parts.flatten) :
    List.Forall₂ (Literal.Entered q) (ns.filterMap Node.loaded?)
      ((items off (stand o ns pcs)).filterMap fun e => loadedIndex? (code.drop e.1)) := by
  rw [items_loads]
  induction h generalizing o parts with
  | nil => exact .nil
  | @cons n pc ns pcs hn hns ih =>
    rw [lay] at hp
    obtain ⟨bs, parts, hb, hparts, rfl⟩ := List.forall₂_cons_left_iff.mp hp
    obtain ⟨hen, hens⟩ := List.forall₂_cons.mp he
    have hr : o + pc.size o ≤ stop := by
      rw [← hs, reach]
      exact (stand_spaced (hns.imp fun _ _ h => h.shaped)).le
    have hjn : JumpsFit place off stop [n] := fun br hbr =>
      hj br (List.mem_singleton.mp hbr ▸ List.mem_cons_self)
    obtain ⟨hsize, hrel⟩ := emitted_loads hn hen hb hjn hr hl parts.flatten
    have hnext : code.drop (o + pc.size o) = parts.flatten := by
      rw [← List.drop_drop, hcode, ← hsize, List.flatten_cons, List.drop_left]
    have hrest := ih hens hparts (fun br hbr => hj br (List.mem_cons_of_mem _ hbr)) hs hnext
    rw [stand, List.filterMap_cons, List.filterMap_cons, hcode, List.flatten_cons]
    dsimp only
    generalize n.loaded? = l, (n.item? off).bind (fun _ => loadedIndex? (bs ++ parts.flatten)) = j at hrel
    cases hrel with
    | none => exact hrest
    | some hlj => exact .cons hlj hrest

end Laid

/-- An entry that is decoded to a literal is one that the literal can stand for. -/
theorem Pool.literal_names {p : Pool} {i : PoolIndex} {l : Literal} (h : p.literal i = .ok l) :
    p.Names l := by
  obtain ⟨c, hc, h⟩ := except_bind_ok.mp h
  cases c with
  | methodHandle kind member =>
    cases h
    exact ⟨kind, member, hc⟩
  | dynamic bootstrap nt =>
    obtain ⟨⟨name, descriptor⟩, hnt, h⟩ := except_bind_ok.mp h
    obtain ⟨type, htype, h⟩ := except_bind_ok.mp h
    cases h
    exact ⟨bootstrap, nt, name, descriptor, hc, hnt, except_mapError_ok.mp htype⟩
  | string t | classRef t =>
    obtain ⟨_, -, h⟩ := except_bind_ok.mp h
    cases h
    trivial
  | methodType t =>
    obtain ⟨_, -, h⟩ := except_bind_ok.mp h
    obtain ⟨_, -, h⟩ := except_bind_ok.mp h
    cases h
    trivial
  | integer n | float bits | long n | double bits =>
    cases h
    trivial
  | _ => cases h

theorem forall₂_through {α β γ : Type} {R : α → β → Prop} {S : β → γ → Prop} {T : α → γ → Prop}
    {xs : List α} {ys : List β} {zs : List γ} (h : List.Forall₂ R xs ys) (k : List.Forall₂ S ys zs)
    (ht : ∀ x y z, R x y → S y z → T x z) : List.Forall₂ T xs zs := by
  induction h generalizing zs with
  | nil =>
    cases k
    exact .nil
  | cons hxy _ ih =>
    cases k with
    | cons hyz k => exact .cons (ht _ _ _ hxy hyz) (ih k)

namespace Body

variable {b : Body} {p q : Pool} {maxStack maxLocals : UInt16} {entry : Option Frame} {c : CodeAttribute}

/-- The literals of a body that was read are loaded from entries of its pool. -/
theorem ReadFrom.loads {l : Listing} {d : DebugTables} {fs : List (Nat × Frame)}
    (h : b.ReadFrom p entry c l d fs) :
    List.Forall₂ (fun i lit => p.literal i = .ok lit) (l.loads c.code) b.literals := by
  rw [h.literals]
  exact forall₂_filterMap (Listing.ofCode_loads h.listing)

/-- The literals of a body that is written are loaded from the entries that they are given. -/
theorem encode_loads (hp : p.Reached) (hj : ∀ br, Node.branch br ∈ b.nodes → br.Bounded ∧
      ∀ m ∈ br.targets, ∃ r, b.labelTarget m = .ok (some r))
    (hnames : ∀ l ∈ b.literals, p.Names l) (h : b.encode maxStack maxLocals entry p = (.ok c, q)) :
    ∃ l, Listing.ofCode q c.code = .ok l ∧
      List.Forall₂ (Literal.Entered q) b.literals (l.loads c.code) := by
  have hq := (b.encode_interns _ _ _).run h
  obtain ⟨pieces, r, parts, hpieces, hl, hfits, hcode, hparts⟩ := encode_pieces h
  have hr : r.Reached := ((Pool.Interns.mapM Piece.ofNode_interns).run hpieces).reached hp
  have hh : List.Forall₂ (Holds q) b.nodes pieces := by
    obtain ⟨-, -, hholds⟩ := Pool.Yields.mapM (fun n _ => Piece.ofNode_yields n) p pieces r hp.sound hpieces
    refine forall₂_mem (hholds q (hq.reached hp).sound hl.grows) fun n hn l hldc => ?_
    have hmem : l ∈ b.literals := List.mem_filterMap.mpr ⟨n, hn, Node.loaded?_some.mpr hldc⟩
    exact hq.grows.names (hnames l hmem)
  have henter : List.Forall₂ (Enters q) b.nodes pieces := by
    refine (pieces_enter hp hpieces).imp fun n pc he l hload => ?_
    obtain ⟨j, hform, hj⟩ := he l hload
    exact ⟨j, hform, hj.leads hr hl⟩
  have hshaped : List.Forall₂ Shaped b.nodes pieces := hh.imp fun _ _ h => h.shaped
  have hlaid : Laid b (placeOf (Layout.labels ⟨lay 0 pieces, reach 0 pieces⟩)) (stand 0 b.nodes pieces)
      (reach 0 pieces) :=
    ⟨stand_spaced hshaped, stand_nodes hshaped, by rw [stand_marked hshaped], hfits⟩
  have hjumps : JumpsFit (placeOf (Layout.labels ⟨lay 0 pieces, reach 0 pieces⟩))
      (offsetOf (stand 0 b.nodes pieces)) (reach 0 pieces) b.nodes := by
    intro br hbr
    obtain ⟨hbound, htargets⟩ := hj br hbr
    refine ⟨hbound, fun m hm => ?_⟩
    obtain ⟨r, hr⟩ := htargets m hm
    exact hlaid.label hr
  obtain ⟨l, hlist, hitems, -⟩ := hlaid.listing hh hparts hjumps
  rw [← hcode] at hlist
  refine ⟨l, hlist, ?_⟩
  rw [Listing.loads, hitems]
  exact loads_laid hh henter hparts hjumps rfl hfits hcode

/-- A body that is written as it was read loads the same constants in the same order: the tags are the
same, and so are the bytes, except that of texts which are decoded alike the first one is taken. -/
theorem loads_again {s rest : Bytes} {entry' : Option Frame} {c' : CodeAttribute}
    (hread : Pool.read s = .ok (p, rest)) (hb : Body.ofCode p entry c = .ok b)
    (h : b.encode maxStack maxLocals entry' p = (.ok c', q)) :
    ∃ l l', Listing.ofCode p c.code = .ok l ∧ Listing.ofCode q c'.code = .ok l' ∧
      List.Forall₂ (p.Reloads q) (l.loads c.code) (l'.loads c'.code) := by
  have hp : p.Reached := .read hread
  obtain ⟨l, d, fs, hfrom⟩ := ofCode_readFrom hb
  have hloads := hfrom.loads
  have hjumps := hfrom.jumps
  have hnames : ∀ lit ∈ b.literals, p.Names lit := by
    intro lit hlit
    obtain ⟨i, -, hi⟩ := forall₂_right hloads lit hlit
    exact Pool.literal_names hi
  obtain ⟨l', hlist', hentered⟩ := encode_loads hp hjumps hnames h
  have hl := (b.encode_interns _ _ _).run h
  refine ⟨l, l', hfrom.listing, hlist', ?_⟩
  exact forall₂_through hloads hentered fun i lit j hi hj => hj.reloads hread hl hi

end Body

namespace Surrogates

open Pool

/-- A pool of two lone surrogates, each with a string constant. -/
def source : Bytes := [0, 5, 1, 0, 3, 0xED, 0xA0, 0x80, 8, 0, 1, 1, 0, 3, 0xED, 0xA0, 0x81, 8, 0, 3]

def code : CodeAttribute := ⟨1, 0, [0x12, 4, 0x57, 0xB1], [], []⟩

def recoded : CodeAttribute := ⟨1, 0, [0x12, 2, 0x57, 0xB1], [], []⟩

/-- What is seen of the pool, of the body that is read with it, and of both listings. -/
def Seen (p : Pool) (b : Body) (l l' : Listing) : Prop :=
  p.slots.toList = [none, some (.utf8 "\uFFFD"), some (.string 1), some (.utf8 "\uFFFD"), some (.string 3)] ∧
    p.rawContent? 4 = some [8, 1, 0, 3, 0xED, 0xA0, 0x81] ∧
    p.rawContent? 2 = some [8, 1, 0, 3, 0xED, 0xA0, 0x80] ∧
    b.nodes = [.insn (.ldc (.string "\uFFFD")), .insn (.stack .pop), .branch (.leave none)] ∧
    b.tryBlocks = [] ∧ b.locals = [] ∧ l.loads code.code = [4] ∧ l'.loads recoded.code = [2]

instance (p : Pool) (b : Body) (l l' : Listing) : Decidable (Seen p b l l') :=
  inferInstanceAs (Decidable (_ ∧ _))

theorem parsed : ∃ p b l l', Pool.read source = .ok (p, []) ∧ Body.ofCode p none code = .ok b ∧
    Listing.ofCode p code.code = .ok l ∧ Listing.ofCode p recoded.code = .ok l' ∧ Seen p b l l' := by
  have hall : (Pool.read source).toOption.any (fun r => r.2 = [] &&
      (Body.ofCode r.1 none code).toOption.any fun b =>
        (Listing.ofCode r.1 code.code).toOption.any fun l =>
          (Listing.ofCode r.1 recoded.code).toOption.any fun l' => Seen r.1 b l l') = true := by
    decide +kernel
  obtain ⟨⟨p, rest⟩, hp, hall⟩ := toOption_any.mp hall
  obtain ⟨hrest, hall⟩ := Bool.and_eq_true_iff.mp hall
  obtain ⟨b, hb, hall⟩ := toOption_any.mp hall
  obtain ⟨l, hl, hall⟩ := toOption_any.mp hall
  obtain ⟨l', hl', hseen⟩ := toOption_any.mp hall
  cases of_decide_eq_true hrest
  exact ⟨p, b, l, l', hp, hb, hl, hl', of_decide_eq_true hseen⟩

section

variable {p : Pool} {b : Body} {l l' : Listing}

/-- Both strings are the same constant, and the first one is found. -/
theorem interned (h : Seen p b l l') (hp : p.Reached) :
    Literal.intern (.string "\uFFFD") p = (.ok 2, p) := by
  have hslots := h.1
  have hget (n : Nat) : p.slots[n]? = [none, some (.utf8 "\uFFFD"), some (.string 1),
      some (.utf8 "\uFFFD"), some (.string 3)][n]? := by
    rw [← hslots, Array.getElem?_toList]
  have htext : p.index[Constant.utf8 "\uFFFD"]? = some 1 := by
    refine hp.index_iff.mpr ⟨constant_ok.mpr (hget 1), fun j hj => ?_⟩
    have hne := hp.sound.index_ne_zero hj
    by_contra hlt
    exact hne (UInt16.toNat_inj.mp (Nat.lt_one_iff.mp (UInt16.lt_iff_toNat_lt.mp (UInt16.not_le.mp hlt))))
  have hstring : p.index[Constant.string 1]? = some 2 := by
    refine hp.index_iff.mpr ⟨constant_ok.mpr (hget 2), fun j hj => ?_⟩
    have hne := hp.sound.index_ne_zero hj
    by_contra hlt
    have hlt : j.toNat < 2 := UInt16.lt_iff_toNat_lt.mp (UInt16.not_le.mp hlt)
    have hone : j.toNat = 1 := by
      have : j.toNat ≠ 0 := fun h => hne (UInt16.toNat_inj.mp h)
      omega
    have hslot := (hget j.toNat).symm.trans (constant_ok.mp hj)
    rw [hone] at hslot
    cases hslot
  exact run_bind_ok.mpr ⟨1, p, intern_known htext, intern_known hstring⟩

theorem encoded (h : Seen p b l l') (hp : p.Reached) : b.encode 1 0 none p = (.ok recoded, p) := by
  have hload := interned h hp
  obtain ⟨-, -, -, hnodes, htry, hlocals, -, -⟩ := h
  have hpieces : b.nodes.mapM Piece.ofNode p =
      (.ok [.bytes [0x12, 2], .bytes [0x57], .branch (.leave none)], p) := by
    rw [hnodes]
    refine run_bind_ok.mpr ⟨.bytes [0x12, 2], p, ?_, rfl⟩
    exact run_bind_ok.mpr ⟨[0x12, 2], p, run_bind_ok.mpr ⟨2, p, hload, rfl⟩, rfl⟩
  refine run_bind_ok.mpr ⟨_, p, hpieces, ?_⟩
  rw [htry, hlocals]
  rfl

end

end Surrogates

open Surrogates in
/-- The second string is loaded before, and the first one after, whose bytes are other ones. -/
theorem Surrogates.spelled_anew : ∃ p b l l', Pool.read source = .ok (p, []) ∧
    Body.ofCode p none code = .ok b ∧ b.encode 1 0 none p = (.ok recoded, p) ∧
    Listing.ofCode p code.code = .ok l ∧ Listing.ofCode p recoded.code = .ok l' ∧
    l.loads code.code = [4] ∧ l'.loads recoded.code = [2] ∧ p.Reloads p 4 2 ∧
    p.rawContent? 4 = some [8, 1, 0, 3, 0xED, 0xA0, 0x81] ∧
    p.rawContent? 2 = some [8, 1, 0, 3, 0xED, 0xA0, 0x80] ∧ ¬p.SpelledFirst 4 := by
  obtain ⟨p, b, l, l', hread, hb, hl, hl', hseen⟩ := parsed
  have hencode := encoded hseen (.read hread)
  obtain ⟨m, m', hm, hm', hloads⟩ := Body.loads_again hread hb hencode
  cases hl.symm.trans hm
  cases hl'.symm.trans hm'
  obtain ⟨-, h4, h2, -, -, -, hbefore, hafter⟩ := hseen
  rw [hbefore, hafter] at hloads
  obtain ⟨hreloads, -⟩ := List.forall₂_cons.mp hloads
  refine ⟨p, b, l, l', hread, hb, hencode, hl, hl', hbefore, hafter, hreloads, h4, h2, fun hfirst => ?_⟩
  have hkept := hreloads.kept.mpr hfirst
  rw [h2, h4] at hkept
  exact absurd hkept (by decide)

end ClassGraft
