import ClassGraft.Proofs.BodyEdits
import ClassGraft.Proofs.FrameTables
import Mathlib

namespace ClassGraft

open Layout

/-- What the parts of a code attribute hold, where `pieces` are those of the nodes. -/
structure Body.Encoded (b : Body) (entry : Option Frame) (q : Pool) (c : CodeAttribute)
    (pieces : List Piece) (place : Label → Except ClassError Nat) : Prop where
  place_eq : place = placeOf (labels ⟨lay 0 pieces, reach 0 pieces⟩)
  holds : List.Forall₂ (fun n p => (∀ l, n = .insn (.ldc l) → q.Names l) → Holds q n p) b.nodes pieces
  fits : reach 0 pieces ≤ 65535
  code : ∃ parts, List.Forall₂ (fun p bs => emit place p = .ok bs) (lay 0 pieces) parts ∧
    c.code = parts.flatten
  exceptions : ∃ rs, List.Forall₂ (TryBlock.Written place q) b.tryBlocks rs ∧
    c.exceptions = rs.filterMap id
  attributes : ∃ vs as bs cs ds xs, List.Forall₂ (LocalRange.Written place q) b.locals vs ∧
    HoldsTable q .lineNumberTable (Layout.lines ⟨lay 0 pieces, reach 0 pieces⟩)
      (Layout.lines ⟨lay 0 pieces, reach 0 pieces⟩) as ∧
    HoldsTable q .localVariableTable (((vs.filterMap id).filter fun v => !v.2).map Prod.fst)
      (((vs.filterMap id).filter fun v => !v.2).map Prod.fst) bs ∧
    HoldsTable q .localVariableTypeTable (((vs.filterMap id).filter fun v => v.2).map Prod.fst)
      (((vs.filterMap id).filter fun v => v.2).map Prod.fst) cs ∧
    HoldsTable q .stackMapTable xs xs ds ∧
    (entry = none ∧ xs = [] ∨ ∃ before r, entry = some before ∧ before.Written place q r ∧
      FramesWritten place q 0 r (frames ⟨lay 0 pieces, reach 0 pieces⟩) xs) ∧
    c.attributes = as ++ bs ++ cs ++ ds

theorem Body.encode_yields (b : Body) (maxStack maxLocals : UInt16) (entry : Option Frame) :
    Pool.Yields (b.encode maxStack maxLocals entry)
      fun q code => ∃ pieces place, b.Encoded entry q code pieces place := by
  unfold Body.encode
  refine .bind (Pool.Yields.mapM fun n _ => Piece.ofNode_yields n) fun pieces => ?_
  rw [ofPieces_eq]
  dsimp only
  split
  next => exact .throwThen _ _
  next hfits =>
    refine .bind (Pool.Yields.mapM fun p _ => .lift (emit _ p)) fun parts => ?_
    refine .bind (Pool.Yields.mapM fun t _ => t.encode_yields) fun rs => ?_
    refine .bind (tableAttribute_yields _ _ _) fun as => ?_
    refine .bind (Pool.Yields.mapM fun v _ => v.encode_yields) fun vs => ?_
    refine .bind (tableAttribute_yields _ _ _) fun bs => ?_
    refine .bind (tableAttribute_yields _ _ _) fun cs => ?_
    have done (q : Pool) (xs : List StackMapFrame) (ds : List Attribute)
        (hds : HoldsTable q .stackMapTable xs xs ds) (hxs) (hcs hbs hvs has hrs hparts hpieces) :
        ∃ pieces place, b.Encoded entry q ⟨maxStack, maxLocals, parts.flatten, rs.filterMap id,
          as ++ bs ++ cs ++ ds⟩ pieces place :=
      ⟨pieces, _, rfl, hpieces, by omega, ⟨parts, hparts, rfl⟩, ⟨rs, hrs, rfl⟩,
        vs, as, bs, cs, ds, xs, hvs, has, hbs, hcs, hds, hxs, rfl⟩
    cases entry with
    | none =>
      exact .bind (Q := fun _ ds => ds = []) (.pure fun _ => rfl) fun ds => .pure fun q hds =>
        done q [] ds (.inl ⟨rfl, hds⟩) (.inl ⟨rfl, rfl⟩)
    | some entry =>
      refine .bind entry.toRaw_yields fun before => ?_
      refine .bind (encodeFrames_yields _ _ _) fun xs => ?_
      refine .bind (tableAttribute_yields _ _ _) fun ds => ?_
      exact .pure fun q hds hxs hentry =>
        done q xs ds hds (.inr ⟨entry, before, rfl, hentry, hxs⟩)

theorem forall₂_mem {α β : Type} {R : α → β → Prop} {P : α → Prop} {xs : List α} {ys : List β}
    (h : List.Forall₂ (fun a b => P a → R a b) xs ys) (hp : ∀ a ∈ xs, P a) :
    List.Forall₂ R xs ys := by
  induction h with
  | nil => exact .nil
  | cons hab _ ih =>
    exact .cons (hab (hp _ List.mem_cons_self)) (ih fun a ha => hp a (List.mem_cons_of_mem _ ha))

theorem forall₂_right {α β : Type} {R : α → β → Prop} {xs : List α} {ys : List β}
    (h : List.Forall₂ R xs ys) : ∀ y ∈ ys, ∃ x ∈ xs, R x y := by
  induction h with
  | nil => intro y hy; cases hy
  | cons hab _ ih =>
    intro y hy
    rcases List.mem_cons.mp hy with rfl | hy
    · exact ⟨_, List.mem_cons_self, hab⟩
    · obtain ⟨x, hx, hr⟩ := ih y hy
      exact ⟨x, List.mem_cons_of_mem _ hx, hr⟩

theorem forall₂_filter_both {α β : Type} {R : α → β → Prop} {keep : α → Bool} {keep' : β → Bool}
    {xs : List α} {ys : List β} (h : List.Forall₂ R xs ys)
    (hk : ∀ x y, R x y → keep x = keep' y) :
    List.Forall₂ R (xs.filter keep) (ys.filter keep') := by
  induction h with
  | nil => exact .nil
  | @cons x y xs ys hab _ ih =>
    rw [List.filter_cons, List.filter_cons, hk x y hab]
    split
    · exact .cons hab ih
    · exact ih

theorem map_fst_of_snd {α : Type} {flag : Bool} {xs : List (α × Bool)} (h : ∀ x ∈ xs, x.2 = flag) :
    (xs.map Prod.fst).map (fun v => (v, flag)) = xs := by
  rw [List.map_map]
  conv_rhs => rw [← List.map_id xs]
  refine List.map_congr_left fun x hx => ?_
  rw [← h x hx]
  rfl

theorem items_starts (off : Label → Nat) (es : List (Nat × Node)) :
    (items off es).map Prod.fst = starts es := by
  induction es with
  | nil => rfl
  | cons e es ih =>
    obtain ⟨o, n⟩ := e
    cases n with
    | insn i | branch br =>
      rw [starts_instruction rfl, ← ih]
      rfl
    | label | line | frame =>
      rw [starts_pseudo rfl, ← ih]
      rfl

theorem Spaced.starts_head {stop o : Nat} {es : List (Nat × Node)} (h : Spaced stop o es) :
    (starts es ++ [stop]).head? = some o := by
  induction es generalizing o with
  | nil => exact congrArg some (Eq.symm h)
  | cons e es ih =>
    obtain ⟨he, next, hn, h⟩ := h
    cases hp : e.2.isPseudo with
    | true =>
      rw [hp, if_pos rfl] at hn
      rw [starts_pseudo hp, ih h, hn]
    | false =>
      rw [starts_instruction hp, List.cons_append, List.head?_cons, he]

theorem Spaced.starts_stop_ascend {stop o : Nat} {es : List (Nat × Node)} (h : Spaced stop o es) :
    (starts es ++ [stop]).Pairwise (· < ·) := by
  rw [List.pairwise_append]
  refine ⟨h.starts_ascend, List.pairwise_singleton _ _, fun s hs p hp => ?_⟩
  rw [List.mem_singleton.mp hp]
  exact (h.starts_bounds s hs).2

theorem Listing.checkTargets_ok {l : Listing} {os : List (Nat × CodeItem)}
    (h : ∀ o br, (o, Sum.inr br) ∈ os → ∀ t ∈ br.targets, l.isStart t = true) :
    l.checkTargets os = .ok () := by
  induction os with
  | nil => rfl
  | cons e os ih =>
    have ih' := ih fun o br hm => h o br (List.mem_cons_of_mem _ hm)
    obtain ⟨o, i | br⟩ := e
    · exact ih'
    · have hf : br.targets.find? (fun t => !l.isStart t) = none := by
        rw [List.find?_eq_none]
        intro t ht
        simp [h o br List.mem_cons_self t ht]
      rw [checkTargets, hf]
      exact ih'

theorem Listing.checkTargets_starts {l : Listing} {os : List (Nat × CodeItem)}
    (h : l.checkTargets os = .ok ()) {o : Nat} {br : Branch Nat} (hbr : (o, Sum.inr br) ∈ os) :
    ∀ t ∈ br.targets, l.isStart t = true := by
  induction os with
  | nil => cases hbr
  | cons e os ih =>
    obtain ⟨o', i | br'⟩ := e
    · rcases List.mem_cons.mp hbr with he | hbr
      · cases he
      · exact ih h hbr
    · rw [checkTargets] at h
      split at h
      next => cases h
      next hnone =>
        rcases List.mem_cons.mp hbr with he | hbr
        · cases he
          intro t ht
          have hfound := List.find?_eq_none.mp hnone t ht
          simpa using hfound
        · exact ih h hbr

theorem Listing.checkHandlers_ok {l : Listing} {es : List ExceptionEntry}
    (h : ∀ e ∈ es, l.isSound e = true) : l.checkHandlers es = .ok () := by
  have hf : es.find? (fun e => !l.isSound e) = none := by
    rw [List.find?_eq_none]
    intro e he
    simp [h e he]
  rw [checkHandlers, hf]

theorem Listing.checkHandlers_sound {l : Listing} {es : List ExceptionEntry}
    (h : l.checkHandlers es = .ok ()) : ∀ e ∈ es, l.isSound e = true := by
  unfold checkHandlers at h
  split at h
  next => cases h
  next hnone =>
    intro e he
    simpa using List.find?_eq_none.mp hnone e he

theorem placeOf_ok {labels : List (Label × Nat)} {l : Label} {o : Nat} :
    placeOf labels l = .ok o ↔ labels.lookup l = some o := by
  unfold placeOf
  split
  next p h => simp [h]
  next h => simp [h]

/-- What has to hold of a body and the pool it is written with, so that nothing is lost. -/
structure Body.Legible (b : Body) (p : Pool) : Prop where
  frames : ∀ f, Node.frame f ∉ b.nodes
  jumps : ∀ br, Node.branch br ∈ b.nodes → br.Bounded ∧
    ∀ l ∈ br.targets, ∃ r, b.labelTarget l = .ok (some r)
  handlers : ∀ t ∈ b.tryBlocks, ∃ r, b.labelTarget t.handler = .ok (some r)
  literals : ∀ l, Node.insn (.ldc l) ∈ b.nodes → p.Names l
  lines : b.lineNumbers.length ≤ 65535
  plain : (b.locals.filter fun v => v.isForward b.ordinal? && !v.isSignature).length ≤ 65535
  signed : (b.locals.filter fun v => v.isForward b.ordinal? && v.isSignature).length ≤ 65535

/-- What the format asks of a body and the pool it is written with: switches with a case, literals that
name entries, and tables that are counted in two bytes. -/
structure Body.Fits (b : Body) (p : Pool) : Prop where
  switches : ∀ br, Node.branch br ∈ b.nodes → br.Bounded
  literals : ∀ l, Node.insn (.ldc l) ∈ b.nodes → p.Names l
  frames : ∀ f, Node.frame f ∈ b.nodes → f.locals.length ≤ 65535 ∧ f.stack.length ≤ 65535
  lines : b.lineNumbers.length ≤ 65535
  plain : (b.locals.filter fun v => v.isForward b.ordinal? && !v.isSignature).length ≤ 65535
  signed : (b.locals.filter fun v => v.isForward b.ordinal? && v.isSignature).length ≤ 65535

/-- What the format asks of a body where frames are counted by what is written of them: those before
instructions, and each of their wide locals once. -/
structure Body.Storable (b : Body) (p : Pool) : Prop where
  switches : ∀ br, Node.branch br ∈ b.nodes → br.Bounded
  literals : ∀ l, Node.insn (.ldc l) ∈ b.nodes → p.Names l
  frames : ∀ e ∈ b.carriedFrames, e.2.packed.length ≤ 65535 ∧ e.2.stack.length ≤ 65535
  lines : b.lineNumbers.length ≤ 65535
  plain : (b.locals.filter fun v => v.isForward b.ordinal? && !v.isSignature).length ≤ 65535
  signed : (b.locals.filter fun v => v.isForward b.ordinal? && v.isSignature).length ≤ 65535

theorem Body.Fits.storable {b : Body} {p : Pool} (h : b.Fits p) : b.Storable p where
  switches := h.switches
  literals := h.literals
  frames := by
    intro e he
    obtain ⟨⟨k, n⟩, hn, he⟩ := List.mem_filterMap.mp he
    cases n with
    | frame f =>
      dsimp only at he
      split at he
      next =>
        cases he
        obtain ⟨hl, hs⟩ := h.frames f (mem_of_numbered hn)
        exact ⟨Nat.le_trans (packLocals_length_le _) (by simpa using hl), by simpa using hs⟩
      next => cases he
    | _ => cases he
  lines := h.lines
  plain := h.plain
  signed := h.signed

/-- All jumps and all handlers that are used lead to instructions. -/
structure Body.Resolved (b : Body) : Prop where
  jumps : ∀ br, Node.branch br ∈ b.nodes → ∀ l ∈ br.targets, ∃ r, b.labelTarget l = .ok (some r)
  handlers : ∀ t ∈ b.tryBlocks, t.isUsed b.ordinal? = true →
    ∃ r, b.labelTarget t.handler = .ok (some r)

/-- A body that is read back. It may have frames that are tied to their `new` instructions. -/
structure Body.Readable (b : Body) (p : Pool) : Prop where
  fits : b.Fits p
  resolved : b.Resolved
  tied : b.Tied

/-- A body that is read back, where frames are counted by what is written of them. -/
structure Body.Retained (b : Body) (p : Pool) : Prop where
  storable : b.Storable p
  resolved : b.Resolved
  tied : b.Tied

theorem Body.Readable.retained {b : Body} {p : Pool} (h : b.Readable p) : b.Retained p :=
  ⟨h.fits.storable, h.resolved, h.tied⟩

theorem Body.Legible.readable {b : Body} {p : Pool} (h : b.Legible p) : b.Readable p where
  fits := {
    switches := fun br hbr => (h.jumps br hbr).1
    literals := h.literals
    frames := fun f hf => absurd hf (h.frames f)
    lines := h.lines
    plain := h.plain
    signed := h.signed }
  resolved := ⟨fun br hbr => (h.jumps br hbr).2, fun t ht _ => h.handlers t ht⟩
  tied := by
    rintro u ⟨f, hf, -⟩
    exact absurd hf (h.frames f)

/-- One body says what another one says, up to what is not written: try blocks without instructions and
ranges that end before they start. -/
structure Body.Restores (b' b : Body) : Prop where
  program : b'.program = b.program
  tryBlocks : b'.tryBlocks.map (TryBlock.view b'.ordinal?) =
    (b.tryBlocks.filter (TryBlock.isUsed b.ordinal?)).map (TryBlock.view b.ordinal?)
  locals : b'.locals.map (LocalRange.view b'.ordinal?) =
    ((b.locals.filter fun v => v.isForward b.ordinal? && !v.isSignature) ++
      b.locals.filter fun v => v.isForward b.ordinal? && v.isSignature).map
        (LocalRange.view b.ordinal?)
  lines : b'.lineNumbers = b.lineNumbers

end ClassGraft
