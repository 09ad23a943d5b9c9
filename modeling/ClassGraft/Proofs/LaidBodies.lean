import ClassGraft.Proofs.EncodedBodies

namespace ClassGraft

open Layout

/-- The offsets of labels, and 0 for those that are not placed. -/
def offsetOf (es : List (Nat × Node)) (l : Label) : Nat := ((marked es).lookup l).getD 0

section Read

variable {b : Body} {p q : Pool} {entry : Option Frame} {c : CodeAttribute} {pieces : List Piece}
  {place : Label → Except ClassError Nat} {es : List (Nat × Node)} {stop : Nat} {l : Listing}

/-- The nodes of a body at the offsets from which its labels are placed. -/
structure Laid (b : Body) (place : Label → Except ClassError Nat) (es : List (Nat × Node))
    (stop : Nat) : Prop where
  spaced : Spaced stop 0 es
  nodes : es.map Prod.snd = b.nodes
  place_eq : place = placeOf (marked es)
  fits : stop ≤ 65535

namespace Laid

theorem places (h : Laid b place es stop) : PlacesAt place b.ordinal? (starts es) stop := by
  intro m o hm
  rw [h.place_eq] at hm
  have hlook := placeOf_ok.mp hm
  rw [lookup_marked, Option.map_eq_some_iff] at hlook
  obtain ⟨e, he, rfl⟩ := hlook
  have hmem := List.mem_of_find?_eq_some he
  refine ⟨?_, (h.spaced.bounds e hmem).2, h.spaced.boundary e hmem⟩
  rw [Body.ordinal?_eq h.spaced h.nodes, placeOf_ok.mp hm]
  rfl

theorem label (h : Laid b place es stop) {m : Label} {r : Nat}
    (hm : b.labelTarget m = .ok (some r)) :
    place m = .ok (offsetOf es m) ∧ offsetOf es m < stop := by
  obtain ⟨o, ho, hlt⟩ := Body.label_offset h.spaced h.nodes hm
  have he : offsetOf es m = o := by rw [offsetOf, ho, Option.getD_some]
  rw [he, h.place_eq]
  exact ⟨placeOf_ok.mpr ho, hlt⟩

theorem jumpsFit (h : Laid b place es stop) (hb : b.Retained p) :
    JumpsFit place (offsetOf es) stop b.nodes := by
  intro br hbr
  refine ⟨hb.storable.switches br hbr, fun m hm => ?_⟩
  obtain ⟨r, hr⟩ := hb.resolved.jumps br hbr m hm
  exact h.label hr

end Laid

theorem Body.Encoded.laid (h : b.Encoded entry q c pieces place)
    (hh : List.Forall₂ (Holds q) b.nodes pieces) :
    Laid b place (stand 0 b.nodes pieces) (reach 0 pieces) :=
  have hshaped : List.Forall₂ Shaped b.nodes pieces := hh.imp fun _ _ h => h.shaped
  { spaced := stand_spaced hshaped
    nodes := stand_nodes hshaped
    place_eq := by rw [h.place_eq, stand_marked hshaped]
    fits := h.fits }

/-- The instructions of emitted code are listed at their offsets. -/
theorem Laid.listing {parts : List Bytes} (hlaid : Laid b place (stand 0 b.nodes pieces) (reach 0 pieces))
    (hh : List.Forall₂ (Holds q) b.nodes pieces)
    (hparts : List.Forall₂ (fun p bs => emit place p = .ok bs) (lay 0 pieces) parts)
    (hj : JumpsFit place (offsetOf (stand 0 b.nodes pieces)) (reach 0 pieces) b.nodes) :
    ∃ l, Listing.ofCode q parts.flatten = .ok l ∧
      l.items = items (offsetOf (stand 0 b.nodes pieces)) (stand 0 b.nodes pieces) ∧
      Listed l (starts (stand 0 b.nodes pieces)) (reach 0 pieces) := by
  obtain ⟨hlen, hlist⟩ := listCode_laid hh hparts hj rfl hlaid.fits []
  rw [Nat.zero_add] at hlen
  rw [← hlen, List.reverse_nil, List.nil_append] at hlist
  have hos := items_starts (offsetOf (stand 0 b.nodes pieces)) (stand 0 b.nodes pieces)
  refine ⟨_, by rw [Listing.ofCode, hlist]; rfl, rfl, hlen, hos, fun o => ?_,
    hlaid.spaced.starts_head, hlaid.spaced.starts_stop_ascend⟩
  refine Listing.at?_eq ?_ (fun e he => ?_) rfl o
  · rw [hos]
    exact hlaid.spaced.starts_ascend
  · rw [hlen]
    exact (hlaid.spaced.starts_bounds e.1 (hos ▸ List.mem_map_of_mem he)).2

theorem Body.Encoded.listing (h : b.Encoded entry q c pieces place)
    (hh : List.Forall₂ (Holds q) b.nodes pieces) (hb : b.Retained p) :
    ∃ l, Listing.ofCode q c.code = .ok l ∧
      l.items = items (offsetOf (stand 0 b.nodes pieces)) (stand 0 b.nodes pieces) ∧
      Listed l (starts (stand 0 b.nodes pieces)) (reach 0 pieces) := by
  obtain ⟨parts, hparts, hcode⟩ := h.code
  rw [hcode]
  exact (h.laid hh).listing hh hparts ((h.laid hh).jumpsFit hb)

/-- The entries of the local variables that are written, those with a descriptor first. -/
theorem Body.Encoded.locals_kept {ss : List Nat} {stop : Nat}
    {vs : List (Option (LocalEntry × Bool))} (hp : PlacesAt place b.ordinal? ss stop)
    (hs : stop ≤ 65535) (hv : List.Forall₂ (LocalRange.Written place q) b.locals vs) :
    List.Forall₂ (LocalRange.Kept place q)
        (b.locals.filter fun v => v.isForward b.ordinal? && !v.isSignature)
        ((vs.filterMap id).filter fun v => !v.2) ∧
      List.Forall₂ (LocalRange.Kept place q)
        (b.locals.filter fun v => v.isForward b.ordinal? && v.isSignature)
        ((vs.filterMap id).filter fun v => v.2) := by
  have hk := forall₂_filter hv (LocalRange.written_kept hp hs)
  have part (keep : LocalRange → Bool) (keep' : LocalEntry × Bool → Bool)
      (hkeep : ∀ v e, LocalRange.Kept place q v e → keep v = keep' e) :
      List.Forall₂ (LocalRange.Kept place q)
        (b.locals.filter fun v => v.isForward b.ordinal? && keep v)
        ((vs.filterMap id).filter keep') := by
    have hf := forall₂_filter_both hk hkeep
    rw [List.filter_filter] at hf
    simpa only [Bool.and_comm] using hf
  exact ⟨part _ _ fun v e h => by rw [h.2.2.2.1], part _ _ fun v e h => h.2.2.2.1.symm⟩

namespace Listed

variable {ss : List Nat}

theorem isStart (h : Listed l ss stop) (o : Nat) : l.isStart o = true ↔ o ∈ ss := by
  rw [Listing.isStart_iff h.found, h.starts]

theorem at?_mem (h : Listed l ss stop) {o : Nat} {i : CodeItem} (hi : (o, i) ∈ l.items) :
    l.at? o = some i := by
  have ha := (List.pairwise_append.mp h.ascend).1
  rw [← h.starts] at ha
  obtain ⟨xs, ys, hs⟩ := List.append_of_mem hi
  rw [h.found]
  refine List.lookup_eq_some_iff.mpr ⟨xs, ys, hs, fun e he => ?_⟩
  rw [hs, List.map_append, List.pairwise_append] at ha
  have hlt := ha.2.2 e.1 (List.mem_map_of_mem he) o List.mem_cons_self
  simpa using Nat.ne_of_gt hlt

theorem isBoundary (h : Listed l ss stop) (o : Nat) :
    l.isBoundary o = true ↔ o = stop ∨ o ∈ ss := by
  rw [Listing.isBoundary_iff h.found, h.starts, h.length]

theorem isSound (h : Listed l ss stop) (hp : PlacesAt place b.ordinal? ss stop) {t : TryBlock}
    {e : ExceptionEntry} (ht : t.Kept place q e) (hh : e.handler.toNat < stop) :
    l.isSound e = true := by
  obtain ⟨h1, h2, h3, hlt, -⟩ := ht
  obtain ⟨-, l1, b1⟩ := hp _ _ h1
  obtain ⟨-, l2, b2⟩ := hp _ _ h2
  obtain ⟨-, l3, b3⟩ := hp _ _ h3
  have hlt' : e.start.toNat < e.stop.toNat := UInt16.lt_iff_toNat_lt.mp hlt
  have s1 : l.isStart e.start.toNat = true :=
    (h.isStart _).mpr (b1.resolve_left (by omega))
  have s3 : l.isStart e.handler.toNat = true :=
    (h.isStart _).mpr (b3.resolve_left (by omega))
  simp [Listing.isSound, hlt, s1, (h.isBoundary _).mpr b2, s3]

theorem inRange (h : Listed l ss stop) (hp : PlacesAt place b.ordinal? ss stop) {v : LocalRange}
    {e : LocalEntry × Bool} (hv : v.Kept place q e) : DebugTables.InRange l e.1 := by
  obtain ⟨h1, h2, -⟩ := hv
  exact ⟨(h.isBoundary _).mpr (hp _ _ h1).2.2, (h.isBoundary _).mpr (hp _ _ h2).2.2⟩

end Listed

/-- The body that is read when nothing is wrong. -/
theorem Body.ofCode_ok {l : Listing} {d : DebugTables} {ts : List TryBlock} {ls : List LocalRange}
    {fs : List (Nat × Frame)} {plan : LabelPlan} (hl : Listing.ofCode q c.code = .ok l)
    (ht : l.checkTargets l.items = .ok ()) (hh : l.checkHandlers c.exceptions = .ok ())
    (hd : DebugTables.ofAttributes q l c.attributes = .ok d)
    (hplan : plan = LabelPlan.make l c.exceptions d)
    (hf : d.frames = none ∧ fs = [] ∨ ∃ table before, d.frames = some table ∧
      entry = some before ∧ l.declaredFrames (l.resolve q plan) 0 before table = .ok fs)
    (hts : c.exceptions.mapM (tryBlock q plan) = .ok ts)
    (hls : d.locals.mapM (localRange q plan) = .ok ls) :
    ∃ b', Body.ofCode q entry c = .ok b' ∧ b'.tryBlocks = ts ∧ b'.locals = ls ∧
      (readNodes plan d.lines fs l.items ++ lastNodes plan l.length).map Prod.snd = b'.nodes := by
  refine ⟨{ Body.ofNodes plan.length ((l.items.flatMap fun e => nodesAt plan d.lines fs e.1 e.2) ++
    if plan.contains l.length then [Node.label (plan.label l.length)] else []) with
      tryBlocks := ts, locals := ls }, ?_, rfl, rfl, ?_⟩
  · subst hplan
    rcases hf with ⟨hnone, rfl⟩ | ⟨table, before, hsome, rfl, hfs⟩
    · simp only [Body.ofCode, hl, ht, hh, hd, hnone, hts, hls, bind, Except.bind, pure, Except.pure]
    · simp only [Body.ofCode, hl, ht, hh, hd, hsome, hfs, hts, hls, bind, Except.bind, pure,
        Except.pure]
  · rw [Body.nodes_ofNodes, readNodes_nodes]

theorem mem_items_branch {off : Label → Nat} {es : List (Nat × Node)} {o : Nat} {br : Branch Nat}
    (h : (o, Sum.inr br) ∈ items off es) :
    ∃ br', Node.branch br' ∈ es.map Prod.snd ∧ br = br'.map off := by
  obtain ⟨e, he, hi⟩ := List.mem_filterMap.mp h
  obtain ⟨_, n⟩ := e
  cases n with
  | branch br' =>
    cases hi
    exact ⟨br', List.mem_map_of_mem he, rfl⟩
  | insn i => cases hi
  | _ => cases hi

theorem mem_items_of_branch (off : Label → Nat) {es : List (Nat × Node)} {br : Branch Label}
    (h : Node.branch br ∈ es.map Prod.snd) : ∃ o, (o, Sum.inr (br.map off)) ∈ items off es := by
  obtain ⟨e, he, hn⟩ := List.mem_map.mp h
  obtain ⟨o, n⟩ := e
  cases hn
  exact ⟨o, List.mem_filterMap.mpr ⟨_, he, rfl⟩⟩

theorem Body.ordinal?_congr {b b' : Body} (h : b.nodes = b'.nodes) : b.ordinal? = b'.ordinal? := by
  funext l
  rw [Body.ordinal?, Body.ordinal?, h]

/-- The instructions are the same if their labels stand for the same ordinals. -/
theorem items_program {off : Label → Nat} {es : List (Nat × Node)} {f : Nat → Option Nat}
    (hn : es.map Prod.snd = b.nodes)
    (h : ∀ br, Node.branch br ∈ b.nodes → ∀ l ∈ br.targets, f (off l) = b.ordinal? l) :
    (items off es).map (fun e => e.2.mapTargets f) = b.program := by
  rw [Body.program, ← hn, items, List.map_filterMap, List.filterMap_map]
  refine List.filterMap_congr fun e he => ?_
  obtain ⟨o, n⟩ := e
  cases n with
  | insn i => rfl
  | branch br =>
    have hbr := h br (hn ▸ List.mem_map_of_mem he)
    show some (Sum.inr ((br.map off).map f)) = some (Sum.inr (br.map b.ordinal?))
    rw [Branch.map_map, Branch.map_congr hbr]
  | _ => rfl

/-- The checks that are made when a body is read succeed. -/
theorem Laid.checks (h : Laid b place es stop) (hb : b.Retained p) (hl : Listed l (starts es) stop)
    (hi : l.items = items (offsetOf es) es) (hk : List.Forall₂ (TryBlock.Kept place q)
      (b.tryBlocks.filter (TryBlock.isUsed b.ordinal?)) c.exceptions) :
    l.checkTargets l.items = .ok () ∧ l.checkHandlers c.exceptions = .ok () := by
  constructor
  · refine Listing.checkTargets_ok fun o br hm t ht => (hl.isStart t).mpr ?_
    rw [hi] at hm
    obtain ⟨br', hbr', rfl⟩ := mem_items_branch hm
    rw [Branch.targets_map] at ht
    obtain ⟨m, hm, rfl⟩ := List.mem_map.mp ht
    obtain ⟨hpl, hlt⟩ := (h.jumpsFit hb br' (h.nodes ▸ hbr')).2 m hm
    exact (h.places _ _ hpl).2.2.resolve_left (by omega)
  · refine Listing.checkHandlers_ok fun e he => ?_
    obtain ⟨t, ht, hk⟩ := forall₂_right hk e he
    obtain ⟨ht, hused⟩ := List.mem_filter.mp ht
    obtain ⟨r, hr⟩ := hb.resolved.handlers t ht hused
    obtain ⟨ho, hlt⟩ := h.label hr
    have heq : e.handler.toNat = offsetOf es t.handler := Except.ok.inj (hk.2.2.1.symm.trans ho)
    exact hl.isSound h.places hk (by omega)

theorem Laid.line_starts (h : Laid b place es stop) :
    ∀ e ∈ es.filterMap (lineAt? stop), e.start.toNat ∈ starts es := by
  intro z hz
  obtain ⟨e, he, hz⟩ := List.mem_filterMap.mp hz
  obtain ⟨hstart, hlt⟩ := lineAt?_start h.fits hz
  rw [hstart]
  exact (h.spaced.boundary e he).resolve_left (by omega)

/-- A site that is tied has its label at the offset of a `new`. -/
theorem Laid.stands {u : NewSite} (h : Laid b place es stop) (hl : Listed l (starts es) stop)
    (hi : l.items = items (offsetOf es) es) (hu : b.Ties u) : Stands place l u := by
  obtain ⟨o, ho, hmem, -⟩ := (Body.labelTarget_offset h.spaced h.nodes).mp hu
  have hitem : (o, Sum.inl (.new u.type)) ∈ l.items := by
    rw [hi]
    exact List.mem_filterMap.mpr ⟨_, hmem, rfl⟩
  have hle := (h.spaced.bounds _ hmem).2
  exact ⟨o, by rw [h.place_eq, placeOf_ok, ho], Nat.le_trans hle h.fits, hl.at?_mem hitem⟩

/-- The frames that are written stand before instructions, and their sites are at `new` instructions. -/
theorem Laid.framed (h : Laid b place es stop) (hb : b.Retained p) (hl : Listed l (starts es) stop)
    (hi : l.items = items (offsetOf es) es) : ∀ e ∈ es.filterMap (frameAt? stop),
      Node.frame e.2 ∈ b.nodes ∧ e.1 < stop ∧ l.isStart e.1 = true ∧
        e.2.Sited (Stands place l) := by
  intro e he
  obtain ⟨e', he', hframe⟩ := List.mem_filterMap.mp he
  obtain ⟨rfl, hlt⟩ := frameAt?_eq_some hframe
  have hmem : Node.frame e.2 ∈ b.nodes := h.nodes ▸ List.mem_map_of_mem he'
  refine ⟨hmem, hlt, (hl.isStart _).mpr ((h.spaced.boundary _ he').resolve_left (Nat.ne_of_lt hlt)), ?_⟩
  exact (Body.tied_iff.mp hb.tied e.2 hmem).mono fun u hu => h.stands hl hi hu

/-- The frames that are written are short enough. -/
theorem Laid.counted (h : Laid b place es stop) (hb : b.Storable p) :
    ∀ e ∈ es.filterMap (frameAt? stop),
      e.2.packed.length ≤ 65535 ∧ e.2.stack.length ≤ 65535 := by
  intro e he
  have hview := hb.frames (rank (starts es) e.1, e.2.view b.ordinal?) (by
    rw [Body.carriedFrames_eq h.spaced h.nodes]
    exact List.mem_map_of_mem he)
  simpa [Frame.view_packed] using hview

theorem Laid.frames_sorted (h : Laid b place es stop) :
    ((es.filterMap (frameAt? stop)).map Prod.fst).Pairwise (· ≤ ·) := by
  rw [List.pairwise_map, List.pairwise_filterMap]
  refine (List.pairwise_map.mp h.spaced.sorted).imp fun {c d} hle x hx y hy => ?_
  rw [(frameAt?_eq_some hx).1, (frameAt?_eq_some hy).1] at hle
  exact hle

end Read

end ClassGraft
