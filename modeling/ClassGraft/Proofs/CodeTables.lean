import ClassGraft.Proofs.CodeListing
import ClassGraft.Proofs.LabelPlans

namespace ClassGraft

variable {stop o : Nat} {es : List (Nat × Node)} {os : List (Nat × CodeItem)} {q : Pool}

theorem Body.lineNumbers_eq {b : Body} (h : Spaced stop 0 es) (hn : es.map Prod.snd = b.nodes)
    (hs : stop ≤ 65535) : b.lineNumbers =
      (es.filterMap (lineAt? stop)).map fun e => (rank (starts es) e.start.toNat, e.line) := by
  rw [Body.lineNumbers, Body.program_length hn, ← hn, numbered_eq h, List.filterMap_map,
    List.map_filterMap]
  refine List.filterMap_congr fun e he => ?_
  obtain ⟨p, n⟩ := e
  have hb := (h.bounds _ he).2
  have hlt := h.rank_lt_length (h.boundary _ he)
  cases n with
  | line n =>
    simp only [Function.comp, lineAt?, Nat.zero_add]
    by_cases hp : p < stop
    · rw [if_pos (hlt.mpr hp), if_pos hp]
      simp only [Option.map_some, Pool.toNat_toUInt16 (show p ≤ 65535 by omega)]
    · rw [if_neg (fun hr => hp (hlt.mp hr)), if_neg hp]
      rfl
  | _ => rfl

theorem filter_least_append {α : Type} (key : α → Nat) {k : Nat} {xs : List α}
    (hx : (xs.map key).Pairwise (· ≤ ·)) (hle : ∀ x ∈ xs, k ≤ key x) :
    (xs.filter fun x => key x == k) ++ (xs.filter fun x => key x != k) = xs := by
  induction xs with
  | nil => rfl
  | cons x xs ih =>
    rw [List.map_cons, List.pairwise_cons] at hx
    by_cases hk : key x = k
    · simp only [List.filter_cons, hk, beq_self_eq_true, ↓reduceIte, bne_self_eq_false,
        Bool.false_eq_true, List.cons_append]
      rw [ih hx.2 fun y hy => hle y (List.mem_cons_of_mem _ hy)]
    · have hlt : k < key x := by
        have := hle x List.mem_cons_self
        omega
      have hne : ∀ y ∈ x :: xs, key y ≠ k := by
        intro y hy
        rcases List.mem_cons.mp hy with rfl | hy
        · exact hk
        · have := hx.1 (key y) (List.mem_map_of_mem hy)
          omega
      rw [List.filter_eq_nil_iff.mpr fun y hy => by simpa using hne y hy,
        List.filter_eq_self.mpr fun y hy => by simpa using hne y hy, List.nil_append]

/-- A list in the order of keys is made up of its parts for the keys. -/
theorem flatMap_filter_eq {α : Type} (key : α → Nat) {ks : List Nat} {xs : List α}
    (hk : ks.Pairwise (· < ·)) (hx : (xs.map key).Pairwise (· ≤ ·)) (h : ∀ x ∈ xs, key x ∈ ks) :
    (ks.flatMap fun k => xs.filter fun x => key x == k) = xs := by
  induction ks generalizing xs with
  | nil =>
    cases xs with
    | nil => rfl
    | cons x xs => cases h x List.mem_cons_self
  | cons k ks ih =>
    obtain ⟨hlow, hks⟩ := List.pairwise_cons.mp hk
    have hle : ∀ x ∈ xs, k ≤ key x := by
      intro x hm
      rcases List.mem_cons.mp (h x hm) with he | hin
      · exact Nat.le_of_eq he.symm
      · exact Nat.le_of_lt (hlow _ hin)
    have hin : ∀ x ∈ xs.filter (fun x => key x != k), key x ∈ ks := by
      intro x hm
      obtain ⟨hx, hne⟩ := List.mem_filter.mp hm
      have hne : key x ≠ k := by simpa using hne
      exact (List.mem_cons.mp (h x hx)).resolve_left hne
    have hrest := ih hks (hx.sublist (List.filter_sublist.map _)) hin
    have hsame : (ks.flatMap fun j => xs.filter fun x => key x == j) =
        ks.flatMap fun j => (xs.filter fun x => key x != k).filter fun x => key x == j := by
      refine List.flatMap_congr fun j hj => ?_
      have hkj := hlow j hj
      rw [List.filter_filter]
      refine List.filter_congr fun x _ => ?_
      by_cases hxj : key x = j
      · have hxk : key x ≠ k := by omega
        simp [hxj, show j ≠ k by omega]
      · simp [hxj]
    rw [List.flatMap_cons, hsame, hrest, filter_least_append key hx hle]

theorem lineAt?_start {e : Nat × Node} {z : LineEntry} (hs : stop ≤ 65535)
    (h : lineAt? stop e = some z) : z.start.toNat = e.1 ∧ e.1 < stop := by
  unfold lineAt? at h
  split at h
  · split at h
    next hlt =>
      cases h
      exact ⟨Pool.toNat_toUInt16 (by omega), hlt⟩
    next => cases h
  · cases h

theorem lineAt?_sorted (h : Spaced stop o es) (hs : stop ≤ 65535) :
    ((es.filterMap (lineAt? stop)).map fun e => e.start.toNat).Pairwise (· ≤ ·) := by
  rw [List.pairwise_map, List.pairwise_filterMap]
  refine (List.pairwise_map.mp h.sorted).imp_of_mem fun {c d} hc hd hle x hx y hy => ?_
  have h1 := (h.bounds c hc).2
  have h2 := (h.bounds d hd).2
  rw [(lineAt?_start hs hx).1, (lineAt?_start hs hy).1]
  exact hle

theorem lineAt?_heads {plan : LabelPlan} {lines : List LineEntry}
    {frames : List (Nat × Frame)} (ho : o < stop) :
    ((heads plan lines frames o).map fun n => (o, n)).filterMap (lineAt? stop) =
      lines.filter fun e => e.start.toNat == o := by
  have hmap : ∀ ns : List Node, (ns.map fun n => (o, n)).filterMap (lineAt? stop) =
      ns.filterMap fun n => lineAt? stop (o, n) := fun ns => List.filterMap_map ..
  rw [hmap, heads, List.filterMap_append, List.filterMap_append]
  have hlabel : ((if plan.contains o then [Node.label (plan.label o)] else []).filterMap
      fun n => lineAt? stop (o, n)) = [] := by split <;> rfl
  have hframe : (((frames.lookup o).map Node.frame).toList.filterMap
      fun n => lineAt? stop (o, n)) = [] := by cases frames.lookup o <;> rfl
  rw [hlabel, hframe, List.nil_append, List.append_nil, List.filterMap_map]
  have hsome : ∀ e ∈ lines.filter (fun e => e.start.toNat == o),
      ((fun n => lineAt? stop (o, n)) ∘ fun e : LineEntry => Node.line e.line) e = some e := by
    intro e he
    have hstart : e.start.toNat = o := by simpa using (List.mem_filter.mp he).2
    have hback : o.toUInt16 = e.start := by
      rw [← hstart]
      simp
    simp only [Function.comp, lineAt?, if_pos ho, hback]
  rw [List.filterMap_congr hsome, List.filterMap_some]

/-- What is picked from the nodes that are read, if each offset gives the part for it, and the
instructions and the label at the end give nothing. -/
theorem filterMap_readNodes {α : Type} {plan : LabelPlan} {lines : List LineEntry}
    {frames : List (Nat × Frame)} {pick : Nat × Node → Option α} {key : α → Nat} {xs : List α}
    (hlast : pick (stop, .label (plan.label stop)) = none)
    (hitem : ∀ e ∈ os, pick (e.1, e.2.toNode plan) = none)
    (hheads : ∀ o ∈ os.map Prod.fst, ((heads plan lines frames o).map fun n => (o, n)).filterMap pick =
      xs.filter fun x => key x == o)
    (ha : (os.map Prod.fst).Pairwise (· < ·)) (hx : (xs.map key).Pairwise (· ≤ ·))
    (hm : ∀ x ∈ xs, key x ∈ os.map Prod.fst) :
    (readNodes plan lines frames os ++ lastNodes plan stop).filterMap pick = xs := by
  have hend : (lastNodes plan stop).filterMap pick = [] := by
    unfold lastNodes
    split
    · rw [List.filterMap_cons, hlast, List.filterMap_nil]
    · rfl
  have hread : (readNodes plan lines frames os).filterMap pick =
      (os.map Prod.fst).flatMap fun o => xs.filter fun x => key x == o := by
    rw [readNodes, List.filterMap_flatMap, List.flatMap_map]
    refine List.flatMap_congr fun e he => ?_
    rw [nodesAt_eq, List.map_append, List.filterMap_append, hheads _ (List.mem_map_of_mem he),
      List.map_cons, List.map_nil, List.filterMap_cons, hitem e he, List.filterMap_nil,
      List.append_nil]
  rw [List.filterMap_append, hend, List.append_nil, hread]
  exact flatMap_filter_eq key ha hx hm

/-- The line numbers that are read are those that were written. -/
theorem lineAt?_readNodes {plan : LabelPlan} {lines : List LineEntry}
    {frames : List (Nat × Frame)} (ha : (os.map Prod.fst).Pairwise (· < ·))
    (hb : ∀ s ∈ os.map Prod.fst, s < stop)
    (hl : (lines.map fun e => e.start.toNat).Pairwise (· ≤ ·))
    (hm : ∀ e ∈ lines, e.start.toNat ∈ os.map Prod.fst) :
    (readNodes plan lines frames os ++ lastNodes plan stop).filterMap (lineAt? stop) = lines := by
  refine filterMap_readNodes rfl (fun e _ => ?_) (fun o ho => lineAt?_heads (hb o ho)) ha hl hm
  rcases e with ⟨o, i | br⟩ <;> rfl

theorem Body.carriedFrames_eq {b : Body} (h : Spaced stop 0 es) (hn : es.map Prod.snd = b.nodes) :
    b.carriedFrames = (es.filterMap (frameAt? stop)).map fun e =>
      (rank (starts es) e.1, e.2.view b.ordinal?) := by
  rw [Body.carriedFrames, Body.program_length hn, ← hn, numbered_eq h, List.filterMap_map,
    List.map_filterMap]
  refine List.filterMap_congr fun e he => ?_
  obtain ⟨p, n⟩ := e
  have hlt := h.rank_lt_length (h.boundary _ he)
  cases n with
  | frame f =>
    simp only [Function.comp, frameAt?, Nat.zero_add]
    by_cases hp : p < stop
    · rw [if_pos (hlt.mpr hp), if_pos hp]
      rfl
    · rw [if_neg (fun hr => hp (hlt.mp hr)), if_neg hp]
      rfl
  | _ => rfl

theorem frameAt?_heads {plan : LabelPlan} {lines : List LineEntry} {frames : List (Nat × Frame)}
    (ho : o < stop) (ha : (frames.map Prod.fst).Pairwise (· < ·)) :
    ((heads plan lines frames o).map fun n => (o, n)).filterMap (frameAt? stop) =
      frames.filter fun e => e.1 == o := by
  have hmap : ∀ ns : List Node, (ns.map fun n => (o, n)).filterMap (frameAt? stop) =
      ns.filterMap fun n => frameAt? stop (o, n) := fun ns => List.filterMap_map ..
  have hlabel : ((if plan.contains o then [Node.label (plan.label o)] else []).filterMap
      fun n => frameAt? stop (o, n)) = [] := by split <;> rfl
  have hlines : ((lines.filter fun e => e.start.toNat == o).map fun e => Node.line e.line).filterMap
      (fun n => frameAt? stop (o, n)) = [] := by
    rw [List.filterMap_map, List.filterMap_eq_nil_iff]
    exact fun _ _ => rfl
  have hframe : ((frames.lookup o).map Node.frame).toList.filterMap
      (fun n => frameAt? stop (o, n)) = (frames.lookup o).toList.map fun f => (o, f) := by
    cases frames.lookup o with
    | none => rfl
    | some f => simp [frameAt?, ho]
  rw [hmap, heads, List.filterMap_append, List.filterMap_append, hlabel, hlines, hframe,
    List.nil_append, List.nil_append]
  clear hframe
  -- no two frames have the same offset, so that the first one is the only one
  induction frames with
  | nil => rfl
  | cons e frames ih =>
    obtain ⟨hlow, ha⟩ := List.pairwise_cons.mp ha
    rw [List.lookup_cons, List.filter_cons]
    by_cases he : e.1 = o
    · have hnone : frames.filter (fun e => e.1 == o) = [] := by
        refine List.filter_eq_nil_iff.mpr fun d hd => ?_
        have := hlow d.1 (List.mem_map_of_mem hd)
        simp only [beq_iff_eq]
        omega
      subst he
      simp [hnone]
    · have hne : (o == e.1) = false := beq_false_of_ne (Ne.symm he)
      rw [hne, if_neg (by simpa using he)]
      exact ih ha

/-- The frames that are read are those that were declared. -/
theorem frameAt?_readNodes {plan : LabelPlan} {lines : List LineEntry}
    {frames : List (Nat × Frame)} (ha : (os.map Prod.fst).Pairwise (· < ·))
    (hb : ∀ s ∈ os.map Prod.fst, s < stop) (hf : (frames.map Prod.fst).Pairwise (· < ·))
    (hm : ∀ e ∈ frames, e.1 ∈ os.map Prod.fst) :
    (readNodes plan lines frames os ++ lastNodes plan stop).filterMap (frameAt? stop) = frames := by
  refine filterMap_readNodes rfl (fun e _ => ?_) (fun o ho => frameAt?_heads (hb o ho) hf) ha
    (hf.imp fun h => Nat.le_of_lt h) hm
  rcases e with ⟨o, i | br⟩ <;> rfl

/-- The attributes that hold a table: none if it is empty. -/
def HoldsTable (q : Pool) (k : AttributeKind) {α : Type} (content : k.Content) (xs : List α)
    (as : List Attribute) : Prop :=
  xs = [] ∧ as = [] ∨
    xs ≠ [] ∧ ∃ a, as = [a] ∧ q.utf8 a.name = .ok k.name ∧ a.info = k.write content

theorem tableAttribute_yields {α : Type} (k : AttributeKind) (wrap : List α → k.Content)
    (xs : List α) : Pool.Yields (tableAttribute k wrap xs)
      fun q as => HoldsTable q k (wrap xs) xs as := by
  unfold tableAttribute
  split
  next h => exact .pure fun _ => .inl ⟨List.isEmpty_iff.mp h, rfl⟩
  next hne =>
    have hxs : xs ≠ [] := fun h => hne (List.isEmpty_iff.mpr h)
    exact (Pool.internAttribute_yields k (wrap xs)).map fun _ a _ h =>
      .inr ⟨hxs, a, rfl, h.1, h.2⟩

theorem AttributeKind.name_inj {k k' : AttributeKind} : k.name = k'.name ↔ k = k' := by
  constructor
  · cases k <;> cases k' <;> decide
  · exact congrArg AttributeKind.name

theorem Attribute.decode_ok {a : Attribute} {k : AttributeKind} {content : k.Content}
    (h : k.read.Reads a.info content) : a.decode k = .ok content := by
  have hr := h []
  rw [List.append_nil] at hr
  simp only [Attribute.decode, hr]

namespace DebugTables

variable {l : Listing} {d : DebugTables} {as : List Attribute}

/-- What the attributes for a table add, if it is read back and one that is empty changes nothing. -/
theorem add_table {k : AttributeKind} {α : Type} {content : k.Content} {xs : List α}
    {d' : DebugTables} (h : HoldsTable q k content xs as)
    (hread : k.read.Reads (k.write content) content) (hempty : xs = [] → d' = d)
    (hadd : ∀ a, q.utf8 a.name = .ok k.name → a.decode k = .ok content → xs ≠ [] →
      add q l d a = .ok d') : as.foldlM (add q l) d = .ok d' := by
  rcases h with ⟨hx, rfl⟩ | ⟨hne, a, rfl, hname, hinfo⟩
  · rw [hempty hx]
    rfl
  · have hd : a.decode k = .ok content := Attribute.decode_ok (hinfo ▸ hread)
    rw [List.foldlM_cons, hadd a hname hd hne]
    rfl

theorem add_lines {xs : List LineEntry} (h : HoldsTable q .lineNumberTable xs xs as)
    (hn : xs.length ≤ 65535) (hk : ∀ e ∈ xs, l.isStart e.start.toNat = true) :
    as.foldlM (add q l) d = .ok { d with lines := d.lines ++ xs } := by
  have hf : xs.filter (fun e => l.isStart e.start.toNat) = xs := List.filter_eq_self.mpr hk
  refine add_table h (.counted xs (fun e _ => .lineEntry e) hn) (fun hx => ?_) fun a hname hd _ => ?_
  · rw [hx, List.append_nil]
  · simp only [add, hname, hd, bind, Except.bind, ↓reduceIte, hf]
    rfl

/-- Does a range of a local variable begin and end where it may? -/
def InRange (l : Listing) (v : LocalEntry) : Prop :=
  l.isBoundary v.start.toNat = true ∧ l.isBoundary (v.start.toNat + v.length.toNat) = true

theorem filter_inRange {xs : List LocalEntry} (h : ∀ v ∈ xs, InRange l v) :
    (xs.filter fun v => l.isBoundary v.start.toNat &&
      l.isBoundary (v.start.toNat + v.length.toNat)) = xs :=
  List.filter_eq_self.mpr fun v hv => Bool.and_eq_true_iff.mpr (h v hv)

theorem add_plain {xs : List LocalEntry} (h : HoldsTable q .localVariableTable xs xs as)
    (hn : xs.length ≤ 65535) (hk : ∀ v ∈ xs, InRange l v) :
    as.foldlM (add q l) d = .ok { d with locals := d.locals ++ xs.map fun v => (v, false) } := by
  refine add_table h (.counted xs (fun v _ => .localEntry v) hn) (fun hx => ?_) fun a hname hd _ => ?_
  · rw [hx, List.map_nil, List.append_nil]
  · simp only [add, hname, hd, AttributeKind.name_inj, reduceCtorEq, bind, Except.bind, ↓reduceIte,
      filter_inRange hk]
    rfl

theorem add_signed {xs : List LocalEntry} (h : HoldsTable q .localVariableTypeTable xs xs as)
    (hn : xs.length ≤ 65535) (hk : ∀ v ∈ xs, InRange l v) :
    as.foldlM (add q l) d = .ok { d with locals := d.locals ++ xs.map fun v => (v, true) } := by
  refine add_table h (.counted xs (fun v _ => .localEntry v) hn) (fun hx => ?_) fun a hname hd _ => ?_
  · rw [hx, List.map_nil, List.append_nil]
  · simp only [add, hname, hd, AttributeKind.name_inj, reduceCtorEq, bind, Except.bind, ↓reduceIte,
      filter_inRange hk]
    rfl

end DebugTables

section Ranges

variable {place : Label → Except ClassError Nat} {f g : Label → Option Nat} {ss : List Nat}
  {plan : LabelPlan}

/-- Labels are placed at instructions or at the end, and stand for the ordinals of these. -/
def PlacesAt (place : Label → Except ClassError Nat) (f : Label → Option Nat) (ss : List Nat)
    (stop : Nat) : Prop :=
  ∀ l o, place l = .ok o → f l = some (rank ss o) ∧ o ≤ stop ∧ (o = stop ∨ o ∈ ss)

/-- Planned labels stand for the ordinals of their offsets. -/
def ReadsAt (plan : LabelPlan) (g : Label → Option Nat) (ss : List Nat) (stop : Nat) : Prop :=
  ∀ o ∈ plan, o = stop ∨ o ∈ ss → g (plan.label o) = some (rank ss o)

/-- What is written for a try block. -/
def TryBlock.Written (place : Label → Except ClassError Nat) (q : Pool) (t : TryBlock)
    (r : Option ExceptionEntry) : Prop :=
  ∃ start stop handler, place t.start = .ok start ∧ place t.stop = .ok stop ∧
    place t.handler = .ok handler ∧ (stop ≤ start ∧ r = none ∨ start < stop ∧
      ∃ c, r = some ⟨start.toUInt16, stop.toUInt16, handler.toUInt16, c⟩ ∧
        match t.caught with
        | none => c = 0
        | some n => c ≠ 0 ∧ q.classType c = .ok (.object n))

theorem TryBlock.encode_yields (t : TryBlock) :
    Pool.Yields (t.encode place) fun q r => t.Written place q r := by
  refine .bind (.lift _) fun start => .bind (.lift _) fun stop => .bind (.lift _) fun handler => ?_
  split
  next h => exact .pure fun _ h3 h2 h1 => ⟨start, stop, handler, h1, h2, h3, .inl ⟨h, rfl⟩⟩
  next h =>
    obtain ⟨_, _, _, caught⟩ := t
    cases caught with
    | none =>
      exact .pure fun _ h3 h2 h1 =>
        ⟨start, stop, handler, h1, h2, h3, .inr ⟨Nat.lt_of_not_le h, 0, rfl, rfl⟩⟩
    | some n =>
      exact (Pool.internClass_yields _).map fun q c _ hc h3 h2 h1 =>
        ⟨start, stop, handler, h1, h2, h3,
          .inr ⟨Nat.lt_of_not_le h, c, rfl, hc.2, Pool.classType_ok hc.1⟩⟩

/-- What is written for a local variable. -/
def LocalRange.Written (place : Label → Except ClassError Nat) (q : Pool) (v : LocalRange)
    (r : Option (LocalEntry × Bool)) : Prop :=
  ∃ start stop, place v.start = .ok start ∧ place v.stop = .ok stop ∧
    (stop < start ∧ r = none ∨ start ≤ stop ∧ ∃ name descriptor,
      r = some (⟨start.toUInt16, (stop - start).toUInt16, name, descriptor, v.index⟩,
          v.isSignature) ∧
        q.utf8 name = .ok v.name ∧ q.utf8 descriptor = .ok v.descriptor)

theorem LocalRange.encode_yields (v : LocalRange) :
    Pool.Yields (v.encode place) fun q r => v.Written place q r := by
  refine .bind (.lift _) fun start => .bind (.lift _) fun stop => ?_
  split
  next h => exact .pure fun _ h2 h1 => ⟨start, stop, h1, h2, .inl ⟨h, rfl⟩⟩
  next h =>
    refine .bind (Pool.internUtf8_yields _) fun name => .bind (Pool.internUtf8_yields _) fun d => ?_
    exact .pure fun _ hd hn h2 h1 =>
      ⟨start, stop, h1, h2, .inr ⟨Nat.le_of_not_lt h, name, d, rfl, hn, hd⟩⟩

theorem forall₂_filter {α β : Type} {R : α → Option β → Prop} {S : α → β → Prop} {keep : α → Bool}
    {xs : List α} {rs : List (Option β)} (h : List.Forall₂ R xs rs)
    (hr : ∀ x r, R x r → keep x = false ∧ r = none ∨ keep x = true ∧ ∃ y, r = some y ∧ S x y) :
    List.Forall₂ S (xs.filter keep) (rs.filterMap id) := by
  induction h with
  | nil => exact .nil
  | @cons x r xs rs hx _ ih =>
    rcases hr x r hx with ⟨hk, rfl⟩ | ⟨hk, y, rfl, hy⟩
    · rw [List.filter_cons, hk]
      exact ih
    · rw [List.filter_cons, hk]
      exact .cons hy ih

theorem forall₂_mapM {α β γ δ : Type} {S : α → β → Prop} {read : β → Except ClassError γ}
    {view : α → δ} {view' : γ → δ} {xs : List α} {ys : List β} (h : List.Forall₂ S xs ys)
    (hr : ∀ x, ∀ y ∈ ys, S x y → ∃ z, read y = .ok z ∧ view' z = view x) :
    ∃ zs, ys.mapM read = .ok zs ∧ zs.map view' = xs.map view := by
  induction h with
  | nil => exact ⟨[], rfl, rfl⟩
  | @cons x y xs ys hx _ ih =>
    obtain ⟨z, hz, hv⟩ := hr x y List.mem_cons_self hx
    obtain ⟨zs, hzs, hvs⟩ := ih fun x' y' hy' => hr x' y' (List.mem_cons_of_mem _ hy')
    refine ⟨z :: zs, ?_, by rw [List.map_cons, List.map_cons, hv, hvs]⟩
    rw [List.mapM_cons, hz, hzs]
    rfl

/-- The entry of a try block has its offsets and its class. -/
def TryBlock.Kept (place : Label → Except ClassError Nat) (q : Pool) (t : TryBlock)
    (e : ExceptionEntry) : Prop :=
  place t.start = .ok e.start.toNat ∧ place t.stop = .ok e.stop.toNat ∧
    place t.handler = .ok e.handler.toNat ∧ e.start < e.stop ∧
      match t.caught with
      | none => e.catchIndex = 0
      | some n => e.catchIndex ≠ 0 ∧ q.classType e.catchIndex = .ok (.object n)

theorem TryBlock.written_kept (hp : PlacesAt place f ss stop) (hs : stop ≤ 65535)
    (t : TryBlock) (r : Option ExceptionEntry) (h : t.Written place q r) :
    t.isUsed f = false ∧ r = none ∨ t.isUsed f = true ∧ ∃ e, r = some e ∧ t.Kept place q e := by
  obtain ⟨start, stop', handler, h1, h2, h3, h⟩ := h
  obtain ⟨f1, l1, b1⟩ := hp _ _ h1
  obtain ⟨f2, l2, b2⟩ := hp _ _ h2
  obtain ⟨-, l3, -⟩ := hp _ _ h3
  have hu : t.isUsed f = decide (start < stop') := by
    simp only [TryBlock.isUsed, f1, f2, rank_lt_iff b1 l2]
  rcases h with ⟨hle, rfl⟩ | ⟨hlt, c, rfl, hc⟩
  · exact .inl ⟨by rw [hu]; exact decide_eq_false (by omega), rfl⟩
  · refine .inr ⟨by rw [hu]; exact decide_eq_true hlt, _, rfl, ?_⟩
    have t1 := Pool.toNat_toUInt16 (show start ≤ 65535 by omega)
    have t2 := Pool.toNat_toUInt16 (show stop' ≤ 65535 by omega)
    have t3 := Pool.toNat_toUInt16 (show handler ≤ 65535 by omega)
    refine ⟨by rw [t1, h1], by rw [t2, h2], by rw [t3, h3], ?_, hc⟩
    rw [UInt16.lt_iff_toNat_lt, t1, t2]
    exact hlt

/-- A try block is read back from its entry. -/
theorem TryBlock.kept_read (hp : PlacesAt place f ss stop) (hg : ReadsAt plan g ss stop)
    {t : TryBlock} {e : ExceptionEntry} (h : t.Kept place q e)
    (hm : e.start.toNat ∈ plan ∧ e.stop.toNat ∈ plan ∧ e.handler.toNat ∈ plan) :
    ∃ z, tryBlock q plan e = .ok z ∧ z.view g = t.view f := by
  obtain ⟨h1, h2, h3, -, hc⟩ := h
  obtain ⟨f1, -, b1⟩ := hp _ _ h1
  obtain ⟨f2, -, b2⟩ := hp _ _ h2
  obtain ⟨f3, -, b3⟩ := hp _ _ h3
  refine ⟨⟨plan.label e.start.toNat, plan.label e.stop.toNat, plan.label e.handler.toNat,
    t.caught⟩, ?_, ?_⟩
  · obtain ⟨_, _, _, caught⟩ := t
    cases caught with
    | none =>
      have hc : e.catchIndex = 0 := hc
      simp only [tryBlock, hc, ↓reduceIte, bind, Except.bind]
      rfl
    | some n =>
      obtain ⟨hne, hn⟩ : e.catchIndex ≠ 0 ∧ q.classType e.catchIndex = .ok (.object n) := hc
      simp only [tryBlock, if_neg hne, hn, bind, Except.bind]
      rfl
  · simp only [TryBlock.view, hg _ hm.1 b1, hg _ hm.2.1 b2, hg _ hm.2.2 b3, f1, f2, f3]

/-- The entry of a local variable has its offsets and its texts. -/
def LocalRange.Kept (place : Label → Except ClassError Nat) (q : Pool) (v : LocalRange)
    (e : LocalEntry × Bool) : Prop :=
  place v.start = .ok e.1.start.toNat ∧
    place v.stop = .ok (e.1.start.toNat + e.1.length.toNat) ∧ e.1.index = v.index ∧
      e.2 = v.isSignature ∧ q.utf8 e.1.name = .ok v.name ∧
        q.utf8 e.1.descriptor = .ok v.descriptor

theorem LocalRange.written_kept (hp : PlacesAt place f ss stop) (hs : stop ≤ 65535)
    (v : LocalRange) (r : Option (LocalEntry × Bool)) (h : v.Written place q r) :
    v.isForward f = false ∧ r = none ∨
      v.isForward f = true ∧ ∃ e, r = some e ∧ v.Kept place q e := by
  obtain ⟨start, stop', h1, h2, h⟩ := h
  obtain ⟨f1, l1, b1⟩ := hp _ _ h1
  obtain ⟨f2, l2, b2⟩ := hp _ _ h2
  have hu : v.isForward f = decide (start ≤ stop') := by
    simp only [LocalRange.isForward, f1, f2]
    have := rank_lt_iff b2 l1
    exact decide_eq_decide.mpr (by omega)
  rcases h with ⟨hlt, rfl⟩ | ⟨hle, name, descriptor, rfl, hn, hd⟩
  · exact .inl ⟨by rw [hu]; exact decide_eq_false (by omega), rfl⟩
  · refine .inr ⟨by rw [hu]; exact decide_eq_true hle, _, rfl, ?_⟩
    have t1 := Pool.toNat_toUInt16 (show start ≤ 65535 by omega)
    have t2 := Pool.toNat_toUInt16 (show stop' - start ≤ 65535 by omega)
    refine ⟨by rw [t1, h1], ?_, rfl, rfl, hn, hd⟩
    rw [t1, t2, h2, Nat.add_sub_of_le hle]

/-- A local variable is read back from its entry. -/
theorem LocalRange.kept_read (hp : PlacesAt place f ss stop) (hg : ReadsAt plan g ss stop)
    {v : LocalRange} {e : LocalEntry × Bool} (h : v.Kept place q e)
    (hm : e.1.start.toNat ∈ plan ∧ e.1.start.toNat + e.1.length.toNat ∈ plan) :
    ∃ z, localRange q plan e = .ok z ∧ z.view g = v.view f := by
  obtain ⟨h1, h2, hi, hs, hn, hd⟩ := h
  obtain ⟨f1, -, b1⟩ := hp _ _ h1
  obtain ⟨f2, -, b2⟩ := hp _ _ h2
  refine ⟨⟨v.name, v.descriptor, plan.label e.1.start.toNat,
    plan.label (e.1.start.toNat + e.1.length.toNat), v.index, v.isSignature⟩, ?_, ?_⟩
  · simp only [localRange, hn, hd, hi, hs, bind, Except.bind]
    rfl
  · simp only [LocalRange.view, hg _ hm.1 b1, hg _ hm.2 b2, f1, f2]

end Ranges

end ClassGraft
