import ClassGraft.Proofs.BodyEdits
import ClassGraft.Proofs.FrameInference
import ClassGraft.Proofs.TypeOrigins

namespace ClassGraft

namespace Body

variable {b b' : Body} {p q : Nat} {n : Node} {l : Label} {u : NewSite} {place : Nat → Nat}
  {added : Node → Prop} {entry : Frame} {c : BinaryName}

theorem LabelsOnce.eq (h : b.LabelsOnce) {m : Node} (hp : b.get? p = some n)
    (hq : b.get? q = some m) (hn : n.label? = some l) (hm : m.label? = some l) : p = q := by
  have apart {i j : Nat} {x y : Node} (hlt : i < j) (hi : b.get? i = some x)
      (hj : b.get? j = some y) (hx : x.label? = some l) (hy : y.label? = some l) : False := by
    rw [← nodes_get?] at hi hj
    obtain ⟨hilt, rfl⟩ := List.getElem?_eq_some_iff.mp hi
    obtain ⟨hjlt, rfl⟩ := List.getElem?_eq_some_iff.mp hj
    unfold LabelsOnce placedLabels at h
    rw [List.Nodup, List.pairwise_filterMap] at h
    exact List.pairwise_iff_getElem.mp h i j hilt hjlt hlt l hx l hy rfl
  rcases Nat.lt_trichotomy p q with hlt | he | hgt
  · exact (apart hlt hp hq hn hm).elim
  · exact he
  · exact (apart hgt hq hp hm hn).elim

/-- The label before a `new` is tied to it. -/
theorem LabelsOnce.site_ties (h : b.LabelsOnce) {d : BinaryName} (hn : b.get? p = some (.insn (.new d)))
    (hl : b.site? p = some l) : b.Ties ⟨d, l⟩ := by
  obtain ⟨q, m, hlt, hm, hml, hskip⟩ := lastBefore?_mem hl
  have hpos : b.labelPosition? l = some q := by
    refine labelPosition?_eq_some.mpr ⟨⟨m, hm, hml⟩, fun j hj k hk hkl => ?_⟩
    have := h.eq hk hm hkl hml
    omega
  exact ⟨p, labelTarget_ok.mpr ⟨q, hpos, instructionFrom?_eq_some.mpr
    ⟨Nat.le_of_lt hlt, ⟨_, hn, rfl⟩, hskip⟩⟩, hn⟩

theorem LabelsOnce.insertUnrecorded {id : NodeId} (h : b.LabelsOnce) (hp : p ≤ b.size)
    (hi : b.insertUnrecorded p n = .ok (id, b')) : b'.LabelsOnce := by
  obtain ⟨rfl, hfresh⟩ := insertUnrecorded_ok hi
  have hins : b.Inserts (b.place p 0 [n]) p [n] := by
    refine ⟨by rwa [nodes_length], place_nodes b p [n], fun m hm l hl => ?_, ?_, rfl⟩
    · rw [List.mem_singleton.mp hm] at hl
      exact hfresh l hl
    · cases hl : n.label? with
      | none => simp [hl]
      | some l => simp [hl]
  exact hins.labelsOnce h

theorem LabelsOnce.labelSites (h : b.LabelsOnce) (hl : b.labelSites = .ok b') : b'.LabelsOnce := by
  unfold Body.labelSites at hl
  generalize (b.entries.toList.filter fun e => e.2.isNew).map Prod.fst = ids at hl
  induction ids generalizing b with
  | nil => cases hl; exact h
  | cons id ids ih =>
    rw [List.foldlM_cons] at hl
    obtain ⟨b₁, h₁, hl⟩ := except_bind_ok.mp hl
    refine ih ?_ hl
    obtain ⟨p, hp, h₁⟩ := except_bind_ok.mp h₁
    split at h₁
    next => cases h₁; exact h
    next =>
      obtain ⟨⟨_, b₂⟩, hi, h₁⟩ := except_bind_ok.mp h₁
      cases h₁
      have honce : b.newLabel.2.LabelsOnce := h
      exact honce.insertUnrecorded (Nat.le_of_lt (position_lt (position_ok.mp hp))) hi

section Embedded

variable (he : b.Embeds added b' place) (hadded : ∀ n, added n → n.isPseudo = true)
include he hadded

theorem Ties.moved (hu : b.Ties u) : b'.Ties u := by
  obtain ⟨p, hp, hn⟩ := hu
  obtain ⟨q, hq, -⟩ := labelTarget_ok.mp hp
  have hplaced : b.isPlaced u.label = true := by rw [isPlaced, hq]; rfl
  exact ⟨place p, by rw [he.labelTarget_place hadded hplaced, hp]; rfl,
    by rw [he.get?_place, hn]⟩

theorem Ties.back (hplaced : b.isPlaced u.label = true) (hu : b'.Ties u) : b.Ties u := by
  obtain ⟨r, hr, hn⟩ := hu
  rw [he.labelTarget_place hadded hplaced] at hr
  obtain ⟨q, hq, hqr⟩ := except_map_ok hr
  obtain ⟨p, rfl, rfl⟩ := Option.map_eq_some_iff.mp hqr
  exact ⟨p, hq, by rw [← he.get?_place, hn]⟩

end Embedded

theorem Embeds.mem_nodes (he : b.Embeds added b' place) (hn : n ∈ b.nodes) : n ∈ b'.nodes := by
  obtain ⟨p, hp⟩ := List.mem_iff_getElem?.mp hn
  rw [nodes_get?, ← he.get?_place, ← nodes_get?] at hp
  exact List.mem_of_getElem? hp

theorem Embeds.uses (he : b.Embeds added b' place) (hu : b.Uses u) : b'.Uses u := by
  obtain ⟨f, hf, hm⟩ := hu
  exact ⟨f, he.mem_nodes hf, hm⟩

theorem insertFrames_nodes {missing : List Arrival} (h : b.insertFrames missing = .ok b')
    (hn : n ∈ b'.nodes) : n ∈ b.nodes ∨ ∃ m ∈ missing, n = .frame m.2 := by
  induction missing generalizing b' with
  | nil => cases h; exact .inl hn
  | cons m ms ih =>
    obtain ⟨b₁, id, h₁, hi⟩ := insertFrames_cons h
    obtain ⟨rfl, -⟩ := insertUnrecorded_ok hi
    rw [place_nodes] at hn
    have hold : n ∈ b₁.nodes → n ∈ b.nodes ∨ ∃ m' ∈ m :: ms, n = .frame m'.2 := by
      intro hn
      rcases ih h₁ hn with hn | ⟨x, hx, rfl⟩
      · exact .inl hn
      · exact .inr ⟨x, List.mem_cons_of_mem _ hx, rfl⟩
    rcases List.mem_append.mp hn with hn | hn
    · rcases List.mem_append.mp hn with hn | hn
      · exact hold (List.mem_of_mem_take hn)
      · exact .inr ⟨m, List.mem_cons_self, List.mem_singleton.mp hn⟩
    · exact hold (List.mem_of_mem_drop hn)

theorem declared?_mem {f : Frame} (h : b.declared? p = some f) : Node.frame f ∈ b.nodes := by
  obtain ⟨q, m, -, hm, hmf, -⟩ := lastBefore?_mem h
  cases m with
  | frame k =>
    cases hmf
    exact List.mem_of_getElem? ((nodes_get? b q).trans hm)
  | _ => cases hmf

/-- What all of inference keeps of frames holds of those in the body that comes out, if it holds of the
entry and of those that were given. -/
theorem Inferred.frames_keep {count first : Nat} {isPoint : Nat → Bool} {g : FlowGraph}
    {s : FlowState} {missing : List Arrival} {K : Frame → Prop}
    (h : b.Inferred b' entry count first isPoint g s missing) (hk : FlowState.Keeps g fun _ => K)
    (hentry : K entry) (hb : ∀ f, Node.frame f ∈ b.nodes → K f) :
    ∀ f, Node.frame f ∈ b'.nodes → K f := by
  intro f hf
  rcases insertFrames_nodes h.inserts hf with hold | ⟨m, hm, he⟩
  · exact hb f hold
  · cases he
    exact h.kept hk hentry m.1 m.2 ((missingFrames_ok h.lacking).2 m hm)

theorem Inferred.keeps_sited {count first : Nat} {isPoint : Nat → Bool} {g : FlowGraph}
    {s : FlowState} {missing : List Arrival}
    (h : b.Inferred b' entry count first isPoint g s missing) (honce : b.LabelsOnce) (hb : b.Tied) :
    FlowState.Keeps g fun _ => Frame.Sited b.Ties := by
  refine FlowState.keeps_of_preserves ⟨fun p i f f' hn hstep hf => ?_,
    fun br f f' hbr hf => hf.branch hbr, fun x hx f hf => ?_⟩ (fun f hf => hf.trim)
    (fun f k m hm hf _ => hf.merge hm) fun p f hd => ?_
  · rw [h.body] at hn hstep
    refine hf.step (fun d l hi hl => ?_) hstep
    subst hi
    exact honce.site_ties hn hl
  · obtain ⟨t, -, ht⟩ := (mem_mapM_ok h.handlers x).mp hx
    refine ⟨hf.locals, fun t ht => ?_⟩
    rw [List.mem_singleton.mp ht, (handler_ok.mp ‹_›).2.2.2]
    trivial
  · rw [h.body] at hd
    exact tied_iff.mp hb f (declared?_mem hd)

/-- The frames that are added are tied where all others are. -/
theorem Inferred.tied {count first : Nat} {isPoint : Nat → Bool} {g : FlowGraph}
    {s : FlowState} {missing : List Arrival}
    (h : b.Inferred b' entry count first isPoint g s missing) (honce : b.LabelsOnce)
    (hentry : entry.Sited fun _ => False) (hb : b.Tied) : b'.Tied := by
  have hframes := h.frames_keep (h.keeps_sited honce hb) (hentry.mono fun _ hu => hu.elim)
    (tied_iff.mp hb)
  obtain ⟨place, hins⟩ := h.inserted
  exact tied_iff.mpr fun f hf => (hframes f hf).mono fun u hu => hu.moved hins.embeds
    fun _ hn => hn.pseudo

/-- What inference does to a body whose frames are all tied is tied. It ties no frame that was not,
unless that used a label from elsewhere. -/
theorem inferFrames_tied {count : Nat} (honce : b.LabelsOnce) (hentry : entry.Sited fun _ => False)
    (h : b.inferFrames entry c = .ok (count, b')) :
    (b.Tied → b'.Tied) ∧ (b.Owned → b'.Tied → b.Tied) := by
  obtain ⟨b₁, hlabels, hparts⟩ := inferFrames_ok h
  obtain ⟨place₁, he, -, -⟩ := labelSites_embeds hlabels
  have hlabel (n : Node) (hn : IsNewLabel b.nextLabel n) : n.isPseudo = true := hn.mark.pseudo
  have hb₁ (hb : b.Tied) : b₁.Tied := tied_iff.mpr fun f hf =>
    (tied_iff.mp hb f (labelled_frames he hf)).mono fun u hu => hu.moved he hlabel
  have hback : b.Owned → b₁.Tied → b.Tied := by
    intro howned hb u hu
    have hties := hb u (he.uses hu)
    obtain ⟨r, hr, -⟩ := hties
    obtain ⟨q, hq, -⟩ := labelTarget_ok.mp hr
    obtain ⟨⟨n, hn, hl⟩, -⟩ := labelPosition?_eq_some.mp hq
    refine Ties.back he hlabel ?_ (hb u (he.uses hu))
    rcases he.fresh q with ⟨p, rfl⟩ | ⟨id, m, hm, ⟨k, rfl, hk⟩, -⟩
    · rw [he.get?_place] at hn
      exact isPlaced_iff.mpr ⟨p, n, hn, hl⟩
    · cases Option.some.inj (hn.symm.trans (get?_of_entry hm))
      cases hl
      have := howned u hu
      omega
  rcases hparts with ⟨-, -, rfl⟩ | ⟨first, isPoint, g, s, missing, -, hparts⟩
  · exact ⟨hb₁, hback⟩
  · refine ⟨fun hb => hparts.tied (honce.labelSites hlabels) hentry (hb₁ hb), fun howned hb => ?_⟩
    obtain ⟨place₂, hins⟩ := hparts.inserted
    refine hback howned fun u hu => ?_
    have hties := hb u (hins.embeds.uses hu)
    refine Ties.back hins.embeds (fun _ hn => hn.pseudo) ?_ hties
    obtain ⟨r, hr, -⟩ := hties
    obtain ⟨q, hq, -⟩ := labelTarget_ok.mp hr
    obtain ⟨⟨n, hn, hl⟩, -⟩ := labelPosition?_eq_some.mp hq
    rcases insertFrames_nodes hparts.inserts (List.mem_of_getElem? ((nodes_get? b' q).trans hn)) with
      hold | ⟨m, -, rfl⟩
    · exact isPlaced_mem.mpr (List.mem_filterMap.mpr ⟨n, hold, hl⟩)
    · cases hl

end Body

end ClassGraft
