import ClassGraft.Proofs.TracedFrames

namespace ClassGraft

/-- What has been taken in is as wide as the frame that took it in. -/
def Intake.widths : Intake where
  Fit _ := True
  Takes f k := f.width = k.width
  trim_fit _ := trivial
  trim_takes _ := rfl
  merge_fit _ _ _ := trivial
  merge_takes _ _ hm := (Frame.width_merge hm).2
  merge_keeps _ _ _ hm hx := (Frame.width_merge hm).1.trans hx

namespace FlowState

open Body

variable {g : FlowGraph} {s : FlowState} {p w d k : Nat}

/-- In a state in which nothing is left to do, the entry has come to the first instruction with an
empty stack, and what flows from each frame that is kept has met frames of its width. -/
structure Even (g : FlowGraph) (s : FlowState) : Prop where
  enters : ∃ first known, g.body.instructionFrom? 0 = some first ∧ s.frame? first = some known ∧
    known.width = 0
  checks : ∀ head start, s.frame? head = some start →
    g.body.Checks g.thisClass g.Head head start
  sends : ∀ head start q f, s.frame? head = some start →
    g.body.Sends g.thisClass g.Head head start q f →
      ∃ known, s.frame? q = some known ∧ known.width = f.width
  handlers : ∀ t ∈ g.body.tryBlocks, ∃ h, g.body.handler t = .ok h

/-- Types of a width come to the position, or to the instruction that it leads to. -/
def Brings (g : FlowGraph) (s : FlowState) (p w : Nat) : Prop :=
  (∃ head start f, s.frame? head = some start ∧
    g.body.Passes g.thisClass g.Head head start p f ∧ f.width = w) ∨
  ∃ q known, g.body.instructionFrom? p = some q ∧ s.frame? q = some known ∧ known.width = w

/-- At an instruction the types that come there are those with which it is run. -/
theorem Even.runs (he : s.Even g) (h : s.Brings g p w) {n : Node} (hn : g.body.get? p = some n)
    (hr : n.isPseudo = false) : ∃ head start f, s.frame? head = some start ∧
      g.body.Passes g.thisClass g.Head head start p f ∧ g.body.Runs g.Head head p n ∧ f.width = w := by
  have met {known : Frame} (hk : s.frame? p = some known) (hw : known.width = w) :
      ∃ head start f, s.frame? head = some start ∧
        g.body.Passes g.thisClass g.Head head start p f ∧ g.body.Runs g.Head head p n ∧
          f.width = w :=
    ⟨p, known, known, hk, .start, ⟨hn, hr, .inl rfl⟩, hw⟩
  rcases h with ⟨head, start, f, hs, hp, hw⟩ | ⟨q, known, hq, hk, hw⟩
  · by_cases hwithin : p = head ∨ ¬ g.Head p
    · exact ⟨head, start, f, hs, hp, ⟨hn, hr, hwithin⟩, hw⟩
    · obtain ⟨hne, hhead⟩ := not_or.mp hwithin
      obtain ⟨known, hk, hkw⟩ := he.sends head start p f hs (.falls hp hn hr hne (not_not.mp hhead))
      exact met hk (hkw.trans hw)
  · rw [Body.instructionFrom?_real hn hr] at hq
    cases hq
    exact met hk hw

theorem Brings.pseudo (h : s.Brings g p w) {n : Node} (hn : g.body.get? p = some n)
    (hp : n.isPseudo = true) : s.Brings g (p + 1) w := by
  rcases h with ⟨head, start, f, hs, hpass, hw⟩ | ⟨q, known, hq, hk, hw⟩
  · exact .inl ⟨head, start, f, hs, hpass.pseudo hn hp, hw⟩
  · rw [Body.instructionFrom?_pseudo hn hp] at hq
    exact .inr ⟨q, known, hq, hk, hw⟩

/-- Every path brings types of the width that belongs to its depth and to the calls stepped over. -/
theorem Even.brings (he : s.Even g) (haff : g.body.Affords) (ht : g.body.Travels p d k) :
    s.Brings g p (d + k) := by
  have branched {p d k : Nat} {br : Branch Label} (ih : s.Brings g p (d + k))
      (hn : g.body.get? p = some (.branch br)) : ∃ head start f f',
      s.frame? head = some start ∧ g.body.Passes g.thisClass g.Head head start p f ∧
        g.body.Runs g.Head head p (.branch br) ∧ f.width = d + k ∧ f.branch br = .ok f' := by
    obtain ⟨head, start, f, hs, hp, hrun, hw⟩ := he.runs ih hn rfl
    obtain ⟨⟨f', hbr⟩, -⟩ := (he.checks head start hs).branches p f br hp hrun
    exact ⟨head, start, f, f', hs, hp, hrun, hw, hbr⟩
  induction ht with
  | start =>
    obtain ⟨first, known, hfirst, hk, hw⟩ := he.enters
    exact .inr ⟨first, known, hfirst, hk, hw⟩
  | @next p d k n ht hn hb ih =>
    cases n with
    | branch br => cases hb
    | label l => exact ih.pseudo hn rfl
    | line m => exact ih.pseudo hn rfl
    | frame f => exact ih.pseudo hn rfl
    | insn i =>
      obtain ⟨head, start, f, hs, hp, hrun, hw⟩ := he.runs ih hn rfl
      obtain ⟨f', hstep⟩ := (he.checks head start hs).steps p f i hp hrun
      exact .inl ⟨head, start, f', hs, hp.insn hrun hstep,
        Node.width_depthAfter hw (haff _ _ _ _ ht hn) (Frame.width_step hstep)⟩
  | @jump p d k q br l ht hn hl hq ih =>
    obtain ⟨head, start, f, f', hs, hp, hrun, hw, hbr⟩ := branched ih hn
    obtain ⟨r, hr⟩ := ((he.checks head start hs).branches p f br hp hrun).2 l hl
    obtain ⟨q', hq', hi⟩ := targetPosition_ok.mp hr
    cases Option.some.inj (hq.symm.trans hq')
    obtain ⟨known, hk, hkw⟩ := he.sends head start r f' hs (.jumps hp hrun hbr hl hr)
    have hwidth := Frame.width_branch (Branch.ne_athrow_of_target hl) hbr
    exact .inr ⟨r, known, hi, hk,
      hkw.trans (Node.width_depthAfter hw (haff _ _ _ _ ht hn) hwidth)⟩
  | @through p d k br ht hn hf hc ih =>
    obtain ⟨head, start, f, f', hs, hp, hrun, hw, hbr⟩ := branched ih hn
    have hwidth := Frame.width_branch (Branch.ne_athrow_of_falls hf) hbr
    exact .inl ⟨head, start, f', hs, hp.branch hrun hbr hf,
      Node.width_depthAfter hw (haff _ _ _ _ ht hn) hwidth⟩
  | @resume p d k br ht hn hc ih =>
    obtain ⟨head, start, f, f', hs, hp, hrun, hw, hbr⟩ := branched ih hn
    have hf := Branch.fallsThrough_call hc
    have hwidth := Frame.width_branch (Branch.ne_athrow_of_falls hf) hbr
    rw [Branch.slots_call hc] at hwidth
    dsimp only at hwidth
    exact .inl ⟨head, start, f', hs, hp.branch hrun hbr hf, by omega⟩
  | @handle p d k h t ht hmem hp hh ih =>
    obtain ⟨start, stop, n, hstart, hstop, hlo, hhi, hn, hr⟩ := hp
    obtain ⟨head, start', f, hs, hpass, hrun, hw⟩ := he.runs ih hn hr
    obtain ⟨x, hx⟩ := he.handlers t hmem
    obtain ⟨hhead, hxs, hxe, hcaught⟩ := handler_ok.mp hx
    cases Option.some.inj (hstart.symm.trans hxs)
    cases Option.some.inj (hstop.symm.trans hxe)
    obtain ⟨r, hr, hi⟩ := targetPosition_ok.mp hhead
    cases Option.some.inj (hh.symm.trans hr)
    obtain ⟨known, hk, hkw⟩ :=
      he.sends head start' x.head _ hs (.throws hpass hrun hmem hx hlo hhi)
    refine .inr ⟨x.head, known, hi, hk, hkw.trans ?_⟩
    rw [Frame.width, hcaught]
    rfl

end FlowState

namespace Body

variable {b b' : Body} {entry : Frame} {c : BinaryName}

namespace Inferred

variable {n first : Nat} {isPoint : Nat → Bool} {g : FlowGraph} {s : FlowState}
  {missing : List Arrival}

theorem even (h : b.Inferred b' entry n first isPoint g s missing)
    (hnone : ∀ p, b.declared? p = none) (hentry : entry.stack = []) : s.Even g := by
  have hproper : FlowState.Proper .widths g :=
    h.proper (fun _ _ _ => trivial)
      ⟨fun _ _ _ _ _ _ _ => trivial, fun _ _ _ _ _ => trivial, fun _ _ _ _ => trivial⟩
  have hs := h.settled hproper trivial
  have hentered := h.entered
  have hhandlers := h.handlers
  cases h.body
  have hdone {head : Nat} {start : Frame} (hk : s.frame? head = some start) :
      ∃ out, g.follow head head start [] = (out, none) ∧ ∀ a ∈ out, s.Holds .widths g.body a :=
    hs.done head start hk start (by rw [hnone, Option.none_or, hk])
  refine ⟨?_, fun head start hk => ?_, fun head start q f hk hsend => ?_,
    fun t ht => mapM_ok_each hhandlers t ht⟩
  · obtain ⟨known, hk, htakes⟩ := hs.entered
    have hwidth : known.width = entry.width := htakes (hnone first)
    exact ⟨first, known, hentered, hk, hwidth.trans (congrArg stackWidth hentry)⟩
  · obtain ⟨out, hout, -⟩ := hdone hk
    exact FlowGraph.follow_checks hout
  · obtain ⟨out, hout, hall⟩ := hdone hk
    obtain ⟨known, hknown, htakes⟩ := hall _ (FlowGraph.sends_followed hhandlers hsend hout)
    exact ⟨known, hknown, htakes (hnone q)⟩

/-- Every frame with which inference ends has come there on some path. -/
theorem traced (h : b.Inferred b' entry n first isPoint g s missing)
    (hnone : ∀ p, b.declared? p = none) (hentry : entry.stack = []) (haff : b.Affords) :
    ∀ p f, s.frame? p = some f → b.Traced p f := by
  refine h.kept ⟨fun p f hf => hf, fun p f k m hm hf _ => ?_, fun p f hd => ?_, fun p f hf a ha => ?_⟩
    ⟨0, 0, Travels.start.near (.instruction h.entered), congrArg stackWidth hentry⟩
  · obtain ⟨d, j, ht, hw⟩ := hf
    exact ⟨d, j, ht, (Frame.width_merge hm).1.trans hw⟩
  · rw [h.body, hnone] at hd
    cases hd
  · have hhandlers := h.handlers
    cases h.body
    rcases FlowGraph.followed_sends hhandlers .start a ha with ha | hsend
    · exact absurd ha List.not_mem_nil
    · exact hsend.traced haff hf

/-- Where inference puts a frame, paths lead, and all of them bring as many slots as the frame is wide,
if the calls that they have stepped over are counted. -/
theorem placed_width (h : b.Inferred b' entry n first isPoint g s missing)
    (hnone : ∀ p, b.declared? p = none) (hentry : entry.stack = []) (haff : b.Affords)
    {m : Arrival} (hm : m ∈ missing) :
    (∃ d k, b.Travels m.1 d k) ∧ ∀ d k, b.Travels m.1 d k → m.2.width = d + k := by
  have hk := (missingFrames_ok h.lacking).2 m hm
  obtain ⟨i, hi, hr⟩ := (h.mem_missing.mp (List.mem_map_of_mem hm)).1.instruction
  have hhead := h.head_iff.mpr (.inr (.inl (h.mem_missing.mp (List.mem_map_of_mem hm)).1))
  refine ⟨?_, fun d k ht => ?_⟩
  · obtain ⟨d, k, ht, -⟩ := h.traced hnone hentry haff m.1 m.2 hk
    exact ⟨d, k, ht⟩
  · have heven := h.even hnone hentry
    cases h.body
    obtain ⟨head, start, f, hs, hp, hrun, hw⟩ := heven.runs (heven.brings haff ht) hi hr
    have he : m.1 = head := hrun.within.resolve_right (not_not.mpr hhead)
    rw [← he, hk] at hs
    cases hs
    rw [← hw, hp.at_head he]

end Inferred

/-- The frame that inference puts before an instruction is as wide as the stack is deep there, but for
one slot for each subroutine call that was stepped over on the way. All ways agree on their number, and
without subroutine calls the two computations agree. -/
theorem inferFrames_widths {a : StackAnalysis} {parameters n : Nat}
    (hplain : ∀ f, Node.frame f ∉ b.nodes) (hentry : entry.stack = [])
    (ha : b.analyzeStack parameters = .ok a) (h : b.inferFrames entry c = .ok (n, b')) :
    ∀ q id i f, b'.entries[q]? = some (id, i) → i.isPseudo = false → b'.declared? q = some f →
      ∃ p d, b.entries[p]? = some (id, i) ∧ (id, d) ∈ b.depthsById a ∧ (∃ k, b.Travels p d k) ∧
        (∀ e k, b.Travels p e k → e = d ∧ f.width = d + k) ∧
        ((∀ br, Node.branch br ∈ b.nodes → br.isCall = false) → f.width = d) := by
  intro q id i f hq hr hd
  obtain ⟨b₁, hlabels, hparts⟩ := inferFrames_ok h
  obtain ⟨place₁, he, -, hdeclared⟩ := labelSites_embeds hlabels
  have he₁ := he.imp fun _ hn => hn.mark.pseudo
  have hnone (p : Nat) : b₁.declared? p = none := by
    cases hp : b₁.declared? p with
    | none => rfl
    | some f =>
      obtain ⟨r, m, -, hm, hmf, -⟩ := lastBefore?_mem hp
      cases m with
      | frame k =>
        cases hmf
        exact absurd (labelled_frames he (List.mem_of_getElem? ((nodes_get? b₁ r).trans hm))) (hplain f)
      | _ => cases hmf
  rcases hparts with ⟨-, -, rfl⟩ | ⟨first, isPoint, g, s, missing, rfl, hparts⟩
  · rw [hnone] at hd
    cases hd
  · obtain ⟨place₂, hf⟩ := hparts.inserted
    have he₂ := hf.embeds.imp fun _ hn => hn.pseudo
    obtain ⟨p₁, rfl, hp₁⟩ := he₂.real (fun _ hn => hn) (get?_of_entry hq) hr
    obtain ⟨p, rfl, hp⟩ := he₁.real (fun _ hn => hn) hp₁ hr
    have hentries : b.entries[p]? = some (id, i) := by rw [← he₁.kept, ← he₂.kept, hq]
    have hne : b.entries.isEmpty = false := by
      rw [Array.isEmpty_eq_false_iff]
      rintro hempty
      rw [hempty] at hentries
      cases hentries
    obtain ⟨hdescribes, hbalanced, hclosed⟩ := analyzeStack_ok hne ha
    have haff : b₁.Affords := .placed he₁ hclosed hbalanced
    obtain ⟨m, hm, hplace, rfl⟩ : ∃ m ∈ missing, m.1 = place₁ p ∧ m.2 = f := by
      by_cases hmem : place₁ p ∈ missing.map Prod.fst
      · obtain ⟨m, hm, hplace⟩ := List.mem_map.mp hmem
        rw [← hplace, hf.inserted m hm] at hd
        exact ⟨m, hm, hplace, Option.some.inj hd⟩
      · rw [hf.others _ hmem, hnone] at hd
        cases hd
    obtain ⟨⟨d, k, ht₁⟩, hwidth⟩ := hparts.placed_width hnone hentry haff hm
    rw [hplace] at ht₁ hwidth
    obtain ⟨r, ht, hnear⟩ := ht₁.back he₁ hclosed
    cases he₁.inj (hnear.real hp₁ hr)
    have hall (e j : Nat) (hej : b.Travels p e j) : e = d ∧ m.2.width = d + j := by
      obtain rfl : e = d := (hbalanced p d ht.reaches).2.1 e hej.reaches
      exact ⟨rfl, hwidth e j (hej.placed he₁)⟩
    refine ⟨p, d, hentries, ?_, ⟨k, ht⟩, hall, fun hcalls => ?_⟩
    · refine (hdescribes.depthsById id d).mpr ⟨p, ?_, ht.reaches⟩
      rw [idAt?, hentries]
      rfl
    · have := (hall d k ht).2
      rw [ht.no_calls hcalls] at this
      exact this

/-- A subroutine is called before a loop. -/
def calledLoop : Body := {
  Body.empty with
  entries := #[(⟨0⟩, .branch (.jsr ⟨0⟩)), (⟨1⟩, .label ⟨1⟩), (⟨2⟩, .branch (.goto ⟨1⟩)),
    (⟨3⟩, .label ⟨0⟩), (⟨4⟩, .insn (.store .ref 0)), (⟨5⟩, .branch (.ret 0))]
  nextId := 6
  nextLabel := 2 }

def framedLoop : Body := {
  calledLoop with
  entries := #[(⟨0⟩, .branch (.jsr ⟨0⟩)), (⟨1⟩, .label ⟨1⟩), (⟨7⟩, .frame ⟨[], [.top]⟩),
    (⟨2⟩, .branch (.goto ⟨1⟩)), (⟨3⟩, .label ⟨0⟩), (⟨6⟩, .frame ⟨[], [.top]⟩),
    (⟨4⟩, .insn (.store .ref 0)), (⟨5⟩, .branch (.ret 0))]
  nextId := 8
  version := 2 }

/-- The loop is entered with an empty stack, while its frame keeps the return address. -/
theorem calledLoop_widths :
    ∃ a, (∀ f, Node.frame f ∉ calledLoop.nodes) ∧ calledLoop.analyzeStack 1 = .ok a ∧
      calledLoop.inferFrames ⟨[], []⟩ BinaryName.object = .ok (2, framedLoop) ∧
      framedLoop.entries[3]? = some (⟨2⟩, .branch (.goto ⟨1⟩)) ∧
      framedLoop.declared? 3 = some ⟨[], [.top]⟩ ∧ (⟨2⟩, 0) ∈ calledLoop.depthsById a ∧
      ∃ p d, calledLoop.entries[p]? = some (⟨2⟩, .branch (.goto ⟨1⟩)) ∧
        (⟨2⟩, d) ∈ calledLoop.depthsById a ∧ (∃ k, calledLoop.Travels p d k) ∧
        (∀ e k, calledLoop.Travels p e k → e = d ∧ Frame.width ⟨[], [.top]⟩ = d + k) ∧
        ((∀ br, Node.branch br ∈ calledLoop.nodes → br.isCall = false) →
          Frame.width ⟨[], [.top]⟩ = d) := by
  have hplain : ∀ f, Node.frame f ∉ calledLoop.nodes := by
    intro f hf
    simp [calledLoop, nodes] at hf
  have ha : calledLoop.analyzeStack 1 =
      .ok ⟨#[some 0, some 0, some 0, some 1, some 1, some 0], 1, 1⟩ := by
    refine analyzeStack_drained
      (s := ⟨#[some 0, some 0, some 0, some 1, some 1, some 0], 1, 1, []⟩) rfl rfl ?_
    rw [drain_next (t := ⟨#[some 0, some 0, some 0, none, none, none], 1, 1, [(1, 0), (3, 1)]⟩) rfl
      (by cbv)]
    rw [drain_next (t := ⟨#[some 0, some 0, some 0, none, none, none], 1, 1, [(3, 1)]⟩) rfl (by cbv)]
    rw [drain_next (t := ⟨#[some 0, some 0, some 0, some 1, some 1, some 0], 1, 1, []⟩) rfl (by cbv)]
    exact drain_done rfl
  have hi : calledLoop.inferFrames ⟨[], []⟩ BinaryName.object = .ok (2, framedLoop) := by cbv
  have hd : framedLoop.declared? 3 = some ⟨[], [.top]⟩ := by cbv
  exact ⟨_, hplain, ha, hi, rfl, hd, mem_depthsById.mpr ⟨2, rfl, rfl⟩,
    inferFrames_widths hplain rfl ha hi 3 ⟨2⟩ (.branch (.goto ⟨1⟩)) ⟨[], [.top]⟩ rfl rfl hd⟩

end Body

end ClassGraft
