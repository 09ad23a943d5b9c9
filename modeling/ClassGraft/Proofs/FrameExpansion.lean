import ClassGraft.Proofs.FrameRoundTrip

namespace ClassGraft

/-- What a type stands for, by what is said of class indexes and of offsets. -/
def RawType.resolve (classes : UInt16 → Except ClassError RefType)
    (sites : UInt16 → Except ClassError NewSite) (t : RawType) : Except ClassError VerifyType :=
  t.mapM classes sites

/-- Can the tag of an entry say how many locals it drops or adds? -/
def StackMapFrame.Tagged : StackMapFrame → Prop
  | .chop _ count => 0 < count ∧ count < 4
  | .append _ locals => 0 < locals.length ∧ locals.length < 4
  | _ => True

namespace RawFrame

/-- Is every wide local followed by its unusable second half? -/
def Padded (f : RawFrame) : Prop :=
  ∀ i t, f.locals[i]? = some t → t.isWide = true → f.locals[i + 1]? = some .top

instance (f : RawFrame) : Decidable f.Padded :=
  decidable_of_iff (∀ i < f.locals.length, (f.locals[i]?.getD .top).isWide = true →
    f.locals[i + 1]? = some .top) <| by
    constructor
    · intro h i t ht hw
      exact h i (List.getElem?_eq_some_iff.mp ht).1 (by rwa [ht])
    · intro h i hi hw
      rw [List.getElem?_eq_getElem hi] at hw
      exact h i f.locals[i] (List.getElem?_eq_getElem hi) hw

/-- The frame with its types resolved one by one. -/
def resolve (f : RawFrame) (resolve : RawType → Except ClassError VerifyType) :
    Except ClassError Frame := do
  let locals ← f.locals.mapM resolve
  let stack ← f.stack.mapM resolve
  return ⟨locals, stack⟩

variable {f previous : RawFrame} {g g' : Frame} {classes : UInt16 → Except ClassError RefType}
  {sites : UInt16 → Except ClassError NewSite}

theorem resolve_ok {r : RawType → Except ClassError VerifyType} (h : f.resolve r = .ok g) :
    f.locals.mapM r = .ok g.locals ∧ f.stack.mapM r = .ok g.stack := by
  obtain ⟨locals, hl, h⟩ := except_bind_ok.mp h
  obtain ⟨stack, hs, h⟩ := except_bind_ok.mp h
  cases h
  exact ⟨hl, hs⟩

theorem resolve_isWide {t : RawType} {v : VerifyType} (h : t.resolve classes sites = .ok v) :
    v.isWide = t.isWide := by
  cases t with
  | object c =>
    obtain ⟨_, -, h⟩ := except_bind_ok.mp h
    cases h
    rfl
  | uninitialized u =>
    obtain ⟨_, -, h⟩ := except_bind_ok.mp h
    cases h
    rfl
  | _ => cases h; rfl

/-- Resolving keeps the second halves of wide locals. -/
theorem Padded.resolved (hf : f.Padded) (h : f.resolve (RawType.resolve classes sites) = .ok g) :
    g.Padded := by
  have hl := mapM_ok_iff.mp (resolve_ok h).1
  intro i v hv hw
  obtain ⟨t, ht, hr⟩ := forall₂_get? hl.flip hv
  have htop := hf i t ht ((resolve_isWide hr).symm.trans hw)
  obtain ⟨u, hu, hr⟩ := forall₂_get? hl htop
  cases hr
  exact hu

theorem resolved_packed (h : f.resolve (RawType.resolve classes sites) = .ok g) :
    f.packed.mapM (RawType.resolve classes sites) = .ok g.packed :=
  mapM_ok_iff.mpr (forall₂_packLocals (fun _ _ => resolve_isWide) (mapM_ok_iff.mp (resolve_ok h).1))

theorem entry_tagged (f : RawFrame) (d : UInt16) (previous : RawFrame) :
    (f.entry d previous).Tagged := by
  rcases entry_cases f d previous with ⟨-, -, he⟩ | ⟨_, -, -, he⟩ | ⟨n, -, -, hpos, hlt, -, he⟩ |
    ⟨ts, -, -, hpos, hlt, he⟩ | he
  · rw [he]
    trivial
  · rw [he]
    trivial
  · rw [he]
    obtain rfl | rfl | rfl : n = 1 ∨ n = 2 ∨ n = 3 := by omega
    · exact ⟨by decide, by decide⟩
    · exact ⟨by decide, by decide⟩
    · exact ⟨by decide, by decide⟩
  · rw [he]
    exact ⟨hpos, hlt⟩
  · rw [he]
    trivial

/-- Expanding the entry for a frame behind the one before gives the frame. -/
theorem next_resolved (hp : previous.Padded) (hf : f.Padded) (d : UInt16)
    (hg : previous.resolve (RawType.resolve classes sites) = .ok g)
    (hg' : f.resolve (RawType.resolve classes sites) = .ok g') :
    g.next (f.entry d previous) (RawType.resolve classes sites) = .ok g' := by
  obtain ⟨hlocals, hstack⟩ := resolve_ok hg'
  obtain ⟨x, hx, hreads⟩ := Frame.next_entry (d := d) (f := f) (fun _ _ h => h)
    (mapM_ok_iff.mp (resolved_packed hg)) (mapM_ok_each hlocals) (mapM_ok_each hstack)
  have hpacked : x.packed = g'.packed :=
    Except.ok.inj ((mapM_ok_iff.mpr hreads.packed).symm.trans (resolved_packed hg'))
  have hstacks : x.stack = g'.stack :=
    Except.ok.inj ((mapM_ok_iff.mpr hreads.stack).symm.trans hstack)
  have hxpad := (hp.resolved hg).next hx
  have hlocals : x.locals = g'.locals := calc
    x.locals = spreadLocals x.packed := hxpad.spreadLocals_packLocals.symm
    _ = spreadLocals g'.packed := by rw [hpacked]
    _ = g'.locals := (hf.resolved hg').spreadLocals_packLocals
  rw [hx, show x = ⟨x.locals, x.stack⟩ from rfl, hlocals, hstacks]

/-- What is written for a frame is undone by reading it: the entry has the distance that it was made
with, its tag can say what it drops or adds, and behind the frame before it is expanded to the frame,
whatever classes and offsets stand for. -/
theorem entry_expands (hp : previous.Padded) (hf : f.Padded) (d : UInt16) :
    (f.entry d previous).delta = d ∧ (f.entry d previous).Tagged ∧
      ∀ classes sites g g', previous.resolve (RawType.resolve classes sites) = .ok g →
        f.resolve (RawType.resolve classes sites) = .ok g' →
        g.next (f.entry d previous) (RawType.resolve classes sites) = .ok g' :=
  ⟨entry_delta f d previous, entry_tagged f d previous,
    fun _ _ _ _ hg hg' => next_resolved hp hf d hg hg'⟩

namespace Appended

def before : RawFrame := ⟨[.integer, .long, .top], [.object 5]⟩

def behind : RawFrame :=
  ⟨[.integer, .long, .top, .object 2, .uninitialized 3, .double, .top], []⟩

def classOf : UInt16 → Except ClassError RefType
  | 2 => .ok (.object BinaryName.string)
  | 5 => .ok (.object BinaryName.object)
  | i => .error (.invalidIndex i)

def siteOf (o : UInt16) : Except ClassError NewSite := .ok ⟨BinaryName.object, ⟨o.toNat⟩⟩

def read : Frame := ⟨[.integer, .long, .top], [VerifyType.ofClass .object]⟩

def expanded : Frame := ⟨[.integer, .long, .top, VerifyType.ofClass .string,
  .uninitialized ⟨BinaryName.object, ⟨3⟩⟩, .double, .top], []⟩

theorem expanded_again : before.Padded ∧ behind.Padded ∧
    behind.entry 7 before = .append 7 [.object 2, .uninitialized 3, .double] ∧
    (behind.entry 7 before).delta = 7 ∧ (behind.entry 7 before).Tagged ∧
    before.resolve (RawType.resolve classOf siteOf) = .ok read ∧
    behind.resolve (RawType.resolve classOf siteOf) = .ok expanded ∧
    read.next (behind.entry 7 before) (RawType.resolve classOf siteOf) = .ok expanded := by
  have hp : before.Padded := by decide
  have hf : behind.Padded := by decide
  have hg : before.resolve (RawType.resolve classOf siteOf) = .ok read := rfl
  have hg' : behind.resolve (RawType.resolve classOf siteOf) = .ok expanded := rfl
  obtain ⟨hdelta, htagged, hnext⟩ := entry_expands hp hf 7
  exact ⟨hp, hf, by decide, hdelta, htagged, hg, hg', hnext classOf siteOf read expanded hg hg'⟩

end Appended

end RawFrame

end ClassGraft
