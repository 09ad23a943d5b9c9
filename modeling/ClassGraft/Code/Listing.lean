import ClassGraft.Code.Decoding
import ClassGraft.Postcondition

namespace ClassGraft

/-- A reader takes this many bytes from the front. -/
def Reader.OfWidth {α : Type} (n : Nat) (r : Reader α) : Prop :=
  ∀ s a t, r s = .ok (a, t) → t <:+ s ∧ t.length + n = s.length

namespace Reader

theorem u8_width : OfWidth 1 u8 := by
  intro s a t h
  cases s with
  | nil => cases h
  | cons b rest => cases Except.ok.inj h; exact ⟨List.suffix_cons _ _, rfl⟩

theorem u16_width : OfWidth 2 u16 := by
  intro s a t h
  match s, h with
  | x :: y :: rest, h => cases Except.ok.inj h; exact ⟨⟨[x, y], rfl⟩, rfl⟩

theorem u32_width : OfWidth 4 u32 := by
  intro s a t h
  match s, h with
  | x :: y :: z :: w :: rest, h => cases Except.ok.inj h; exact ⟨⟨[x, y, z, w], rfl⟩, rfl⟩

theorem raw_width (n : Nat) : OfWidth n (raw n) := by
  intro s bs t h
  unfold raw at h
  dsimp only at h
  split at h
  next hl =>
    cases Except.ok.inj h
    refine ⟨List.drop_suffix _ _, ?_⟩
    rw [List.length_take] at hl
    rw [List.length_drop]
    omega
  next => cases h

theorem OfWidth.map {α β : Type} {r : Reader α} {n : Nat} {f : α → β} (hr : OfWidth n r) :
    OfWidth n (do return f (← r)) := by
  intro s b t h
  simp only [Bind.bind, StateT.bind, Except.bind] at h
  split at h
  next => cases h
  next x hx => cases Except.ok.inj h; exact hr _ _ _ hx

end Reader

/-- A reader goes from cursor to cursor and fails in ways of a kind. -/
abbrev Moves {α : Type} (T : Cursor → Cursor → Prop) (E : ClassError → Prop) (m : CodeReader α) : Prop :=
  Meets (fun s _ t => T s t) E m

namespace CodeSite

variable {α β : Type} {E : ClassError → Prop} {Q : Cursor → α → Cursor → Prop}

theorem fail_meets {e : ClassError} (h : E e) : Meets Q E (fail e) :=
  fun _ => ⟨fun _ _ h => (nomatch h), .error h⟩

theorem look_meets {x : Except ClassError α} (hx : FailsOnly E x) (h : ∀ s a, x = .ok a → Q s a s) :
    Meets Q E (look x) := by
  intro s
  cases x with
  | error e => exact ⟨fun _ _ h => (nomatch h), .error (hx e rfl)⟩
  | ok a =>
    refine ⟨fun b t hb => ?_, .ok _⟩
    cases hb
    exact h s a rfl

theorem fetch_meets (c : CodeSite) {n : Nat} {r : Reader α}
    (hE : ∀ e, E (.malformedAttribute .code (.truncatedInstruction c.offset e)))
    (h : ∀ s a rest, r s.rest = .ok (a, rest) → Q s a ⟨s.offset + n, rest⟩) : Meets Q E (c.fetch n r) := by
  intro s
  cases hr : r s.rest with
  | error e =>
    rw [fetch, hr]
    exact ⟨fun _ _ h => (nomatch h), .error (hE e)⟩
  | ok x =>
    rw [fetch, hr]
    refine ⟨fun a t ht => ?_, .ok _⟩
    cases ht
    exact h s x.1 x.2 hr

/-- The instructions at a place go from cursor to cursor and fail in ways of a kind, if this holds of
whatever they read and look up. -/
structure Allows (c : CodeSite) (T : Cursor → Cursor → Prop) (E : ClassError → Prop) : Prop where
  stay : ∀ s, T s s
  trans : ∀ {s t u}, T s t → T t u → T s u
  fetch : ∀ {α : Type} {n : Nat} {r : Reader α}, r.OfWidth n → Moves T E (c.fetch n r)
  jump : ∀ relative, FailsOnly E (c.jump relative)
  classType : ∀ i, FailsOnly E (c.pool.classType i)
  plainClass : ∀ i, FailsOnly E (c.pool.plainClass i)
  literal : ∀ i, FailsOnly E (c.pool.literal i)
  fieldRef : ∀ i, FailsOnly E (c.pool.fieldRef i)
  methodRef : ∀ i, FailsOnly E (c.pool.methodRef i)
  callSite : ∀ i, FailsOnly E (c.pool.callSite i)
  invalidOpcode : ∀ o op, E (.invalidOpcode o op)
  switchBounds : ∀ low high, E (.malformedAttribute .code (.switchBounds c.offset low high))
  switchPairs : ∀ n, E (.malformedAttribute .code (.switchPairs c.offset n))
  unknownArrayType : ∀ n, E (.malformedAttribute .code (.unknownArrayType c.offset n))

namespace Allows

variable {c : CodeSite} {T : Cursor → Cursor → Prop} (hc : c.Allows T E)
include hc

theorem pure (a : α) : Moves T E (Pure.pure a : CodeReader α) := Meets.pure hc.stay

theorem bind {m : CodeReader α} {f : α → CodeReader β} (hm : Moves T E m) (hf : ∀ a, Moves T E (f a)) :
    Moves T E (m >>= f) :=
  Meets.bind hm hf fun _ _ _ _ _ => hc.trans

theorem map {m : CodeReader α} {f : α → β} (hm : Moves T E m) : Moves T E (do return f (← m)) :=
  hc.bind hm fun _ => hc.pure _

theorem look {x : Except ClassError α} (hx : FailsOnly E x) : Moves T E (CodeSite.look x) :=
  look_meets hx fun s _ _ => hc.stay s

theorem times {item : CodeReader α} (hi : Moves T E item) (n : Nat) : Moves T E (Reader.times n item) :=
  Meets.collect (Q := fun _ s _ t => T s t) hi (fun _ => hc.stay) (fun _ _ _ _ _ _ => hc.trans) n []

theorem u8 : Moves T E c.u8 := hc.fetch Reader.u8_width

theorem i8 : Moves T E c.i8 := hc.fetch Reader.u8_width.map

theorem u16 : Moves T E c.u16 := hc.fetch Reader.u16_width

theorem i16 : Moves T E c.i16 := hc.fetch Reader.u16_width.map

theorem i32 : Moves T E c.i32 := hc.fetch Reader.u32_width.map

theorem skip (n : Nat) : Moves T E (c.skip n) := hc.fetch (Reader.raw_width n)

theorem byteSlot : Moves T E c.byteSlot := hc.map hc.u8

theorem near : Moves T E c.near := hc.bind hc.i16 fun _ => hc.look (hc.jump _)

theorem far : Moves T E c.far := hc.bind hc.i32 fun _ => hc.look (hc.jump _)

theorem classAt : Moves T E c.classAt := hc.bind hc.u16 fun _ => hc.look (hc.classType _)

theorem tableSwitch : Moves T E c.tableSwitch :=
  hc.bind (hc.skip _) fun _ => hc.bind hc.far fun _ => hc.bind hc.i32 fun _ => hc.bind hc.i32 fun _ =>
    .ite (fun _ => fail_meets (hc.switchBounds _ _)) fun _ => hc.map (hc.times hc.far _)

theorem lookupSwitch : Moves T E c.lookupSwitch :=
  hc.bind (hc.skip _) fun _ => hc.bind hc.far fun _ => hc.bind hc.i32 fun _ =>
    .ite (fun _ => fail_meets (hc.switchPairs _)) fun _ =>
      hc.map (hc.times (hc.bind hc.i32 fun _ => hc.map hc.far) _)

theorem wide : Moves T E c.wide :=
  hc.bind hc.u8 fun _ => .ite (fun _ => hc.map hc.u16) fun _ => .ite (fun _ => hc.map hc.u16) fun _ =>
    .ite (fun _ => hc.bind hc.u16 fun _ => hc.map hc.i16) fun _ =>
    .ite (fun _ => hc.map hc.u16) fun _ => fail_meets (hc.invalidOpcode _ _)

theorem branch (op : UInt8) : Moves T E (c.branch op) :=
  .ite (fun _ => hc.map hc.near) fun _ => .ite (fun _ => hc.map hc.near) fun _ =>
    .ite (fun _ => hc.map hc.near) fun _ => .ite (fun _ => hc.map hc.near) fun _ =>
    .ite (fun _ => hc.map hc.near) fun _ => .ite (fun _ => hc.map hc.byteSlot) fun _ =>
    .ite (fun _ => hc.tableSwitch) fun _ => .ite (fun _ => hc.lookupSwitch) fun _ =>
    .ite (fun _ => hc.map hc.near) fun _ => .ite (fun _ => hc.map hc.near) fun _ =>
    .ite (fun _ => hc.map hc.far) fun _ => .ite (fun _ => hc.map hc.far) fun _ =>
    fail_meets (hc.invalidOpcode _ _)

theorem newArray : Moves T E c.newArray := hc.bind hc.u8 fun _ => by
  split
  · exact hc.pure _
  · exact fail_meets (hc.unknownArrayType _)

theorem invoke (k : InvokeKind) : Moves T E (c.invoke k) :=
  hc.bind hc.u16 fun _ => hc.bind (hc.look (hc.methodRef _)) fun _ =>
    .ite (fun _ => hc.bind (hc.skip 2) fun _ => hc.pure _) fun _ => hc.pure _

theorem instruction (op : UInt8) : Moves T E (c.instruction op) :=
  .ite (fun _ => hc.map hc.i8) fun _ => .ite (fun _ => hc.map hc.i16) fun _ =>
    .ite (fun _ => hc.bind hc.byteSlot fun _ => hc.map (hc.look (hc.literal _))) fun _ =>
    .ite (fun _ => hc.bind hc.u16 fun _ => hc.map (hc.look (hc.literal _))) fun _ =>
    .ite (fun _ => hc.map hc.byteSlot) fun _ => .ite (fun _ => hc.map hc.byteSlot) fun _ =>
    .ite (fun _ => hc.bind hc.byteSlot fun _ => hc.map hc.i8) fun _ =>
    .ite (fun _ => hc.bind hc.u16 fun _ => hc.map (hc.look (hc.fieldRef _))) fun _ =>
    .ite (fun _ => hc.invoke _) fun _ =>
    .ite (fun _ => hc.bind hc.u16 fun _ => hc.bind (hc.look (hc.callSite _)) fun _ =>
      hc.map (hc.skip 2)) fun _ =>
    .ite (fun _ => hc.bind hc.u16 fun _ => hc.map (hc.look (hc.plainClass _))) fun _ =>
    .ite (fun _ => hc.newArray) fun _ => .ite (fun _ => hc.map hc.classAt) fun _ =>
    .ite (fun _ => hc.map hc.classAt) fun _ => .ite (fun _ => hc.map hc.classAt) fun _ =>
    hc.bind hc.classAt fun _ => hc.map hc.u8

theorem item (op : UInt8) : Moves T E (c.item op) := by
  unfold CodeSite.item
  split
  · exact hc.pure _
  · exact hc.pure _
  · exact .ite (fun _ => hc.map (hc.branch op)) fun _ => .ite (fun _ => hc.wide) fun _ =>
      .ite (fun _ => fail_meets (hc.invalidOpcode _ _)) fun _ => hc.map (hc.instruction op)

end Allows

end CodeSite

/-- The offset of a cursor counts the bytes that it has taken from the front of another one. -/
def Cursor.Follows (s t : Cursor) : Prop :=
  t.rest <:+ s.rest ∧ t.offset + t.rest.length = s.offset + s.rest.length

namespace CodeSite

theorem follows (c : CodeSite) : c.Allows Cursor.Follows (fun _ => True) where
  stay s := ⟨List.suffix_refl _, rfl⟩
  trans hst htu := ⟨htu.1.trans hst.1, htu.2.trans hst.2⟩
  fetch hr := by
    refine c.fetch_meets (fun _ => trivial) fun s a rest h => ?_
    obtain ⟨hsuffix, hlength⟩ := hr _ _ _ h
    refine ⟨hsuffix, ?_⟩
    dsimp only
    omega
  jump _ _ _ := trivial
  classType _ _ _ := trivial
  plainClass _ _ _ := trivial
  literal _ _ _ := trivial
  fieldRef _ _ _ := trivial
  methodRef _ _ _ := trivial
  callSite _ _ _ := trivial
  invalidOpcode _ _ := trivial
  switchBounds _ _ := trivial
  switchPairs _ := trivial
  unknownArrayType _ := trivial

theorem item_follows (c : CodeSite) {op : UInt8} {s t : Cursor} {i : CodeItem}
    (h : c.item op s = .ok (i, t)) : s.Follows t := (c.follows.item op).result h

end CodeSite

/-- The instructions of a code array by offset. Those before the cursor are given, last first. -/
def listCode (p : Pool) (length : Nat) (s : Cursor) (seen : List (Nat × CodeItem)) :
    Except ClassError (List (Nat × CodeItem)) :=
  match hs : s.rest with
  | [] => .ok seen.reverse
  | op :: rest =>
    match h : (CodeSite.mk p length s.offset).item op ⟨s.offset + 1, rest⟩ with
    | .error e => .error e
    | .ok (item, t) =>
      have : t.rest.length < s.rest.length := by
        rw [hs]
        exact Nat.lt_succ_of_le (CodeSite.item_follows _ h).1.length_le
      listCode p length t ((s.offset, item) :: seen)
termination_by s.rest.length

/-- The code array of a method, instruction by instruction. -/
structure Listing where
  length : Nat
  items : List (Nat × CodeItem)
  /-- The instruction at each offset at which one starts. -/
  table : Array (Option CodeItem)

namespace Listing

def ofCode (p : Pool) (code : Bytes) : Except ClassError Listing := do
  let items ← listCode p code.length ⟨0, code⟩ []
  return ⟨code.length, items,
    items.foldl (fun t (o, i) => t.setIfInBounds o (some i)) (Array.replicate code.length none)⟩

def at? (l : Listing) (offset : Nat) : Option CodeItem := l.table[offset]?.getD none

def isStart (l : Listing) (offset : Nat) : Bool := (l.at? offset).isSome

/-- Does an instruction start or the code end at an offset? -/
def isBoundary (l : Listing) (offset : Nat) : Bool := offset == l.length || l.isStart offset

end Listing

end ClassGraft
