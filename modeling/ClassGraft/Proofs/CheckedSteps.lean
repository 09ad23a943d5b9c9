import ClassGraft.Code.CheckedAssembly
import ClassGraft.Proofs.CodeRooms
import ClassGraft.Proofs.FrameExpansion

namespace ClassGraft

/-- From a pool a checked run goes as a plain one does, and stops for no other reason. -/
def Shadows {α : Type} (p : Pool) (x : HaltingM α) (m : PoolM α) : Prop :=
  x p = ((m p).1.mapError .error, (m p).2)

/-- A check leaves the pool as it is. -/
theorem lift_run_ok {α : Type} {p q : Pool} {y : Halting α} {a : α} :
    (liftM y : HaltingM α) p = (.ok a, q) ↔ y = .ok a ∧ p = q := by
  cases y with
  | error h => exact iff_of_false nofun nofun
  | ok b =>
    constructor
    · rintro ⟨⟩
      exact ⟨rfl, rfl⟩
    · rintro ⟨⟨⟩, rfl⟩
      rfl

namespace Shadows

variable {α β γ : Type} {p : Pool} {x : HaltingM α} {m : PoolM α}

theorem ok_iff (h : Shadows p x m) {a : α} {q : Pool} : x p = (.ok a, q) ↔ m p = (.ok a, q) := by
  rw [h]
  rcases m p with ⟨_ | b, r⟩
  · exact iff_of_false nofun nofun
  · constructor <;> rintro ⟨⟩ <;> rfl

theorem error_iff (h : Shadows p x m) {halt : Halt ClassError} {q : Pool} :
    x p = (.error halt, q) ↔ ∃ e, m p = (.error e, q) ∧ halt = .error e := by
  rw [h]
  rcases m p with ⟨e | b, r⟩
  · constructor
    · rintro ⟨⟩
      exact ⟨e, rfl, rfl⟩
    · rintro ⟨_, ⟨⟩, rfl⟩
      rfl
  · exact iff_of_false nofun fun ⟨_, h, _⟩ => nomatch h

theorem lift (m : PoolM α) : Shadows p (liftM m) m := rfl

theorem pure (a : α) : Shadows p (Pure.pure a) (Pure.pure a) := rfl

theorem throw (e : ClassError) :
    Shadows p (MonadExcept.throw (.error e) : HaltingM α) (MonadExcept.throw e) := rfl

/-- The checked run has more in hand than the plain one has given. -/
theorem bindMap {g : α → γ} {y : HaltingM γ} {f : γ → HaltingM β} {n : α → PoolM β}
    (hx : Shadows p y (do return g (← m)))
    (hf : ∀ a q, m p = (.ok a, q) → Shadows q (f (g a)) (n a)) : Shadows p (y >>= f) (m >>= n) := by
  simp only [Shadows, run_bind] at hx hf ⊢
  rcases hm : m p with ⟨e | a, q⟩ <;> rw [hm] at hx <;> rw [hx]
  · rfl
  · exact hf a q hm

theorem bind {f : α → HaltingM β} {n : α → PoolM β} (hx : Shadows p x m)
    (hf : ∀ a q, m p = (.ok a, q) → Shadows q (f a) (n a)) : Shadows p (x >>= f) (m >>= n) := by
  simp only [Shadows, run_bind] at hx hf ⊢
  rw [hx]
  rcases hm : m p with ⟨e | a, q⟩
  · rfl
  · exact hf a q hm

theorem check {y : Halting α} {a : α} (hy : y = .ok a) : Shadows p (liftM y) (Pure.pure a) := by
  rw [hy]
  rfl

/-- A check that passes. -/
theorem step {y : Halting β} {b : β} {f : β → HaltingM α} (hy : y = .ok b) (h : Shadows p (f b) m) :
    Shadows p (liftM y >>= f) m := by
  rw [hy]
  exact h

theorem look {y : Halting β} {z : Except ClassError β} {f : β → HaltingM α} {n : β → PoolM α}
    (hy : y = z.mapError .error) (hf : ∀ b, z = .ok b → Shadows p (f b) (n b)) :
    Shadows p (liftM y >>= f) (liftM z >>= n) := by
  rw [hy]
  cases z with
  | error e => rfl
  | ok b => exact hf b rfl

theorem mapM {f : β → HaltingM α} {n : β → PoolM α} {xs : List β}
    (h : ∀ b ∈ xs, ∀ q, Shadows q (f b) (n b)) : Shadows p (xs.mapM f) (xs.mapM n) := by
  induction xs generalizing p with
  | nil => exact .pure []
  | cons b xs ih =>
    obtain ⟨hb, hxs⟩ := List.forall_mem_cons.mp h
    rw [List.mapM_cons, List.mapM_cons]
    exact (hb p).bind fun a q _ => (ih hxs).bind fun as _ _ => .pure (a :: as)

end Shadows

namespace Halting

theorem size_ok {n : Nat} (h : n < 2 ^ 64) : size n = .ok n := if_pos (by omega)

theorem size_eq {m n : Nat} (h : size m = .ok n) : n = m := by
  unfold size at h
  split at h
  next => exact (Except.ok.inj h).symm
  next => cases h

theorem less_eq {k m n : Nat} (h : less m k = .ok n) : n = m - k := by
  unfold less at h
  split at h
  next => exact (Except.ok.inj h).symm
  next => cases h

theorem less_ok {m n : Nat} (h : n ≤ m) : less m n = .ok (m - n) := if_pos h

theorem word_ok {n : Int} (h : -2 ^ 31 ≤ n ∧ n < 2 ^ 31) : word n = .ok (Int32.ofInt n) :=
  if_pos (by omega)

theorem addBytes_ok {m n : UInt8} (h : m.toNat + n.toNat < 256) : addBytes m n = .ok (m + n) := if_pos h

theorem lessBytes_ok {m n : UInt8} (h : n ≤ m) : lessBytes m n = .ok (m - n) := if_pos h

theorem toUInt16_ok {n : Nat} (h : n ≤ 65535) : toUInt16 n = .ok n.toUInt16 := if_pos h

theorem toInt32_ok {n : Nat} (h : n < 2 ^ 31) : toInt32 n = .ok (Int32.ofNat n) :=
  if_pos (by omega)

theorem expect_ok {p : Prop} [Decidable p] (h : p) : expect p = .ok () := if_pos h

end Halting

open Halting

/-- The opcodes for the first four slots follow one another. -/
theorem slotFormChecked_ok {short normal : UInt8} (h : short ≤ 0x4B) (slot : UInt16) :
    slotFormChecked short normal slot = .ok (slotForm short normal slot) := by
  unfold slotFormChecked slotForm
  split
  next hslot =>
    have hshort : short.toNat ≤ 0x4B := UInt8.le_iff_toNat_le.mp h
    have hlt : slot.toNat < 4 := UInt16.lt_iff_toNat_lt.mp hslot
    rw [addBytes_ok (by rw [UInt16.toNat_toUInt8]; omega)]
    rfl
  next => rfl

theorem Instruction.encodeChecked_shadows (i : Instruction) (p : Pool) :
    Shadows p i.encodeChecked i.encode := by
  cases i with
  | load k slot | store k slot => exact .check (slotFormChecked_ok (by cases k <;> decide) slot)
  | _ => exact .lift _

theorem switchPaddingChecked_ok {offset : Nat} (h : offset + 1 < 2 ^ 64) :
    switchPaddingChecked offset = .ok (switchPadding offset) := by
  simp (disch := omega) only [switchPaddingChecked, size_ok, less_ok, except_ok_bind]
  rfl

namespace Branch

theorem sizeChecked_ok {L : Type} {b : Branch L} {offset : Nat} (h : offset + b.size offset < 2 ^ 64) :
    b.sizeChecked offset = .ok (b.size offset) := by
  cases b with
  | tableSwitch | lookupSwitch =>
    simp only [size] at h
    simp (disch := omega) only [sizeChecked, switchPaddingChecked_ok, size_ok, except_ok_bind, size]
  | _ => rfl

/-- A size that is computed without a stop is the size. -/
theorem sizeChecked_eq {L : Type} {b : Branch L} {offset n : Nat} (h : b.sizeChecked offset = .ok n) :
    n = b.size offset := by
  have hpadding {k : Nat} (hk : switchPaddingChecked offset = .ok k) : k = switchPadding offset := by
    obtain ⟨next, hnext, hk⟩ := except_bind_ok.mp hk
    obtain ⟨rest, hrest, hk⟩ := except_bind_ok.mp hk
    cases size_eq hnext
    cases less_eq hrest
    cases hk
    rfl
  cases b with
  | tableSwitch | lookupSwitch =>
    obtain ⟨k, hk, h⟩ := except_bind_ok.mp h
    obtain ⟨head, hhead, h⟩ := except_bind_ok.mp h
    obtain ⟨words, hwords, h⟩ := except_bind_ok.mp h
    obtain ⟨bytes, hbytes, h⟩ := except_bind_ok.mp h
    cases hpadding hk
    cases size_eq hhead
    cases size_eq hwords
    cases size_eq hbytes
    cases size_eq h
    rfl
  | _ => cases h; rfl

/-- What is written where some parts of a branch fail otherwise. -/
theorem encodeWith_mapError {ε δ : Type} {e : ε → δ} {padding : Except ε Nat}
    {near far : Label → Except ε Bytes} {last : Int32 → Nat → Except ε Int32}
    {count : Nat → Except ε Int32} {padding' : Except δ Nat} {near' far' : Label → Except δ Bytes}
    {last' : Int32 → Nat → Except δ Int32} {count' : Nat → Except δ Int32} (b : Branch Label)
    (hpadding : padding' = padding.mapError e) (hnear : ∀ l, near' l = (near l).mapError e)
    (hfar : ∀ l, far' l = (far l).mapError e)
    (hlast : ∀ default low targets, b = .tableSwitch default low targets →
      last' low targets.length = (last low targets.length).mapError e)
    (hcount : ∀ default cases, b = .lookupSwitch default cases →
      count' cases.length = (count cases.length).mapError e) :
    b.encodeWith padding' near' far' last' count' =
      (b.encodeWith padding near far last count).mapError e := by
  have hnear' : near' = fun l => (near l).mapError e := funext hnear
  have hfar' : far' = fun l => (far l).mapError e := funext hfar
  subst hpadding hnear' hfar'
  cases b with
  | tableSwitch default low targets =>
    simp only [encodeWith, except_mapError_bind, except_mapError_mapM, hlast default low targets rfl]
    rfl
  | lookupSwitch default cases =>
    simp only [encodeWith, except_mapError_bind, except_mapError_mapM, hcount default cases rfl]
    rfl
  | leave k => cases k <;> rfl
  | _ =>
    simp only [encodeWith, except_mapError_bind]
    rfl

end Branch

/-- No label is placed beyond the greatest length of a code array. -/
def Layout.Near (place : Label → Except ClassError Nat) : Prop := ∀ l n, place l = .ok n → n ≤ 65535

open Layout

namespace Branch

variable {place : Label → Except ClassError Nat} {offset : Nat}

theorem distance_eq (hplace : Near place) (ho : offset ≤ 65535) (l : Label) :
    distance offset (fun l => liftM (place l)) l =
      (do return Int32.ofInt ((← place l) - offset) : Except ClassError Int32).mapError .error := by
  unfold distance
  dsimp only
  cases hl : place l with
  | error e => rfl
  | ok n =>
    have hn := hplace l n hl
    change (do
      let target ← toInt32 n
      word (target.toInt - (← toInt32 offset).toInt)) = _
    rw [toInt32_ok (by omega), toInt32_ok (by omega), except_ok_bind, except_ok_bind,
      Int32.toInt_ofNat_of_lt (by omega), Int32.toInt_ofNat_of_lt (by omega), word_ok (by omega)]
    rfl

theorem farJumpChecked_eq (hplace : Near place) (ho : offset ≤ 65535) (l : Label) :
    farJumpChecked offset (fun l => liftM (place l)) l = (farJump offset place l).mapError .error := by
  rw [farJumpChecked, distance_eq hplace ho, farJump]
  cases place l <;> rfl

theorem nearJumpChecked_eq (hplace : Near place) (ho : offset ≤ 65535) (l : Label) :
    nearJumpChecked offset (fun l => liftM (place l)) l = (nearJump offset place l).mapError .error := by
  rw [nearJumpChecked, distance_eq hplace ho, nearJump]
  cases hl : place l with
  | error e => rfl
  | ok n =>
    have hn := hplace l n hl
    change (let relative := (Int32.ofInt (n - offset)).toInt
      if -32768 ≤ relative ∧ relative ≤ 32767 then
        (.ok (Write.i16 (Int16.ofInt relative)) : Halting Bytes)
      else .error (.error (.jumpTooFar l relative))) = _
    rw [Int32.toInt_ofInt_of_le (by omega) (by omega)]
    simp only [except_ok_bind]
    split <;> rfl

/-- The last key of a table is the greatest word. -/
def EndsTop {L : Type} : Branch L → Prop
  | .tableSwitch _ low targets => low.toInt + targets.length = 2 ^ 31
  | _ => False

/-- The last key of a table, or the sum from which it is computed, is no word. -/
def Overruns {L : Type} : Branch L → Prop
  | .tableSwitch _ low targets => ¬(-2 ^ 31 < low.toInt + targets.length ∧ low.toInt + targets.length < 2 ^ 31)
  | _ => False

/-- Of the tables with bounds only those that end with the greatest word overrun. -/
theorem overruns_iff {L : Type} {b : Branch L} (hb : b.Bounded) : b.Overruns ↔ b.EndsTop := by
  cases b with
  | tableSwitch default low targets =>
    obtain ⟨hne, hlast⟩ := hb
    have hpos : 0 < targets.length := List.length_pos_of_ne_nil hne
    have hlow := low.le_toInt
    simp only [Overruns, EndsTop]
    omega
  | _ => exact Iff.rfl

/-- The sum from which a last key is computed is one more than the key. -/
theorem lastKey_eq {low : Int32} {count : Nat} (hcount : count < 2 ^ 31) : lastKey low count =
    if -2 ^ 31 < low.toInt + count ∧ low.toInt + count < 2 ^ 31 then
      .ok (Int32.ofInt (low.toInt + count - 1))
    else .error .overflow := by
  have hlow := low.le_toInt
  rw [lastKey, toInt32_ok hcount, except_ok_bind, Int32.toInt_ofNat_of_lt hcount]
  split
  next h =>
    rw [word_ok (by omega), except_ok_bind, Int32.toInt_ofInt_of_le (by omega) h.2, word_ok (by omega)]
  next h =>
    by_cases hsum : low.toInt + count < 2 ^ 31
    · rw [word_ok (by omega), except_ok_bind, Int32.toInt_ofInt_of_le (by omega) hsum, word,
        if_neg (by omega)]
    · rw [word, if_neg (by omega)]
      rfl

theorem encodeChecked_eq {b : Branch Label} (hplace : Near place) (ho : offset ≤ 65535)
    (hsize : b.size offset ≤ 65535) (hfits : ¬b.Overruns) :
    b.encodeChecked offset (fun l => liftM (place l)) = (b.encode offset place).mapError .error := by
  refine b.encodeWith_mapError (switchPaddingChecked_ok (by omega)) (nearJumpChecked_eq hplace ho)
    (farJumpChecked_eq hplace ho) ?_ ?_
  · rintro default low targets rfl
    simp only [size] at hsize
    exact (lastKey_eq (by omega)).trans (if_pos (Classical.not_not.mp hfits))
  · rintro default cases rfl
    simp only [size] at hsize
    exact toInt32_ok (by omega)

theorem encodeChecked_overruns {default : Label} {low : Int32} {targets : List Label}
    (hplace : Near place) (ho : offset ≤ 65535)
    (hsize : (tableSwitch default low targets).size offset ≤ 65535)
    (hover : (tableSwitch default low targets).Overruns) :
    (tableSwitch default low targets).encodeChecked offset (fun l => liftM (place l)) =
      (do let _ ← (place default).mapError .error; throw .overflow) := by
  simp only [size] at hsize
  have hpadding := switchPaddingChecked_ok (show offset + 1 < 2 ^ 64 by omega)
  have hlast : lastKey low targets.length = .error .overflow :=
    (lastKey_eq (by omega)).trans (if_neg hover)
  simp only [encodeChecked, encodeWith, farJumpChecked_eq hplace ho, hpadding, except_ok_bind, hlast]
  cases hd : place default <;> simp only [farJump, hd] <;> rfl

end Branch

section Tables

variable {place : Label → Except ClassError Nat} {p : Pool}

theorem TryBlock.encodeChecked_shadows (hplace : Near place) (t : TryBlock) :
    Shadows p (t.encodeChecked fun l => liftM (place l)) (t.encode place) := by
  refine .look rfl fun start hstart => .look rfl fun stop hstop => .look rfl fun handler hhandler => ?_
  have hcuts (caught : PoolIndex) (q : Pool) : Shadows q
      (do
        let first ← Halting.toUInt16 start
        let last ← Halting.toUInt16 stop
        let entry ← Halting.toUInt16 handler
        return some (⟨first, last, entry, caught⟩ : ExceptionEntry))
      (pure (some ⟨start.toUInt16, stop.toUInt16, handler.toUInt16, caught⟩)) :=
    .step (toUInt16_ok (hplace _ _ hstart)) <| .step (toUInt16_ok (hplace _ _ hstop)) <|
      .step (toUInt16_ok (hplace _ _ hhandler)) (.pure _)
  dsimp only
  split
  next => exact .pure none
  next =>
    cases t.caught with
    | none => exact hcuts 0 p
    | some c => exact (Shadows.lift _).bind fun caught q _ => hcuts caught q

theorem LocalRange.encodeChecked_shadows (hplace : Near place) (v : LocalRange) :
    Shadows p (v.encodeChecked fun l => liftM (place l)) (v.encode place) := by
  refine .look rfl fun start hstart => .look rfl fun stop hstop => ?_
  split
  next => exact .pure none
  next hle =>
    have hfits : stop - start ≤ 65535 := Nat.le_trans (Nat.sub_le _ _) (hplace _ _ hstop)
    exact .step (toUInt16_ok (hplace _ _ hstart)) <| .step (less_ok (Nat.le_of_not_lt hle)) <|
      .step (toUInt16_ok hfits) <| (Shadows.lift _).bind fun name _ _ =>
      (Shadows.lift _).bind fun descriptor _ _ => .pure _

theorem Frame.toRawChecked_shadows (hplace : Near place) (f : Frame) :
    Shadows p (f.toRawChecked fun l => liftM (place l)) (f.toRaw place) := by
  have hraw (t : VerifyType) (q : Pool) : Shadows q
      (t.mapM (fun c => (Pool.internClass c : HaltingM UInt16)) fun site => do
        Halting.toUInt16 (← (liftM (place site.label) : Halting Nat)))
      (t.mapM Pool.internClass fun site => do return (← place site.label).toUInt16) := by
    cases t with
    | object c => exact (Shadows.lift _).bind fun i _ _ => .pure _
    | uninitialized site =>
      refine Shadows.bind (.look rfl fun o ho => ?_) fun u _ _ => .pure _
      exact .check (toUInt16_ok (hplace _ _ ho))
    | _ => exact .pure _
  exact (Shadows.mapM fun t _ q => hraw t q).bind fun locals _ _ =>
    (Shadows.mapM fun t _ q => hraw t q).bind fun stack _ _ => .pure _

theorem RawFrame.entryChecked_ok (f : RawFrame) (delta : UInt16) (previous : RawFrame) :
    f.entryChecked delta previous = .ok (f.entry delta previous) := by
  unfold entryChecked entry
  rcases f.stack with _ | ⟨item, _ | ⟨_, _⟩⟩
  · dsimp only
    generalize f.packed = new
    generalize previous.packed = old
    by_cases hle : new.length ≤ old.length
    · have hwhole (h : new = old.take new.length) (hl : old.length - new.length = 0) : new = old := by
        rwa [List.take_of_length_le (Nat.le_of_sub_eq_zero hl)] at h
      have hover (h : old = new.take old.length) : new = old := by
        rw [List.take_of_length_le hle] at h
        exact h.symm
      rw [if_pos hle, less_ok hle, except_ok_bind]
      split_ifs <;> first | rfl | (exfalso; grind)
    · have hne : new ≠ old := fun h => hle (h ▸ Nat.le_refl _)
      have hshort (h : new = old.take new.length) : False := by
        have hlength := congrArg List.length h
        rw [List.length_take] at hlength
        omega
      rw [if_neg hle, less_ok (Nat.le_of_not_le hle), except_ok_bind]
      split_ifs <;> first | rfl | (exfalso; grind)
  · dsimp only
    split <;> rfl
  · rfl

/-- Each frame is written as the difference from the one before it, whose offset is less. -/
theorem framesChecked_shadows (hplace : Near place) {before : RawFrame} {previous : Option Nat}
    {fs : List (Nat × Frame)} (hfs : ∀ e ∈ fs, (∀ o, previous = some o → o ≤ e.1) ∧ e.1 ≤ 65535)
    (hascend : fs.Pairwise fun e f => e.1 ≤ f.1) :
    Shadows p (framesChecked (fun l => liftM (place l)) before previous fs)
      (encodeFrames place (previous.elim 0 (· + 1)) before fs) := by
  induction fs generalizing before previous p with
  | nil => exact .pure []
  | cons e fs ih =>
    obtain ⟨o, f⟩ := e
    obtain ⟨⟨hprevious, ho⟩, hfs'⟩ := List.forall_mem_cons.mp hfs
    obtain ⟨hfirst, hascend⟩ := List.pairwise_cons.mp hascend
    refine (f.toRawChecked_shadows hplace).bind fun raw q _ => ?_
    have hnext : ∀ e ∈ fs, (∀ o', some o = some o' → o' ≤ e.1) ∧ e.1 ≤ 65535 := fun e he =>
      ⟨fun o' ho' => Option.some.inj ho' ▸ hfirst e he, (hfs' e he).2⟩
    by_cases hsame : previous = some o
    · have hlt : o < previous.elim 0 (· + 1) := by simp [hsame]
      dsimp only
      rw [if_pos hsame, if_pos hlt]
      split
      next => exact ih hfs' hascend
      next => exact .throw _
    · have hlt : ¬o < previous.elim 0 (· + 1) := by
        cases previous with
        | none => exact Nat.not_lt_zero o
        | some o' =>
          have hle := hprevious o' rfl
          have hne : o' ≠ o := fun h => hsame (h ▸ rfl)
          simp only [Option.elim_some]
          omega
      have hentry (delta : Nat) (hdelta : delta ≤ 65535) : Shadows q
          (do
            let cut ← Halting.toUInt16 delta
            let entry ← raw.entryChecked cut before
            return entry :: (← framesChecked (fun l => liftM (place l)) raw (some o) fs))
          (do return raw.entry delta.toUInt16 before :: (← encodeFrames place (o + 1) raw fs)) :=
        .step (toUInt16_ok hdelta) <| .step (raw.entryChecked_ok _ before) <|
          (ih hnext hascend).bind fun es _ _ => .pure _
      dsimp only
      rw [if_neg hsame, if_neg hlt]
      cases previous with
      | none => exact hentry o ho
      | some o' =>
        simp only [Option.elim_some] at hlt ⊢
        refine .step (less_ok (hprevious o' rfl)) (.step (less_ok (by omega)) ?_)
        rw [Nat.sub_sub]
        exact hentry (o - (o' + 1)) (by omega)

end Tables

theorem StackMapFrame.writeChecked_ok {e : StackMapFrame} (h : e.Tagged) :
    e.writeChecked = .ok e.write := by
  cases e with
  | same d | full d locals stack => rfl
  | sameOne d item =>
    rw [writeChecked, write]
    split
    next hd =>
      have hlt : d.toNat ≤ 63 := UInt16.le_iff_toNat_le.mp hd
      have hsum : d.toUInt8.toNat + (64 : UInt8).toNat < 256 := by
        rw [UInt16.toNat_toUInt8, show (64 : UInt8).toNat = 64 from rfl]
        omega
      rw [addBytes_ok hsum]
      rfl
    next => rfl
  | chop d count =>
    have hle : count ≤ 251 := UInt8.le_trans (UInt8.le_of_lt h.2) (by decide)
    rw [writeChecked, expect_ok (p := 0 < count ∧ count < 4) h, lessBytes_ok hle]
    rfl
  | append d locals =>
    have hcount : locals.length.toUInt8.toNat = locals.length :=
      UInt8.toNat_ofNat_of_lt' (Nat.lt_trans h.2 (by decide))
    have hsum : (251 : UInt8).toNat + locals.length.toUInt8.toNat < 256 := by
      rw [hcount, show (251 : UInt8).toNat = 251 from rfl]
      have := h.2
      omega
    rw [writeChecked, expect_ok (p := 0 < locals.length ∧ locals.length < 4) h, addBytes_ok hsum]
    rfl

theorem encodeFrames_written {place : Label → Except ClassError Nat} {base : Nat} {before : RawFrame}
    {fs : List (Nat × Frame)} {p q : Pool} {es : List StackMapFrame}
    (h : encodeFrames place base before fs p = (.ok es, q)) :
    ∀ e ∈ es, e.writeChecked = .ok e.write := by
  induction fs generalizing base before p es with
  | nil => cases h; exact fun e he => absurd he List.not_mem_nil
  | cons e fs ih =>
    obtain ⟨raw, r, -, h⟩ := Pool.run_bind_ok.mp h
    dsimp only at h
    split at h
    next =>
      split at h
      next => exact ih h
      next => cases h
    next =>
      obtain ⟨rest, r', hrest, h⟩ := Pool.run_bind_ok.mp h
      cases h
      exact List.forall_mem_cons.mpr ⟨StackMapFrame.writeChecked_ok (raw.entry_tagged _ _), ih hrest⟩

theorem stackMapChecked_shadows {es : List StackMapFrame} (h : ∀ e ∈ es, e.writeChecked = .ok e.write)
    (p : Pool) : Shadows p (stackMapChecked es) (tableAttribute .stackMapTable id es) := by
  unfold stackMapChecked tableAttribute
  split
  next => exact .pure []
  next =>
    rw [Pool.internAttribute, bind_assoc]
    have hparts (q : Pool) : Shadows q (es.mapM fun e => (e.writeChecked : HaltingM Bytes))
        (pure (es.map StackMapFrame.write)) := by
      rw [← List.mapM_pure]
      exact .mapM fun e he q => .check (h e he)
    exact (Shadows.lift _).bind fun name q _ => (hparts q).bind fun parts _ _ => .pure _

end ClassGraft
