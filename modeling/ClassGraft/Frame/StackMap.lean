import ClassGraft.Pool

namespace ClassGraft

namespace Frame

/-- The frame that an entry describes behind this one. -/
def next (f : Frame) (entry : StackMapFrame) (resolve : RawType → Except ClassError VerifyType) :
    Except ClassError Frame := do
  match entry with
  | .same _ => return { f with stack := [] }
  | .sameOne _ item => return { f with stack := [← resolve item] }
  | .chop _ count =>
    let values := f.packed
    if values.length < count.toNat then
      throw (.malformedAttribute .stackMapTable (.cannotChop count))
    return .ofPacked (values.take (values.length - count.toNat)) []
  | .append _ locals => return .ofPacked (f.packed ++ (← locals.mapM resolve)) []
  | .full _ locals stack =>
    let locals ← locals.mapM resolve
    return .ofPacked locals (← stack.mapM resolve).reverse

/-- The frame with pool entries for its classes and offsets for its labels. -/
def toRaw (f : Frame) (place : Label → Except ClassError Nat) : PoolM RawFrame := do
  let raw (t : VerifyType) : PoolM RawType :=
    t.mapM Pool.internClass fun site => do return (← place site.label).toUInt16
  let locals ← f.locals.mapM raw
  let stack ← f.stack.reverse.mapM raw
  return ⟨locals, stack.reverse⟩

end Frame

namespace RawFrame

def full (f : RawFrame) (delta : UInt16) : StackMapFrame :=
  .full delta f.packed f.stack.reverse

/-- The shortest entry for a frame behind another one. -/
def entry (f : RawFrame) (delta : UInt16) (previous : RawFrame) : StackMapFrame :=
  let new := f.packed
  let old := previous.packed
  match f.stack with
  | [] =>
    if new = old then .same delta
    else if new = old.take new.length ∧ old.length - new.length < 4 then
      .chop delta (old.length - new.length).toUInt8
    else if old = new.take old.length ∧ new.length - old.length < 4 then
      .append delta (new.drop old.length)
    else f.full delta
  | [item] => if new = old then .sameOne delta item else f.full delta
  | _ => f.full delta

end RawFrame

end ClassGraft
