import ClassGraft.Error

namespace ClassGraft

abbrev TypeStack := List VerifyType

/-- Computations on the stack of a frame. -/
abbrev StackM := StateT TypeStack (Except VerifyFault)

namespace StackM

def fault {α : Type} (e : VerifyFault) : StackM α := fun _ => .error e

def popAny : StackM VerifyType
  | [] => .error .emptyStack
  | t :: ts => .ok (t, ts)

def pushType (t : VerifyType) : StackM Unit := fun ts => .ok ((), t :: ts)

def popReference : StackM VerifyType := do
  let t ← popAny
  if t.isReference then return t else fault .invalidType

/-- Pops a value that takes one slot. -/
def popNarrow : StackM VerifyType := do
  let t ← popAny
  if t.isWide then fault (.invalidWidth t.width) else return t

/-- Pops a value of a type, where one reference is as good as another. -/
def popType (expected : VerifyType) : StackM Unit := do
  let t ← popAny
  if expected.isReference then
    if t.isReference then return () else fault .invalidType
  else if t = expected then return ()
  else fault .invalidType

def popTypes (expected : List VerifyType) : StackM Unit := expected.forM popType

end StackM

open StackM

def ValueKind.verifyType? : ValueKind → Option VerifyType
  | .int => some .integer
  | .long => some .long
  | .float => some .float
  | .double => some .double
  | .ref => none

def NumberKind.verifyType : NumberKind → VerifyType
  | .int => .integer
  | .long => .long
  | .float => .float
  | .double => .double

/-- Elements smaller than `int` are held as `int`. -/
def ElementKind.verifyType? : ElementKind → Option VerifyType
  | .int | .byte | .char | .short => some .integer
  | .long => some .long
  | .float => some .float
  | .double => some .double
  | .ref => none

def wholeType (long : Bool) : VerifyType := if long then .long else .integer

def Conversion.verifyTypes : Conversion → VerifyType × VerifyType
  | .i2l => (.integer, .long)
  | .i2f => (.integer, .float)
  | .i2d => (.integer, .double)
  | .l2i => (.long, .integer)
  | .l2f => (.long, .float)
  | .l2d => (.long, .double)
  | .f2i => (.float, .integer)
  | .f2l => (.float, .long)
  | .f2d => (.float, .double)
  | .d2i => (.double, .integer)
  | .d2l => (.double, .long)
  | .d2f => (.double, .float)
  | .i2b | .i2c | .i2s => (.integer, .integer)

def Literal.verifyType : Literal → VerifyType
  | .int _ => .integer
  | .float _ => .float
  | .long _ => .long
  | .double _ => .double
  | .string _ => .ofClass BinaryName.string
  | .classRef _ => .ofClass BinaryName.classType
  | .methodType _ => .ofClass BinaryName.methodType
  | .methodHandle _ => .ofClass BinaryName.methodHandle
  | .dynamic _ t => .ofField t

/-- The type of the elements of an array, as far as it can be known. -/
def elementType? : VerifyType → Option VerifyType
  | .object (.objectArray 0 n) => some (.ofClass n)
  | .object (.objectArray (extra + 1) n) => some (.object (.objectArray extra n))
  | .object (.primitiveArray (extra + 1) t) => some (.object (.primitiveArray extra t))
  | .object (.object _) => some (.ofClass BinaryName.object)
  | .null => some .null
  | _ => none

/-- Pops one value of two slots or two of one slot, in the order in which they lie. -/
def popPair : StackM TypeStack := do
  let a ← popAny
  if a.isWide then return [a] else return [a, ← popNarrow]

/-- Puts values back, given from the top down. -/
def pushAll (ts : TypeStack) : StackM Unit := fun s => .ok ((), ts ++ s)

def StackOp.run : StackOp → StackM Unit
  | .pop => do
    let _ ← popNarrow
  | .pop2 => do
    let _ ← popPair
  | .dup => do
    let a ← popNarrow
    pushAll [a, a]
  | .dupX1 => do
    let a ← popNarrow
    let b ← popNarrow
    pushAll [a, b, a]
  | .dupX2 => do
    let a ← popNarrow
    let bs ← popPair
    pushAll (a :: bs ++ [a])
  | .dup2 => do
    let as ← popPair
    pushAll (as ++ as)
  | .dup2X1 => do
    let a ← popAny
    let b ← popNarrow
    if a.isWide then pushAll [a, b, a]
    else
      let c ← popNarrow
      pushAll [a, b, c, a, b]
  | .dup2X2 => do
    let as ← popPair
    let bs ← popPair
    pushAll (as ++ bs ++ as)
  | .swap => do
    let a ← popNarrow
    let b ← popNarrow
    pushAll [b, a]

/-- Overwrites a local, which ruins a wide value that it was the second half of. -/
def setLocal (locals : List VerifyType) (slot : Nat) (t : VerifyType) : List VerifyType :=
  let room := locals ++ List.replicate (slot + t.width - locals.length) .top
  let room :=
    match slot with
    | 0 => room
    | p + 1 => if (room[p]?.map SlotType.isWide).getD false then room.set p .top else room
  let room := if t.isWide then room.set (slot + 1) .top else room
  room.set slot t

def getLocal (locals : List VerifyType) (slot : UInt16) : Except VerifyFault VerifyType :=
  match locals[slot.toNat]? with
  | some t => .ok t
  | none => .error (.invalidIndex slot)

def replaceType (old new : VerifyType) (ts : List VerifyType) : List VerifyType :=
  ts.map fun t => if t = old then new else t

namespace Frame

/-- Runs a computation on the stack of a frame. -/
def onStack {α : Type} (f : Frame) (m : StackM α) : Except VerifyFault (α × Frame) :=
  match m f.stack with
  | .ok (a, stack) => .ok (a, { f with stack })
  | .error e => .error e

def onStack_ (f : Frame) (m : StackM Unit) : Except VerifyFault Frame := (f.onStack m).map Prod.snd

def load (f : Frame) (k : ValueKind) (slot : UInt16) : Except VerifyFault Frame := do
  let t ← getLocal f.locals slot
  let fits :=
    match k.verifyType? with
    | some expected => decide (t = expected)
    | none => t.isReference
  if fits then return { f with stack := t :: f.stack } else throw .invalidType

/-- Stores a value. What a subroutine call pushes is unusable but can be stored as a reference. -/
def store (f : Frame) (k : ValueKind) (slot : UInt16) : Except VerifyFault Frame := do
  let (t, f) ← f.onStack popAny
  let fits :=
    match k.verifyType? with
    | some expected => decide (t = expected)
    | none => t.isReference || t.isTop
  if fits then return { f with locals := setLocal f.locals slot.toNat t } else throw .invalidType

/-- Calls a constructor, which turns every copy of the object into an object of its class. -/
def construct (f : Frame) (thisClass : BinaryName) (m : MethodRef) : Except VerifyFault Frame := do
  let (receiver, f) ← f.onStack popAny
  let made ←
    match receiver with
    | .uninitializedThis => pure (VerifyType.ofClass thisClass)
    | .uninitialized site => pure (VerifyType.ofClass site.type)
    | _ => throw .invalidType
  if m.type.result.isSome then throw .invalidType
  return ⟨replaceType receiver made f.locals, replaceType receiver made f.stack⟩

/-- The types of arguments from the last to the first. -/
def argumentTypes (m : MethodType) : List VerifyType := (m.parameters.map VerifyType.ofField).reverse

def pushResult (m : MethodType) : StackM Unit :=
  match m.result with
  | some t => pushType (.ofField t)
  | none => pure ()

def invoke (f : Frame) (thisClass : BinaryName) (k : InvokeKind) (m : MethodRef) :
    Except VerifyFault Frame := do
  let f ← f.onStack_ (popTypes (argumentTypes m.type))
  if k = .special && m.name = MemberName.init then f.construct thisClass m
  else f.onStack_ do
    if k ≠ .static then
      let _ ← popReference
    pushResult m.type

end Frame

/-- Instructions that use nothing of a frame but its stack. -/
def Instruction.run : Instruction → StackM Unit
  | .constNull => pushType .null
  | .constInt _ | .bipush _ | .sipush _ => pushType .integer
  | .constLong _ => pushType .long
  | .constFloat _ => pushType .float
  | .constDouble _ => pushType .double
  | .ldc l => pushType l.verifyType
  | .arrayLoad k => do
    popType .integer
    let array ← popReference
    match k.verifyType? with
    | some t => pushType t
    | none =>
      match elementType? array with
      | some t => pushType t
      | none => fault .notArray
  | .arrayStore k => do
    match k.verifyType? with
    | some t => popType t
    | none =>
      let _ ← popReference
    popType .integer
    let _ ← popReference
  | .stack op => op.run
  | .arithmetic .neg k => do
    popType k.verifyType
    pushType k.verifyType
  | .arithmetic _ k => do
    popTypes [k.verifyType, k.verifyType]
    pushType k.verifyType
  | .shift _ long => do
    popTypes [.integer, wholeType long]
    pushType (wholeType long)
  | .bitwise _ long => do
    popTypes [wholeType long, wholeType long]
    pushType (wholeType long)
  | .convert c => do
    popType c.verifyTypes.1
    pushType c.verifyTypes.2
  | .compareLong => do
    popTypes [.long, .long]
    pushType .integer
  | .compareFloat _ => do
    popTypes [.float, .float]
    pushType .integer
  | .compareDouble _ => do
    popTypes [.double, .double]
    pushType .integer
  | .field .getStatic r => pushType (.ofField r.type)
  | .field .putStatic r => popType (.ofField r.type)
  | .field .getField r => do
    let _ ← popReference
    pushType (.ofField r.type)
  | .field .putField r => do
    popType (.ofField r.type)
    let _ ← popReference
  | .invokeDynamic c => do
    popTypes (Frame.argumentTypes c.type)
    Frame.pushResult c.type
  | .newArray t => do
    popType .integer
    pushType (.object (FieldType.array (.base t)))
  | .newRefArray t => do
    popType .integer
    pushType (.object (FieldType.array (.ref t)))
  | .newMultiArray t dimensions => do
    popTypes (List.replicate dimensions.toNat .integer)
    pushType (.object t)
  | .arrayLength => do
    let _ ← popReference
    pushType .integer
  | .checkCast t => do
    let _ ← popReference
    pushType (.object t)
  | .instanceOf _ => do
    let _ ← popReference
    pushType .integer
  | .monitorEnter | .monitorExit => do
    let _ ← popReference
  | .nop | .load _ _ | .store _ _ | .increment _ _ | .invoke _ _ | .new _ => pure ()

namespace Frame

/-- The frame behind an instruction. A `new` needs the label right before it. -/
def step (f : Frame) (thisClass : BinaryName) (site : Option Label) (i : Instruction) :
    Except VerifyFault Frame :=
  match i with
  | .load k slot => f.load k slot
  | .store k slot => f.store k slot
  | .increment slot _ => do
    let t ← getLocal f.locals slot
    if t = .integer then return f else throw .invalidType
  | .invoke k m => f.invoke thisClass k m
  | .new c =>
    match site with
    | some l => .ok { f with stack := .uninitialized ⟨c, l⟩ :: f.stack }
    | none => .error .invalidType
  | i => f.onStack_ i.run

/-- The frame that flows out of a branch on all of its ways. -/
def branch {L : Type} (f : Frame) (b : Branch L) : Except VerifyFault Frame :=
  f.onStack_ <|
    match b with
    | .ifZero _ _ | .tableSwitch _ _ _ | .lookupSwitch _ _ => popType .integer
    | .ifInt _ _ => popTypes [.integer, .integer]
    | .ifRef _ _ => do
      let _ ← popReference
      let _ ← popReference
    | .ifNull _ _ => do
      let _ ← popReference
    | .goto _ | .gotoWide _ | .ret _ | .leave none => pure ()
    | .jsr _ | .jsrWide _ => pushType .top
    | .leave (some k) =>
      match k.verifyType? with
      | some t => popType t
      | none => do
        let _ ← popReference
    | .athrow => do
      let t ← popReference
      set [t]

end Frame

/-- The type of what is of one type or the other. -/
def mergeTypes (a b : VerifyType) : Option VerifyType :=
  if a = b then some a
  else
    match a, b with
    | .null, .object _ => some b
    | .object _, .null => some a
    | .object _, .object _ => some (.ofClass BinaryName.object)
    | _, _ => none

/-- Merges locals slot by slot; what is in one list only is unusable. -/
def mergeLocals : List VerifyType → List VerifyType → List VerifyType
  | [], bs => bs.map fun _ => .top
  | as, [] => as.map fun _ => .top
  | a :: as, b :: bs => (mergeTypes a b).getD .top :: mergeLocals as bs

def mergeStacks : List VerifyType → List VerifyType → Option (List VerifyType)
  | [], [] => some []
  | a :: as, b :: bs => do return (← mergeTypes a b) :: (← mergeStacks as bs)
  | _, _ => none

/-- The frame at a point that is reached with two frames. -/
def Frame.merge (f g : Frame) : Except VerifyFault Frame :=
  match mergeStacks f.stack g.stack with
  | some stack => .ok ⟨trimLocals (mergeLocals f.locals g.locals), stack⟩
  | none => .error .incompatible

end ClassGraft
