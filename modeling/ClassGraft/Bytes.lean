namespace ClassGraft

abbrev Bytes := List UInt8

/-- Why a binary structure cannot be read. -/
inductive ReadError where
  | truncated
  | unknownConstantTag (tag : UInt8)
  | unknownHandleKind (tag : UInt8)
  | reservedFrameType (tag : UInt8)
  | unknownTypeTag (tag : UInt8)
  deriving DecidableEq

def ReadError.message : ReadError → String
  | .truncated => "failed to fill whole buffer"
  | .unknownConstantTag tag => s!"Unknown constant pool tag {tag}"
  | .unknownHandleKind tag => s!"Unknown method handle kind {tag}"
  | .reservedFrameType tag => s!"Reserved stack map frame type {tag}"
  | .unknownTypeTag tag => s!"Unknown verification type tag {tag}"

/-- A reader takes a value off the front of its input. -/
abbrev Reader := StateT Bytes (Except ReadError)

namespace Reader

def fail {α : Type} (e : ReadError) : Reader α := fun _ => .error e

def u8 : Reader UInt8
  | [] => .error .truncated
  | b :: rest => .ok (b, rest)

def u16 : Reader UInt16 := do
  let hi ← u8
  let lo ← u8
  return hi.toUInt16 <<< 8 ||| lo.toUInt16

def u32 : Reader UInt32 := do
  let hi ← u16
  let lo ← u16
  return hi.toUInt32 <<< 16 ||| lo.toUInt32

def u64 : Reader UInt64 := do
  let hi ← u32
  let lo ← u32
  return hi.toUInt64 <<< 32 ||| lo.toUInt64

def i8 : Reader Int8 := return (← u8).toInt8

def i16 : Reader Int16 := return (← u16).toInt16

def i32 : Reader Int32 := return (← u32).toInt32

def i64 : Reader Int64 := return (← u64).toInt64

/-- The next `n` bytes as they stand. -/
def raw (n : Nat) : Reader Bytes := fun s =>
  let chunk := s.take n
  if chunk.length = n then .ok (chunk, s.drop n) else .error .truncated

/-- Reads `n` values behind those of `acc`, which come last first. -/
def collect {σ ε α : Type} (item : StateT σ (Except ε) α) :
    Nat → List α → StateT σ (Except ε) (List α)
  | 0, acc, s => .ok (acc.reverse, s)
  | n + 1, acc, s =>
    match item s with
    | .error e => .error e
    | .ok (a, rest) => collect item n (a :: acc) rest

def times {σ ε α : Type} (n : Nat) (item : StateT σ (Except ε) α) :
    StateT σ (Except ε) (List α) := collect item n []

/-- A list behind its length in two bytes. -/
def counted {α : Type} (item : Reader α) : Reader (List α) := do
  let n ← u16
  times n.toNat item

/-- Bytes behind their number in four bytes. -/
def sized : Reader Bytes := do
  let n ← u32
  raw n.toNat

end Reader

namespace Write

def u16 (v : UInt16) : Bytes := [(v >>> 8).toUInt8, v.toUInt8]

def u32 (v : UInt32) : Bytes := u16 (v >>> 16).toUInt16 ++ u16 v.toUInt16

def u64 (v : UInt64) : Bytes := u32 (v >>> 32).toUInt32 ++ u32 v.toUInt32

def i16 (v : Int16) : Bytes := u16 v.toUInt16

def i32 (v : Int32) : Bytes := u32 v.toUInt32

def i64 (v : Int64) : Bytes := u64 v.toUInt64

/-- A list behind its length, of which two bytes are kept. -/
def counted {α : Type} (item : α → Bytes) (xs : List α) : Bytes :=
  u16 xs.length.toUInt16 ++ xs.flatMap item

def sized (bs : Bytes) : Bytes := u32 bs.length.toUInt32 ++ bs

end Write

end ClassGraft
