import ClassGraft.Bytes

namespace ClassGraft

namespace ModifiedText

/-- The UTF-16 code units of a character. -/
def units (c : Char) : List UInt16 :=
  let n := c.toNat
  if n < 0x10000 then [n.toUInt16]
  else
    let m := n - 0x10000
    [(0xD800 + m / 0x400).toUInt16, (0xDC00 + m % 0x400).toUInt16]

def encodeUnit (u : UInt16) : Bytes :=
  if u = 0 then [0xC0, 0x80]
  else if u < 0x80 then [u.toUInt8]
  else if u < 0x800 then
    [(u >>> 6).toUInt8 ||| 0xC0, (u &&& 0x3F).toUInt8 ||| 0x80]
  else
    [(u >>> 12).toUInt8 ||| 0xE0, (u >>> 6 &&& 0x3F).toUInt8 ||| 0x80, (u &&& 0x3F).toUInt8 ||| 0x80]

def encode (s : String) : Bytes :=
  s.toList.flatMap fun c => (units c).flatMap encodeUnit

/-- As in UTF-8, but that the zero character takes two bytes. -/
def formLength (c : Char) : Nat := if c = '\x00' then 2 else c.utf8Size

/-- The bytes of a character, cut out of its code point. Where UTF-8 takes four bytes, they are those of
two surrogates. -/
def encodeChar (c : Char) : Bytes :=
  let code := c.val
  match formLength c with
  | 1 => [code.toUInt8]
  | 2 => [(code >>> 6 &&& 0x1F).toUInt8 ||| 0xC0, (code &&& 0x3F).toUInt8 ||| 0x80]
  | 3 =>
    [(code >>> 12 &&& 0x0F).toUInt8 ||| 0xE0, (code >>> 6 &&& 0x3F).toUInt8 ||| 0x80,
      (code &&& 0x3F).toUInt8 ||| 0x80]
  | _ =>
    [0xED, (code >>> 16 &&& 0x0F).toUInt8 - 1 &&& 0x0F ||| 0xA0, (code >>> 10 &&& 0x3F).toUInt8 ||| 0x80,
      0xED, (code >>> 6 &&& 0x1F).toUInt8 ||| 0xB0, (code &&& 0x3F).toUInt8 ||| 0x80]

def isTail (b : UInt8) : Bool := b &&& 0xC0 = 0x80

def tailBits (b : UInt8) : UInt16 := (b &&& 0x3F).toUInt16

/-- A byte that starts no well-formed unit stands for U+FFFD by itself. -/
def decodeUnits : Bytes → List UInt16
  | [] => []
  | b :: rest =>
    if b < 0x80 then b.toUInt16 :: decodeUnits rest
    else if b &&& 0xE0 = 0xC0 then
      match rest with
      | c :: rest' =>
        if isTail c then
          ((b &&& 0x1F).toUInt16 <<< 6 ||| tailBits c) :: decodeUnits rest'
        else 0xFFFD :: decodeUnits (c :: rest')
      | [] => [0xFFFD]
    else if b &&& 0xF0 = 0xE0 then
      match rest with
      | c :: d :: rest' =>
        if isTail c && isTail d then
          ((b &&& 0x0F).toUInt16 <<< 12 ||| tailBits c <<< 6 ||| tailBits d) :: decodeUnits rest'
        else 0xFFFD :: decodeUnits (c :: d :: rest')
      | [c] => 0xFFFD :: decodeUnits [c]
      | [] => [0xFFFD]
    else 0xFFFD :: decodeUnits rest

def isHigh (u : UInt16) : Bool := u &&& 0xFC00 = 0xD800

def isLow (u : UInt16) : Bool := u &&& 0xFC00 = 0xDC00

def replacement : Char := Char.ofNat 0xFFFD

/-- Joins code units to characters, where a surrogate without its partner becomes U+FFFD. -/
def joinUnits : List UInt16 → List Char
  | [] => []
  | u :: rest =>
    if isHigh u then
      match rest with
      | l :: rest' =>
        if isLow l then
          Char.ofNat (0x10000 + (u.toNat - 0xD800) * 0x400 + (l.toNat - 0xDC00)) :: joinUnits rest'
        else replacement :: joinUnits (l :: rest')
      | [] => [replacement]
    else if isLow u then replacement :: joinUnits rest
    else Char.ofNat u.toNat :: joinUnits rest

def decode (bs : Bytes) : String := String.ofList (joinUnits (decodeUnits bs))

end ModifiedText

end ClassGraft
