namespace ClassGraft

/-- Does a character separate words? These are the characters with the Unicode property
`White_Space`. -/
def isBlank (c : Char) : Bool :=
  let n := c.val
  (9 ≤ n && n ≤ 13) || n == 0x20 || n == 0x85 || n == 0xA0 || n == 0x1680 ||
    (0x2000 ≤ n && n ≤ 0x200A) || n == 0x2028 || n == 0x2029 || n == 0x202F || n == 0x205F ||
    n == 0x3000

/-- The parts of a text between the characters with a property. -/
def splitAt (p : Char → Bool) : List Char → List (List Char)
  | [] => [[]]
  | c :: cs =>
    if p c then [] :: splitAt p cs
    else
      match splitAt p cs with
      | [] => [[c]]
      | s :: ss => (c :: s) :: ss

def lines (cs : List Char) : List (List Char) := splitAt (· == '\n') cs

def words (cs : List Char) : List (List Char) := (splitAt isBlank cs).filter fun w => !w.isEmpty

/-- A text without the blanks at its ends. -/
def trim (cs : List Char) : List Char :=
  ((cs.dropWhile isBlank).reverse.dropWhile isBlank).reverse

/-- The parts before and behind the last dot. -/
def splitLastDot? (cs : List Char) : Option (List Char × List Char) :=
  let last := cs.reverse.takeWhile (· ≠ '.')
  match cs.reverse.drop last.length with
  | [] => none
  | _ :: before => some (before.reverse, last.reverse)

end ClassGraft
