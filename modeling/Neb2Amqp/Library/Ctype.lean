import Neb2Amqp.Library.CString

/-!
# Characters and numbers in text

`isspace`, `tolower` and `strtol` in the C locale; `long` has 64 bits.
-/

namespace CLib

def isspace (c : UInt8) : Bool := c == 32 || (9 ≤ c && c ≤ 13)

def tolower (c : UInt8) : UInt8 := if 65 ≤ c && c ≤ 90 then c + 32 else c

/-- `strncasecmp (s, t, 1) == 0` for a text `t` of one lower case letter. -/
def startsWithLetter (s : CString) (letter : UInt8) : Bool :=
  s.bytes.head?.map tolower == some letter

def isdigit (base : Nat) (c : UInt8) : Bool := 48 ≤ c.toNat && c.toNat < 48 + base

/-- `strtol` for a base of ten or less: the value, and how far `endptr` is behind the
start. A value that is too large stops at the end of the range. -/
def strtol (base : Nat) (s : CString) : Int64 × Nat :=
  let body := s.bytes.dropWhile isspace
  let sign := (body.take 1).filter fun c => c == 43 || c == 45
  let digits := (body.drop sign.length).takeWhile (isdigit base)
  if digits = [] then (0, 0)
  else
    let n := digits.foldl (fun n c => n * base + (c.toNat - 48)) 0
    let value : Int := if sign = [45] then -n else n
    (Int64.ofInt (max (-2 ^ 63) (min value (2 ^ 63 - 1))),
      s.strlen - body.length + sign.length + digits.length)

example : strtol 10 (.lit "-12x") = (-12, 3) := by decide +kernel

example : strtol 2 (.lit "12") = (1, 1) := by decide +kernel

end CLib
