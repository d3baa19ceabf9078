/-!
# Hexadecimal digits

What a hexadecimal digit is and what a run of them is worth. A run is read most significant digit
first, in either letter case, and has no bound on its length: whoever reads a number decides what
fits.
-/

namespace HexConfig.Hex

/-- The digits `0` to `9`, `a` to `f` and `A` to `F`. -/
def isDigit (c : Char) : Bool :=
  c.isDigit || ('a' ≤ c && c ≤ 'f') || ('A' ≤ c && c ≤ 'F')

/-- What one digit is worth. A character that is no digit counts as zero; nobody asks. -/
def digit (c : Char) : Nat :=
  if c.isDigit then c.toNat - '0'.toNat
  else if 'a' ≤ c && c ≤ 'f' then c.toNat - 'a'.toNat + 10
  else if 'A' ≤ c && c ≤ 'F' then c.toNat - 'A'.toNat + 10
  else 0

/-- What a run of digits is worth, the first digit weighing most. -/
def value (digits : List Char) : Nat :=
  digits.foldl (fun n c => 16 * n + digit c) 0

/-- The lower-case digit worth `n`, for `n` below sixteen. -/
def ofDigit (n : Nat) : Char :=
  if n < 10 then Char.ofNat ('0'.toNat + n) else Char.ofNat ('a'.toNat + (n - 10))

end HexConfig.Hex
