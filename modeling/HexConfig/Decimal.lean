/-!
# Decimal notation

Numbers written to base ten, without leading zeros, with a sign in front of the negative ones.
`value_digits` says that reading what is written gives the number back.
-/

namespace HexConfig.Decimal

/-- The digit worth `n`, for `n` below ten. -/
def ofDigit (n : Nat) : Char := Char.ofNat ('0'.toNat + n)

/-- What a digit is worth. -/
def digit (c : Char) : Nat := c.toNat - '0'.toNat

/-- The digits of a number, the first weighing most; zero has one. -/
def digits (n : Nat) : List Char :=
  if n < 10 then [ofDigit n] else digits (n / 10) ++ [ofDigit (n % 10)]

/-- What a run of digits is worth. -/
def value (ds : List Char) : Nat :=
  ds.foldl (fun n c => 10 * n + digit c) 0

/-- A number with its sign. -/
def ofInt : Int → List Char
  | .ofNat n => digits n
  | .negSucc n => '-' :: digits (n + 1)

theorem digit_ofDigit {n : Nat} (h : n < 10) : digit (ofDigit n) = n := by
  match n, h with
  | 0, _ | 1, _ | 2, _ | 3, _ | 4, _ | 5, _ | 6, _ | 7, _ | 8, _ | 9, _ => rfl

/-- Reading the digits of a number gives the number. -/
theorem value_digits (n : Nat) : value (digits n) = n := by
  induction n using digits.induct with
  | case1 n h => rw [digits, if_pos h]; simp [value, digit_ofDigit h]
  | case2 n h ih =>
    rw [digits, if_neg h, value, List.foldl_append, ← value, ih]
    simp only [List.foldl_cons, List.foldl_nil, digit_ofDigit (Nat.mod_lt n (by decide))]
    omega

end HexConfig.Decimal
