/-!
# The integers that fit

The numbers of documents and of settings files are held in signed 64-bit integers. None of them is
read with a sign that counts, so what fits is said with one bound.
-/

namespace HexConfig.Integer

/-- The least number that is too large for a signed 64-bit integer, two to the sixty-third. -/
def signedBound : Nat := 9223372036854775808

end HexConfig.Integer
