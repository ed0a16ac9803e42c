/-!
# The exact value of a floating-point number

A finite floating-point number is a whole multiple of a power of two. `Exact.ofFloat` reads sign,
multiple and power off the bits, so that questions about the number ("is it whole?", "what is left
when the fraction is cut off?") are answered in exact arithmetic.
-/

namespace TreeWalk

/-- The `n`-th power of two. -/
def twoPow (n : Nat) : Nat :=
  Nat.pow 2 n

/-- The `n`-th power of ten. -/
def tenPow (n : Nat) : Nat :=
  Nat.pow 10 n

/-- What a floating-point number stands for. -/
inductive Exact where
  | nan
  | infinite (negative : Bool)
  /-- `significand · 2 ^ exponent`, with its sign. -/
  | finite (negative : Bool) (significand : Nat) (exponent : Int)
deriving DecidableEq, Repr

namespace Exact

/-- The exponent of the smallest numbers. -/
def leastExponent : Int := -1074

/-- Splits the bits into sign, exponent field and fraction field. -/
def ofFloat (x : Float) : Exact :=
  let bits := x.toBits.toNat
  let negative := twoPow 63 ≤ bits
  let field : Nat := bits / twoPow 52 % twoPow 11
  let fraction : Nat := bits % twoPow 52
  if field = 2047 then
    if fraction = 0 then infinite negative else nan
  else if field = 0 then
    finite negative fraction leastExponent
  else
    finite negative (twoPow 52 + fraction) ((field : Int) - 1075)

/-- A magnitude with its sign. -/
def signed (negative : Bool) (n : Nat) : Int :=
  if negative then -(n : Int) else n

/-- The whole number that is left when the fraction is cut off. -/
def truncate? : Exact → Option Int
  | finite negative m e =>
    some (signed negative (if 0 ≤ e then m * twoPow e.toNat else m / twoPow (-e).toNat))
  | _ => none

/-- The value, if it is a whole number. -/
def whole? : Exact → Option Int
  | finite negative m e =>
    if 0 ≤ e then some (signed negative (m * twoPow e.toNat))
    else if m % twoPow (-e).toNat = 0 then some (signed negative (m / twoPow (-e).toNat))
    else none
  | _ => none

end Exact

/-- The whole numbers that a machine word with sign holds. -/
def int64? (n : Int) : Option Int64 :=
  if -twoPow 63 ≤ n ∧ n < twoPow 63 then some (Int64.ofInt n) else none

end TreeWalk
