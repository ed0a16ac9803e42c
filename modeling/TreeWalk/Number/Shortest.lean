import TreeWalk.Number.Exact

/-!
# The shortest decimal of a floating-point number

Of all decimals that round to a given floating-point number, `Decimal.shortest` takes one with the
fewest digits, of those the nearest, and of two equally near the one that a `Tie` names. The number
`m · 2 ^ e` is the rounding of every decimal between the midpoints to its two neighbours; the
midpoints belong to it when `m` is even. For one digit, two digits and so on the two decimals around
the number are tried on the grid of that many digits, and the first grid with a hit wins.
-/

namespace TreeWalk

/-- The decimal `digits · 10 ^ exponent`. -/
structure Decimal where
  digits : Nat
  exponent : Int
deriving DecidableEq, Repr

/-- Which of two equally near decimals is taken. -/
inductive Tie where
  | larger
  | even
deriving DecidableEq, Repr

namespace Decimal

/-- Compares `c · 10 ^ p` with `w · 2 ^ b`. -/
def compareBinary (c : Nat) (p : Int) (w : Nat) (b : Int) : Ordering :=
  compare (c * tenPow p.toNat * twoPow (-b).toNat)
    (w * twoPow b.toNat * tenPow (-p).toNat)

/-- Four times the significand, less or more: the lower midpoint in units of `2 ^ (e - 2)`. Below a
power of two the neighbour is half as far away. -/
def lowerMidpoint (m : Nat) (e : Int) : Nat :=
  if m = twoPow 52 ∧ Exact.leastExponent < e then 4 * m - 1 else 4 * m - 2

/-- The upper midpoint in units of `2 ^ (e - 2)`. -/
def upperMidpoint (m : Nat) : Nat :=
  4 * m + 2

/-- Whether `c · 10 ^ p` rounds to `m · 2 ^ e`. -/
def roundsTo (c : Nat) (p : Int) (m : Nat) (e : Int) : Bool :=
  match compareBinary c p (lowerMidpoint m e) (e - 2), compareBinary c p (upperMidpoint m) (e - 2) with
  | .gt, .lt => true
  | .eq, _ => m % 2 = 0
  | _, .eq => m % 2 = 0
  | _, _ => false

/-- The number `x` with `10 ^ (x - 1) ≤ m · 2 ^ e < 10 ^ x`: an estimate from the binary logarithm,
off by one at most, and its correction. -/
def magnitude (m : Nat) (e : Int) : Int :=
  let guess := ((m.log2 : Int) + e) * 30103 / 100000 + 1
  if compareBinary 1 guess m e != .gt then guess + 1
  else if compareBinary 1 (guess - 1) m e == .gt then guess - 1
  else guess

/-- The multiple of `10 ^ p` just below `m · 2 ^ e`, or at it. -/
def floorOn (p : Int) (m : Nat) (e : Int) : Nat :=
  m * twoPow e.toNat * tenPow (-p).toNat / (twoPow (-e).toNat * tenPow p.toNat)

/-- Of `below` and its successor on the grid of multiples of `10 ^ p`, the one nearer to
`m · 2 ^ e`. -/
def nearer (tie : Tie) (below : Nat) (p : Int) (m : Nat) (e : Int) : Nat :=
  match compareBinary (2 * below + 1) p (2 * m) e, tie with
  | .gt, _ => below
  | .lt, _ => below + 1
  | .eq, .larger => below + 1
  | .eq, .even => if below % 2 = 0 then below else below + 1

/-- The decimal on the grid of multiples of `10 ^ p` that rounds to `m · 2 ^ e`, if there is one. -/
def onGrid? (tie : Tie) (p : Int) (m : Nat) (e : Int) : Option Decimal :=
  let below := floorOn p m e
  match roundsTo below p m e, roundsTo (below + 1) p m e with
  | true, true => some ⟨nearer tie below p m e, p⟩
  | true, false => some ⟨below, p⟩
  | false, true => some ⟨below + 1, p⟩
  | false, false => none

/-- Tries the grids from exponent `p` downwards, `more` of them after the first. -/
def search (tie : Tie) (m : Nat) (e : Int) : (more : Nat) → (p : Int) → Decimal
  | 0, p => (onGrid? tie p m e).getD ⟨floorOn p m e, p⟩
  | more + 1, p =>
    match onGrid? tie p m e with
    | some d => d
    | none => search tie m e more (p - 1)

/-- Moves zeros at the end of the digits into the exponent, at most `fuel` of them. -/
def dropZeros : (fuel : Nat) → Decimal → Decimal
  | 0, d => d
  | fuel + 1, d =>
    if d.digits ≠ 0 ∧ d.digits % 10 = 0 then dropZeros fuel ⟨d.digits / 10, d.exponent + 1⟩ else d

/-- The shortest decimal that rounds to `m · 2 ^ e`. Seventeen digits are always enough. -/
def shortest (tie : Tie) (m : Nat) (e : Int) : Decimal :=
  if m = 0 then ⟨0, 0⟩ else dropZeros 17 (search tie m e 16 (magnitude m e - 1))

end Decimal

end TreeWalk
