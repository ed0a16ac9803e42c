import TreeWalk.Number.Exact

/-!
# Reading numbers

Two grammars: whole numbers that fit a machine word, and floating-point numbers with optional
fraction and exponent. Both take a sign, and neither takes blanks or digit separators.
-/

namespace TreeWalk

/-- The number that digits spell, most significant first, continuing from `n`. -/
def natOfDigits (n : Nat) (digits : List Char) : Nat :=
  digits.foldl (fun n c => n * 10 + (c.toNat - '0'.toNat)) n

/-- Splits off a leading sign; the flag says whether it is a minus. -/
def splitSign : List Char → Bool × List Char
  | '-' :: cs => (true, cs)
  | '+' :: cs => (false, cs)
  | cs => (false, cs)

/-- An optional sign and one or more digits, if the number fits a machine word. -/
def readInt64? (cs : List Char) : Option Int64 :=
  let (negative, digits) := splitSign cs
  if digits ≠ [] ∧ digits.all Char.isDigit then
    int64? (Exact.signed negative (natOfDigits 0 digits))
  else none

/-- The floating-point number nearest to `m · 10 ^ e`. -/
def nearest (m : Nat) (e : Int) : Float :=
  Float.ofScientific m (e < 0) e.natAbs

/-- Digits and, after a point, more digits; what follows is handed on. -/
def splitFraction (cs : List Char) : List Char × List Char × List Char :=
  let whole := cs.takeWhile Char.isDigit
  match cs.dropWhile Char.isDigit with
  | '.' :: rest => (whole, rest.takeWhile Char.isDigit, rest.dropWhile Char.isDigit)
  | rest => (whole, [], rest)

/-- An exponent: nothing, or a mark, an optional sign and one or more digits. -/
def readExponent? : List Char → Option Int
  | [] => some 0
  | mark :: cs =>
    let (negative, digits) := splitSign cs
    if (mark = 'e' ∨ mark = 'E') ∧ digits ≠ [] ∧ digits.all Char.isDigit then
      some (Exact.signed negative (natOfDigits 0 digits))
    else none

/-- A magnitude without sign: `inf`, `infinity`, `nan` in any case, or a decimal with at least one
digit before or after the point. -/
def readMagnitude? (cs : List Char) : Option Float :=
  let word := cs.map Char.toLower
  if word = "inf".toList ∨ word = "infinity".toList then some (1.0 / 0.0)
  else if word = "nan".toList then some (0.0 / 0.0)
  else
    let (whole, fraction, rest) := splitFraction cs
    if whole = [] ∧ fraction = [] then none
    else (readExponent? rest).map fun e =>
      nearest (natOfDigits 0 (whole ++ fraction)) (e - fraction.length)

/-- A floating-point number with an optional sign. -/
def readFloat? (cs : List Char) : Option Float :=
  let (negative, magnitude) := splitSign cs
  (readMagnitude? magnitude).map fun x => if negative then -x else x

end TreeWalk
