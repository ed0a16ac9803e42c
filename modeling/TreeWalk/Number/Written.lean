import TreeWalk.Number.Shortest

/-!
# Written numbers

How numbers appear in output. Values are written positionally, with the shortest digits that read
back and no exponent; of two equally good texts the one with the larger number counts. In a syntax
tree a whole floating-point number shows all its digits and `.0`. In a token's text a whole number
shows as a machine word and `.0`. A list of tokens in JSON uses an exponent outside the range from
`1e-5` to `1e15`, and of two equally good texts the even one.
-/

namespace TreeWalk

/-- The digits of a natural number. -/
def natText (n : Nat) : String :=
  String.ofList (Nat.toDigits 10 n)

/-- The digits of a whole number, after its sign. -/
def intText (n : Int) : String :=
  if n < 0 then "-" ++ natText n.natAbs else natText n.natAbs

namespace Decimal

/-- The digits of the significand, first to last. -/
def digitChars (d : Decimal) : List Char :=
  Nat.toDigits 10 d.digits

/-- How many digits stand before the decimal point; negative when zeros follow it. -/
def point (d : Decimal) : Int :=
  d.digitChars.length + d.exponent

/-- Without an exponent. `whole` follows a number without a fraction. -/
def positional (whole : String) (d : Decimal) : String :=
  let cs := d.digitChars
  if 0 ≤ d.exponent then
    String.ofList (cs ++ List.replicate d.exponent.toNat '0') ++ whole
  else if 0 < d.point then
    String.ofList (cs.take d.point.toNat) ++ "." ++ String.ofList (cs.drop d.point.toNat)
  else
    "0." ++ String.ofList (List.replicate (-d.point).toNat '0' ++ cs)

/-- One digit, the rest after a point, and a signed exponent. -/
def scientific (d : Decimal) : String :=
  let power := d.point - 1
  let mantissa := match d.digitChars with
    | [] => "0"
    | [c] => String.singleton c
    | c :: cs => String.singleton c ++ "." ++ String.ofList cs
  mantissa ++ "e" ++ (if power < 0 then "" else "+") ++ intText power

end Decimal

/-- The sign that stands before a magnitude. -/
def signText (negative : Bool) : String :=
  if negative then "-" else ""

/-- A floating-point number as a value shows it. -/
def floatText (x : Float) : String :=
  match Exact.ofFloat x with
  | .nan => "NaN"
  | .infinite negative => signText negative ++ "inf"
  | .finite negative m e => signText negative ++ (Decimal.shortest .larger m e).positional ""

/-- A floating-point number as a syntax tree shows it: whole numbers have all their digits. -/
def floatLiteralText (x : Float) : String :=
  match Exact.ofFloat x, (Exact.ofFloat x).whole? with
  | .finite negative _ _, some n => signText negative ++ natText n.natAbs ++ ".0"
  | _, _ => floatText x

/-- A floating-point number as a token shows it: whole numbers below `2 ^ 63` as machine words. -/
def floatTokenText (x : Float) : String :=
  match (Exact.ofFloat x).whole? with
  | some n => if n.natAbs < twoPow 63 then intText n ++ ".0" else floatText x
  | none => floatText x

/-- A floating-point number in JSON, which has no infinities. -/
def floatJsonText (x : Float) : String :=
  match Exact.ofFloat x with
  | .finite negative m e =>
    let d := Decimal.shortest .even m e
    signText negative ++
      (if -5 ≤ d.point - 1 ∧ d.point - 1 ≤ 15 then d.positional ".0" else d.scientific)
  | _ => "null"

end TreeWalk
