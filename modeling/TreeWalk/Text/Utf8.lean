/-!
# Text from bytes

`decode` reads bytes as UTF-8 and stops at the first place where they are not. A malformed place is
described by the index of the first byte that belongs to no character and by how many bytes from
there can never start one; a source that ends in the middle of a character has no such count.
-/

namespace TreeWalk.Utf8

/-- Where bytes stop being text. -/
structure Malformed where
  /-- The bytes before this index are text. -/
  validUpTo : Nat
  /-- How many bytes are no part of a character; none when the input ends inside one. -/
  length : Option Nat
deriving DecidableEq, Repr

/-- The bytes `0x80` to `0xBF` follow the first byte of a character. -/
def isContinuation (b : UInt8) : Bool :=
  0x80 ≤ b && b ≤ 0xBF

/-- The payload of a continuation byte. -/
def low (b : UInt8) : Nat :=
  b.toNat % 0x40

/-- Which second bytes `b` may follow the first byte `a` of a longer character: behind the byte
`first` none below `least`, behind the byte `last` none above `most`. -/
def isSecond (first least last most a b : UInt8) : Bool :=
  if a = first then least ≤ b && b ≤ 0xBF
  else if a = last then 0x80 ≤ b && b ≤ most
  else isContinuation b

/-- The second bytes of three-byte characters: no overlong forms and no surrogates. -/
def isSecondOfThree : UInt8 → UInt8 → Bool :=
  isSecond 0xE0 0xA0 0xED 0x9F

/-- The second bytes of four-byte characters: no overlong forms and nothing above `0x10FFFF`. -/
def isSecondOfFour : UInt8 → UInt8 → Bool :=
  isSecond 0xF0 0x90 0xF4 0x8F

/-- Reads the characters of bytes that start at index `start` of the whole. -/
def decodeFrom (start : Nat) : List UInt8 → Except Malformed (List Char)
  | [] => .ok []
  | a :: rest =>
    if a < 0x80 then
      (decodeFrom (start + 1) rest).map (Char.ofNat a.toNat :: ·)
    else if a < 0xC2 || 0xF4 < a then
      .error ⟨start, some 1⟩
    else match rest with
      | [] => .error ⟨start, none⟩
      | b :: rest =>
        if a < 0xE0 then
          if isContinuation b then
            (decodeFrom (start + 2) rest).map (Char.ofNat (a.toNat % 0x20 * 0x40 + low b) :: ·)
          else .error ⟨start, some 1⟩
        else if a < 0xF0 then
          if isSecondOfThree a b then
            match rest with
            | [] => .error ⟨start, none⟩
            | c :: rest =>
              if isContinuation c then
                (decodeFrom (start + 3) rest).map
                  (Char.ofNat (a.toNat % 0x10 * 0x1000 + low b * 0x40 + low c) :: ·)
              else .error ⟨start, some 2⟩
          else .error ⟨start, some 1⟩
        else if isSecondOfFour a b then
          match rest with
          | [] => .error ⟨start, none⟩
          | c :: rest =>
            if isContinuation c then
              match rest with
              | [] => .error ⟨start, none⟩
              | d :: rest =>
                if isContinuation d then
                  (decodeFrom (start + 4) rest).map
                    (Char.ofNat (a.toNat % 8 * 0x40000 + low b * 0x1000 + low c * 0x40 + low d) :: ·)
                else .error ⟨start, some 3⟩
            else .error ⟨start, some 2⟩
        else .error ⟨start, some 1⟩

/-- The characters of `bytes`, or the first place where they are not UTF-8. -/
def decode (bytes : List UInt8) : Except Malformed (List Char) :=
  decodeFrom 0 bytes

/-- The text of `bytes`, if they are UTF-8. -/
def text? (bytes : List UInt8) : Option String :=
  match decode bytes with
  | .ok cs => some (String.ofList cs)
  | .error _ => none

/-- The UTF-8 form of `s`. -/
def encode (s : String) : List UInt8 :=
  s.toUTF8.toList

end TreeWalk.Utf8
