/-!
# Numbers

A number keeps its text, so that `10M` is written back as `10M`. Its value is exact, and there is
none if it does not fit in 64 bits.
-/

namespace SieveScript

/-- A number as it is written. -/
structure Number where
  text : String
  deriving DecidableEq, Repr

namespace Number

/-- The number written in decimal digits. -/
def ofNat (n : Nat) : Number :=
  ⟨String.ofList (Nat.toDigits 10 n)⟩

/-- The power of two that a quantifier letter stands for. -/
def shift? (c : Char) : Option Nat :=
  match c.toLower with
  | 'k' => some 10
  | 'm' => some 20
  | 'g' => some 30
  | _ => none

/-- The number, if it fits in 64 bits. -/
def fit (n : Nat) : Option Nat :=
  if n < UInt64.size then some n else none

/-- The value of one or more digits that fits in 64 bits. -/
def decimal? (cs : List Char) : Option Nat :=
  if cs ≠ [] ∧ cs.all Char.isDigit then fit (Nat.ofDigitChars 10 cs 0) else none

/-- As `decimal?`, with a plus sign allowed in front. -/
def signed? : List Char → Option Nat
  | '+' :: cs => decimal? cs
  | cs => decimal? cs

/-- Splits a quantifier letter off the end: the rest, and the power of two it is shifted by. -/
def splitQuantifier (cs : List Char) : List Char × Nat :=
  match cs.getLast?.bind shift? with
  | some s => (cs.dropLast, s)
  | none => (cs, 0)

/-- The value with its quantifier applied. -/
def value (n : Number) : Option Nat :=
  let (digits, s) := splitQuantifier n.text.toList
  (signed? digits).bind fun v => fit (v <<< s)

end Number

end SieveScript
