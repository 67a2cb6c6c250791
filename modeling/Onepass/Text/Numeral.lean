import Onepass.Text.Bytes

/-! Numbers as text: decimal, hexadecimal and octal digits, most significant first. -/
namespace Onepass.Numeral

/-- The byte of one digit, with `a` to `f` above nine. -/
def digit (n : Nat) : UInt8 :=
  if n < 10 then (48 + n).toUInt8 else (87 + n).toUInt8

/-- The digits of `n`, least significant first; `fuel` bounds their number. -/
def digitsUpTo (base : Nat) : (fuel : Nat) → Nat → Bytes
  | 0, _ => []
  | fuel + 1, n =>
    if n < base then [digit n] else digit (n % base) :: digitsUpTo base fuel (n / base)

/-- The digits of `n`, without leading zeros. -/
def natural (base n : Nat) : Bytes := (digitsUpTo base (n + 1) n).reverse

/-- Signed decimal. -/
def decimal (n : Int) : Bytes :=
  if n < 0 then 45 :: natural 10 n.natAbs else natural 10 n.natAbs

/-- Digits in a base, filled with zeros up to a width. -/
def padded (base width n : Nat) : Bytes :=
  let digits := natural base n
  List.replicate (width - digits.length) 48 ++ digits

/-- Hexadecimal without leading zeros. -/
def hex (n : Nat) : Bytes := natural 16 n

/-- The value of a digit below `base`. -/
def digitValue? (base : Nat) (b : UInt8) : Option Nat :=
  let n := b.toNat
  let value :=
    if 48 ≤ n ∧ n ≤ 57 then some (n - 48)
    else if 97 ≤ n ∧ n ≤ 102 then some (n - 87)
    else if 65 ≤ n ∧ n ≤ 70 then some (n - 55)
    else none
  value.filter (· < base)

/-- The number that a run of digits denotes; the empty run denotes zero. -/
def value? (base : Nat) (digits : Bytes) : Option Nat :=
  digits.foldl (fun acc b => do return (← acc) * base + (← digitValue? base b)) (some 0)

end Onepass.Numeral
