import FileSieve.Decimal.Binary64

/-!
The shortest decimal that reads back as a given floating-point number. On the grid of decimals with
`n` digits only the two neighbours of the number need a trial; the first grid with a hit wins.
-/

namespace FileSieve.Binary64

/-- The exponent `p` with `10 ^ p ≤ num / den < 10 ^ (p + 1)`. -/
def decimalMagnitude (num den : Nat) : Int :=
  let p : Int := (digitCount num : Int) - digitCount den
  let (n, d) := overPower 10 num den p
  if d ≤ n then p else p - 1

/-- The decimal of `count` digits that reads back as `mantissa · 2 ^ binary`, if there is one:
digits and exponent. Of two it is the nearer one, and the even one when both are equally near. -/
def decimalOf? (mantissa : Nat) (binary : Int) (count : Nat) : Option (Nat × Int) :=
  let (num, den) := overPower 2 mantissa 1 (-binary)
  let exponent := decimalMagnitude num den - count + 1
  let (n, d) := overPower 10 num den exponent
  let below := n / d
  let above := below + 1
  let readsBack (digits : Nat) : Bool :=
    ofDecimal false digits exponent == finite false mantissa binary
  match readsBack below, readsBack above with
  | true, true =>
    let nearest := roundHalfEven n d
    some (nearest, exponent)
  | true, false => some (below, exponent)
  | false, true => some (above, exponent)
  | false, false => none

/-- Digits without trailing zeros, with the exponent that keeps the value. -/
def dropZeros (digits : List Char) (exponent : Int) : List Char × Int :=
  let kept := (digits.reverse.dropWhile (· == '0')).reverse
  (kept, exponent + (digits.length - kept.length : Nat))

/-- The digits of the shortest decimal and the place of its point, counted from the first digit. No
number has more than 767 digits, and seventeen are always enough. -/
def shortestDigits (mantissa : Nat) (binary : Int) : List Char × Int :=
  match (List.range 767).findSome? fun i => decimalOf? mantissa binary (i + 1) with
  | some (digits, exponent) =>
    let (kept, exponent) := dropZeros (Nat.toDigits 10 digits) exponent
    (kept, exponent + kept.length)
  | none => (['0'], 1)

/-- The layout of a decimal: positional while the point stands from three places before the first
digit to sixteen places after it, always with a point; otherwise with an exponent of at least two
digits. -/
def layout (digits : List Char) (point : Int) : List Char :=
  if point ≤ -4 || 16 < point then
    let exponent := point - 1
    let sign := if exponent < 0 then '-' else '+'
    let places := Nat.toDigits 10 exponent.natAbs
    let places := if places.length < 2 then '0' :: places else places
    let fraction := if digits.length ≤ 1 then [] else '.' :: digits.drop 1
    digits.take 1 ++ fraction ++ 'e' :: sign :: places
  else if point ≤ 0 then
    '0' :: '.' :: List.replicate point.natAbs '0' ++ digits
  else if digits.length ≤ point.natAbs then
    digits ++ List.replicate (point.natAbs - digits.length) '0' ++ ['.', '0']
  else
    digits.take point.natAbs ++ '.' :: digits.drop point.natAbs

def toText : Binary64 → List Char
  | nan => "NaN".toList
  | infinite negative => (if negative then "-Infinity" else "Infinity").toList
  | finite negative mantissa binary =>
    let body :=
      if mantissa == 0 then "0.0".toList
      else
        let (digits, point) := shortestDigits mantissa binary
        layout digits point
    if negative then '-' :: body else body

end FileSieve.Binary64
