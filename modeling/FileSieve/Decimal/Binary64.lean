/-!
Binary floating-point numbers of sixty-four bits, held exactly. Reading a decimal gives the nearest
such number; of two equally near ones it gives the one with an even mantissa.
-/

namespace FileSieve

/-- A floating-point number. A finite one is `mantissa · 2 ^ exponent` with its sign. -/
inductive Binary64 where
  | finite (negative : Bool) (mantissa : Nat) (exponent : Int)
  | infinite (negative : Bool)
  | nan
deriving DecidableEq, Repr

namespace Binary64

def mantissaBound : Nat := Nat.pow 2 53

def minExponent : Int := -1074

def maxExponent : Int := 971

/-- The fraction `num / den` divided by `base ^ exponent`, as a fraction. -/
def overPower (base num den : Nat) (exponent : Int) : Nat × Nat :=
  let power := Nat.pow base exponent.natAbs
  if exponent < 0 then (num * power, den) else (num, den * power)

/-- The integer nearest to `num / den`; a half goes to the even neighbour. -/
def roundHalfEven (num den : Nat) : Nat :=
  let q := num / den
  let r := num % den
  if 2 * r > den || (2 * r == den && q % 2 == 1) then q + 1 else q

/-- The least exponent, not below the smallest one, at which the mantissa of `num / den` fits. -/
def exponentFor (num den : Nat) : Int :=
  let guess := max ((num.log2 : Int) - den.log2 - 53) minExponent
  let (n, d) := overPower 2 num den guess
  if n / d < mantissaBound then guess else guess + 1

/-- The number nearest to the positive fraction `num / den`. -/
def ofFraction (negative : Bool) (num den : Nat) : Binary64 :=
  let exponent := exponentFor num den
  let (n, d) := overPower 2 num den exponent
  let rounded := roundHalfEven n d
  let (mantissa, exponent) :=
    if rounded == mantissaBound then (rounded / 2, exponent + 1) else (rounded, exponent)
  if exponent > maxExponent then infinite negative else finite negative mantissa exponent

def digitCount (n : Nat) : Nat := (Nat.toDigits 10 n).length

/-- The number nearest to `digits · 10 ^ exponent`. A decimal that is far too large or too small is
decided by its size alone. -/
def ofDecimal (negative : Bool) (digits : Nat) (exponent : Int) : Binary64 :=
  let size := exponent + digitCount digits
  if digits == 0 || size < -400 then finite negative 0 minExponent
  else if size > 400 then infinite negative
  else
    let (num, den) := overPower 10 digits 1 (-exponent)
    ofFraction negative num den

end Binary64

end FileSieve
