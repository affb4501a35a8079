/-! Binary floating-point numbers as their bits.

A float is held as the bits of its interchange format, so that every value, each NaN included, is
kept as it was written. `Format.round` gives the bits of the number nearest to a ratio of naturals,
ties going to the even neighbour, and `Format.read` takes bits apart again. All arithmetic is exact,
on naturals. -/
namespace Protobuf.Binary

/-- A binary interchange format: the widths of its fraction and of its exponent. -/
structure Format where
  fraction : Nat
  exponent : Nat
  deriving DecidableEq, Repr

/-- The format with 64 bits. -/
def double : Format := ⟨52, 11⟩

/-- The format with 32 bits. -/
def single : Format := ⟨23, 8⟩

/-- What the bits of a float mean. A finite number is `mantissa * 2 ^ exponent`. -/
inductive Reading where
  | nan
  | infinite (negative : Bool)
  | finite (negative : Bool) (mantissa : Nat) (exponent : Int)
  deriving DecidableEq, Repr

namespace Format

/-- The exponent of the last place of the smallest numbers. -/
def least (f : Format) : Int :=
  2 - (1 <<< (f.exponent - 1) : Nat) - f.fraction

/-- The bits of positive infinity. -/
def infinity (f : Format) : Nat :=
  (1 <<< f.exponent - 1) <<< f.fraction

/-- The bits of the NaN that stands for the word `nan`. -/
def quietNan (f : Format) : Nat :=
  f.infinity + 1 <<< (f.fraction - 1)

/-- The sign bit. -/
def signBit (f : Format) : Nat :=
  1 <<< (f.fraction + f.exponent)

/-- Puts a sign on the bits of a non-negative number. -/
def withSign (f : Format) (negative : Bool) (magnitude : Nat) : Nat :=
  if negative then f.signBit + magnitude else magnitude

/-- Takes bits apart. -/
def read (f : Format) (bits : Nat) : Reading :=
  let negative := f.signBit ≤ bits
  let magnitude := bits % f.signBit
  let biased := magnitude >>> f.fraction
  let low := magnitude % (1 <<< f.fraction)
  if f.infinity < magnitude then .nan
  else if magnitude = f.infinity then .infinite negative
  else if biased = 0 then .finite negative low f.least
  else .finite negative (low + 1 <<< f.fraction) (f.least + (biased - 1 : Nat))

/-- The natural nearest to `num / den`, a half going to the even neighbour. -/
def divideEven (num den : Nat) : Nat :=
  let quotient := num / den
  let twice := 2 * (num % den)
  if twice < den then quotient
  else if den < twice then quotient + 1
  else quotient + quotient % 2

/-- The exponent of the leading binary digit of `num / den`, for positive `num` and `den`. -/
def leading (num den : Nat) : Int :=
  let guess : Int := (num.log2 : Int) - den.log2
  let atLeast := if 0 ≤ guess then den <<< guess.toNat ≤ num else den ≤ num <<< (-guess).toNat
  if atLeast then guess else guess - 1

/-- The bits of the non-negative number nearest to `num / den`, for positive `den`. A half goes to
the even neighbour and what is too large becomes infinity. -/
def roundMagnitude (f : Format) (num den : Nat) : Nat :=
  if num = 0 then 0
  else
    let place := max f.least (leading num den - f.fraction)
    let mantissa :=
      if 0 ≤ place then divideEven num (den <<< place.toNat)
      else divideEven (num <<< (-place).toNat) den
    min f.infinity ((place - f.least).toNat <<< f.fraction + mantissa)

/-- The bits of the number nearest to `± num / den`. -/
def round (f : Format) (negative : Bool) (num den : Nat) : Nat :=
  f.withSign negative (f.roundMagnitude num den)

/-- The bits of the number nearest to `± mantissa * 2 ^ exponent`. -/
def roundScaled (f : Format) (negative : Bool) (mantissa : Nat) (exponent : Int) : Nat :=
  if 0 ≤ exponent then f.round negative (mantissa <<< exponent.toNat) 1
  else f.round negative mantissa (1 <<< (-exponent).toNat)

/-- The same number in another format, rounded if need be. -/
def convert (f target : Format) (bits : Nat) : Nat :=
  match f.read bits with
  | .nan => target.quietNan
  | .infinite negative => target.withSign negative target.infinity
  | .finite negative mantissa exponent => target.roundScaled negative mantissa exponent

/-- Whether bits stand for zero, of either sign. -/
def isZero (f : Format) (bits : Nat) : Bool :=
  bits % f.signBit == 0

/-- Whether bits stand for no number. -/
def isNan (f : Format) (bits : Nat) : Bool :=
  f.infinity < bits % f.signBit

/-- Equality of numbers: a NaN equals nothing, and the two zeros are equal. -/
def numEq (f : Format) (a b : Nat) : Bool :=
  !f.isNan a && !f.isNan b && (a == b || (f.isZero a && f.isZero b))

end Format

/-- The number of decimal digits of a natural, none for zero. -/
def decimalDigits (n : Nat) : Nat :=
  if n = 0 then 0 else (Nat.toDigits 10 n).length

/-- The bits nearest to `digits * 10 ^ exponent`. Numbers far outside the range of the format are
settled by their magnitude alone, so that no huge power is formed. -/
def ofDecimal (f : Format) (digits : Nat) (exponent : Int) : Nat :=
  let point := exponent + decimalDigits digits
  if digits = 0 || point < -400 then 0
  else if 400 < point then f.infinity
  else if 0 ≤ exponent then f.roundMagnitude (digits * Nat.pow 10 exponent.toNat) 1
  else f.roundMagnitude digits (Nat.pow 10 (-exponent).toNat)

end Protobuf.Binary
