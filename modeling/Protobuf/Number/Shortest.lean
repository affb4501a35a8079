import Protobuf.Number.Binary

/-! The fewest decimal digits that read back as a float.

The reals that round to a float form an interval around it, closed exactly when the mantissa is
even. For one digit, two digits and so on, the two neighbours of the float on the decimal grid of
that precision are tried; the first precision with a neighbour inside the interval is the answer.
Of two neighbours inside, the nearer one is taken, and the upper one if both are equally near. -/
namespace Protobuf.Decimal

/-- A positive decimal: its digits, the first of which is not zero, and the number of places in
front of the point, so that the value is `0.d₁d₂… * 10 ^ point`. -/
structure Digits where
  digits : List Nat
  point : Int
  deriving DecidableEq, Repr

/-- A positive float and the halves of the gaps to its neighbours, over one denominator: the value
is `value / scale`, and the reals from `low / scale` to `high / scale` round to it. -/
structure Interval where
  low : Nat
  value : Nat
  high : Nat
  scale : Nat
  closed : Bool

/-- The interval of `mantissa * 2 ^ exponent`. Below a power of two the lower gap is half as wide,
except among the smallest numbers. -/
def interval (f : Binary.Format) (mantissa : Nat) (exponent : Int) : Interval :=
  let narrow := mantissa = 1 <<< f.fraction && f.least < exponent
  let up := 1 <<< (exponent - 2).toNat
  let down := 1 <<< (2 - exponent).toNat
  { low := (4 * mantissa - if narrow then 1 else 2) * up
    value := 4 * mantissa * up
    high := (4 * mantissa + 2) * up
    scale := down
    closed := mantissa % 2 == 0 }

/-- Whether `n * unit`, given over the interval's denominator, rounds to the float. -/
def Interval.contains (i : Interval) (x : Nat) : Bool :=
  if i.closed then i.low ≤ x && x ≤ i.high else i.low < x && x < i.high

/-- The neighbour on a grid of step `num / den` that is inside the interval: the multiple of the
step that is chosen. -/
def pick (i : Interval) (num den : Nat) : Option Nat :=
  -- All sides are multiplied by `den`, so that the step becomes `num * scale`.
  let wide : Interval := { i with low := i.low * den, value := i.value * den, high := i.high * den }
  let step := num * i.scale
  let below := wide.value / step
  let above := below + 1
  match wide.contains (below * step), wide.contains (above * step) with
  | true, true =>
    if wide.value - below * step < above * step - wide.value then some below else some above
  | true, false => some below
  | false, true => some above
  | false, false => none

/-- The power of ten with `value / scale < 10 ^ point`, the least such. -/
def Interval.point (i : Interval) : Int :=
  if i.scale ≤ i.value then (Nat.toDigits 10 (i.value / i.scale)).length
  else
    -- `scale / value` is at least one: count how often ten fits below it.
    let ratio := (i.scale - 1) / i.value
    1 - ((Nat.toDigits 10 ratio).length : Int)

/-- The digits of a number, most significant first, without trailing zeros. -/
def significant (n : Nat) : List Nat :=
  ((Nat.toDigits 10 n).reverse.dropWhile (· == '0')).reverse.map fun c => c.toNat - '0'.toNat

/-- Tries `tries` precisions, from `count` digits on. -/
def search (i : Interval) (point : Int) : (tries count : Nat) → Digits
  | 0, _ => ⟨[], point⟩
  | tries + 1, count =>
    let place := point - count
    let hit :=
      if 0 ≤ place then pick i (Nat.pow 10 place.toNat) 1 else pick i 1 (Nat.pow 10 (-place).toNat)
    match hit with
    | some n => if n = Nat.pow 10 count then ⟨[1], point + 1⟩ else ⟨significant n, point⟩
    | none => search i point tries (count + 1)

/-- The shortest decimal that reads back as the positive float `mantissa * 2 ^ exponent`. Seventeen
digits always do. -/
def shortest (f : Binary.Format) (mantissa : Nat) (exponent : Int) : Digits :=
  let i := interval f mantissa exponent
  search i i.point 17 1

end Protobuf.Decimal
