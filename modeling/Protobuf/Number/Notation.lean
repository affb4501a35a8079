import Protobuf.Number.Shortest

/-! Written forms of floats.

`positional` writes the shortest digits around a decimal point and never an exponent. `literal` is
the form of a float constant in generated code: positional between `1e-4` and `1e16`, scientific
outside. `exact` writes an integral float with all its digits. -/
namespace Protobuf.Decimal

def digitText (digits : List Nat) : String :=
  String.ofList (digits.map Nat.digitChar)

def zeros (n : Nat) : List Nat :=
  List.replicate n 0

/-- The digits around a decimal point, with at least `places` digits behind it. -/
def Digits.positional (d : Digits) (places : Nat) : String :=
  let count : Int := d.digits.length
  let (whole, fraction) :=
    if d.point ≤ 0 then ([0], zeros (-d.point).toNat ++ d.digits)
    else if count ≤ d.point then (d.digits ++ zeros (d.point - count).toNat, [])
    else (d.digits.take d.point.toNat, d.digits.drop d.point.toNat)
  let fraction := fraction ++ zeros (places - fraction.length)
  if fraction.isEmpty then digitText whole else digitText whole ++ "." ++ digitText fraction

/-- One digit, a point and the others if there are any, and the power of ten. -/
def Digits.scientific (d : Digits) : String :=
  let mantissa := match d.digits with
    | [] => "0"
    | [first] => digitText [first]
    | first :: others => digitText [first] ++ "." ++ digitText others
  mantissa ++ "e" ++ (d.point - 1).repr

/-- Whether a constant is written without an exponent: from `1e-4` up to, not including, `1e16`. -/
def Digits.isPlain (d : Digits) : Bool :=
  -3 ≤ d.point && d.point ≤ 16

def signText (negative : Bool) : String :=
  if negative then "-" else ""

/-- A float as text with the fewest digits, never with an exponent. -/
def display (f : Binary.Format) (bits : Nat) : String :=
  match f.read bits with
  | .nan => "NaN"
  | .infinite negative => signText negative ++ "inf"
  | .finite negative mantissa exponent =>
    signText negative ++
      if mantissa = 0 then "0" else (shortest f mantissa exponent).positional 0

/-- A finite float as a constant: always with a point or an exponent. -/
def constant (f : Binary.Format) (bits : Nat) : String :=
  match f.read bits with
  | .nan => "NaN"
  | .infinite negative => signText negative ++ "inf"
  | .finite negative mantissa exponent =>
    signText negative ++
      if mantissa = 0 then "0.0"
      else
        let d := shortest f mantissa exponent
        if d.isPlain then d.positional 1 else d.scientific

/-- The integer that a float is equal to, if it is finite and integral: its magnitude. -/
def integral? (f : Binary.Format) (bits : Nat) : Option Nat :=
  match f.read bits with
  | .finite _ mantissa exponent =>
    if 0 ≤ exponent then some (mantissa <<< exponent.toNat)
    else
      let unit := 1 <<< (-exponent).toNat
      if mantissa % unit = 0 then some (mantissa / unit) else none
  | _ => none

/-- A float token as text: an integral one with all its digits and one place behind the point, any
other with the fewest digits. -/
def tokenText (f : Binary.Format) (bits : Nat) : String :=
  match integral? f bits with
  | some n => signText (f.signBit ≤ bits) ++ n.repr ++ ".0"
  | none => display f bits

end Protobuf.Decimal
