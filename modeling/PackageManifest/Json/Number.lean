/-!
# Numbers of JSON

Of a number a significand below `2 ^ 64` is kept and the power of ten it is multiplied by. Both are
rounded to double precision before they are multiplied, so a number near the end of the range may be
in it or not by the way it is written.
-/

namespace PackageManifest.Json

def significandBound : Nat := Nat.pow 2 64

def pushDigit? (significand : Nat) (c : Char) : Option Nat :=
  let next := 10 * significand + (c.toNat - '0'.toNat)
  if next < significandBound then some next else none

/-- Takes up the digits before the point. From the first one on that there is no room for, each one
counts as a power of ten. -/
def pushWhole (significand : Nat) : List Char → Nat × Int
  | [] => (significand, 0)
  | c :: cs =>
    match pushDigit? significand c with
    | some next => pushWhole next cs
    | none => (significand, cs.length + 1)

/-- Takes up the digits behind the point, up to the first one that there is no room for. -/
def pushPlaces (significand : Nat) (exponent : Int) : List Char → Nat × Int
  | [] => (significand, exponent)
  | c :: cs =>
    match pushDigit? significand c with
    | some next => pushPlaces next (exponent - 1) cs
    | none => (significand, exponent)

def significandOf (whole places : List Char) : Nat × Int :=
  let (significand, exponent) := pushWhole 0 whole
  pushPlaces significand exponent places

/-- The nearest number whose first 53 binary digits are followed by zeros only; of two that are
equally near, the one whose 53rd digit is zero. -/
def roundDouble (n : Nat) : Nat :=
  let unit := Nat.pow 2 (n.log2 - 52)
  let kept := n / unit
  let lost := n % unit
  let isUp := unit < 2 * lost || (2 * lost == unit && kept % 2 == 1)
  (if isUp then kept + 1 else kept) * unit

/-- The largest number of double precision is rounded from everything below this bound. -/
def doubleBound : Nat := Nat.pow 2 1024 - Nat.pow 2 970

def numberInRange (significand : Nat) (exponent : Int) : Bool :=
  significand == 0 || exponent < 0 ||
    (exponent ≤ 308 &&
      roundDouble significand * roundDouble (Nat.pow 10 exponent.toNat) < doubleBound)

end PackageManifest.Json
