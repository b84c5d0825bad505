/-!
# Real numbers in a document

A number with a point or an exponent is read as a double: its leading digits are
scaled by a power of ten. It is written back with the fewest digits that single it
out among all doubles, and of those the ones nearest to it, an even last digit if two
are equally near.
-/

namespace JsonnetTree.Json.Real

/-- Keeps the leading digits that fit into 64 bits; each digit dropped raises the
power of ten by one. -/
def leading (digits : Nat) (scale : Int) : Nat × Int :=
  if _h : digits < UInt64.size then (digits, scale) else leading (digits / 10) (scale + 1)
termination_by digits
decreasing_by
  unfold UInt64.size at _h
  omega

/-- Puts digits after others as long as the result fits into 64 bits; each digit taken lowers
the power of ten by one. The first digit that does not fit ends the number. -/
def append (digits : Nat) (scale : Int) : (more : List Nat) → Nat × Int
  | [] => (digits, scale)
  | d :: more =>
    if 10 * digits + d < UInt64.size then append (10 * digits + d) (scale - 1) more
    else (digits, scale)

/-- The double nearest to a power of ten. -/
def tenTo (k : Nat) : Float := Float.ofScientific 1 false k

/-- Multiplies by a power of ten, in at most `steps` steps that each stay in the range of
a double. There is no result when the product is too large. -/
def scaleBy : (steps : Nat) → Float → Int → Option Float
  | 0, x, _ => some x
  | steps + 1, x, e =>
    if e.natAbs ≤ 308 then
      if 0 ≤ e then
        let y := x * tenTo e.natAbs
        if y.isInf then none else some y
      else some (x / tenTo e.natAbs)
    else if x == 0 then some x
    else if 0 ≤ e then none
    else scaleBy steps (x / tenTo 308) (e + 308)

/-- The double that a number is read as, given the number before the point, the digits after
the point and the exponent. The digits after the point follow those that are left of the number
before it. Three steps are enough, because the third division leaves zero. -/
def ofParts (whole : Nat) (fraction : List Nat) (exponent : Int) : Option Float :=
  let (digits, scale) := leading whole 0
  let (digits, scale) := append digits scale fraction
  scaleBy 3 (Float.ofNat digits) (scale + exponent)

/-- A positive double and the interval of reals that round to it, as numerators over one
denominator. The ends belong to the interval when `closed` is true. -/
structure Interval where
  value : Nat
  low : Nat
  high : Nat
  denominator : Nat
  closed : Bool

/-- The interval of a positive double. Below a power of two it is half as long as above. -/
def Interval.ofFloat (x : Float) : Interval :=
  let bits := x.toBits.toNat
  let fraction := bits % Nat.pow 2 52
  let biased := bits / Nat.pow 2 52 % Nat.pow 2 11
  let mantissa := if biased = 0 then fraction else Nat.pow 2 52 + fraction
  let exponent := ((max biased 1 : Nat) : Int) - 1075
  let below := if fraction = 0 ∧ 1 < biased then 1 else 2
  let unit := Nat.pow 2 (exponent - 2).toNat
  { value := 4 * mantissa * unit
    low := (4 * mantissa - below) * unit
    high := (4 * mantissa + 2) * unit
    denominator := Nat.pow 2 (2 - exponent).toNat
    closed := mantissa % 2 = 0 }

/-- Whether `count` steps of ten to the power `power` lie in the interval. -/
def Interval.holds (i : Interval) (count : Nat) (power : Int) : Bool :=
  let point := count * Nat.pow 10 power.toNat * i.denominator
  let down := Nat.pow 10 (-power).toNat
  if i.closed then i.low * down ≤ point && point ≤ i.high * down
  else i.low * down < point && point < i.high * down

/-- Of the multiples of ten to the power `power` in the interval the one nearest to its
value, counted in such steps. Of two that are equally near it is the even one. -/
def Interval.nearest? (i : Interval) (power : Int) : Option Nat :=
  let up := Nat.pow 10 power.toNat * i.denominator
  let value := i.value * Nat.pow 10 (-power).toNat
  let count := value / up
  match i.holds count power, i.holds (count + 1) power with
  | true, true =>
    let rest := 2 * (value % up)
    some (if rest < up ∨ rest = up ∧ count % 2 = 0 then count else count + 1)
  | true, false => some count
  | false, true => some (count + 1)
  | false, false => none

/-- The coarsest power of ten, going down from `power`, that has a multiple in the interval,
with that multiple. -/
def Interval.shortest (i : Interval) : (steps : Nat) → (power : Int) → Nat × Int
  | 0, power => (0, power)
  | steps + 1, power =>
    match i.nearest? power with
    | some count => (count, power)
    | none => i.shortest steps (power - 1)

/-- Zeros to the number of `n`. -/
def zeros (n : Nat) : String := "".pushn '0' n

/-- Writes an exponent, always with its sign. -/
def renderExponent (exponent : Int) : String :=
  String.join ["e", if exponent < 0 then "-" else "+", toString exponent.natAbs]

/-- Writes `digits * 10 ^ power`: with a point from 0.00001 up to sixteen places before
the point, and with an exponent outside of that. -/
def renderDigits (digits : Nat) (power : Int) : String :=
  let text := toString digits
  let point := (text.length : Int) + power
  if 0 ≤ power ∧ point ≤ 16 then text ++ zeros power.toNat ++ ".0"
  else if 0 < point ∧ point ≤ 16 then
    (text.take point.toNat).toString ++ "." ++ (text.drop point.toNat).toString
  else if -5 < point ∧ point ≤ 0 then "0." ++ zeros (-point).toNat ++ text
  else if text.length = 1 then text ++ renderExponent (point - 1)
  else (text.take 1).toString ++ "." ++ (text.drop 1).toString ++ renderExponent (point - 1)

/-- The text of a double that is not negative. -/
def render (x : Float) : String :=
  if x == 0 then "0.0"
  else
    let (digits, power) := (Interval.ofFloat x).shortest 700 308
    renderDigits digits power

end JsonnetTree.Json.Real
