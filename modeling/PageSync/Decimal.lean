/-!
# Decimal notation of binary numbers

A double is written with the fewest decimal digits that read back as the same double, always in
positional notation. The grids of multiples of a power of ten are tried from the coarsest to the
finest; on each of them only the two neighbours of the number can be its nearest point, so the
first grid on which one of them rounds to the number gives the fewest digits.
-/

namespace PageSync

/-- A number in decimal notation, `digits * 10 ^ exponent`. -/
structure Decimal where
  /-- All significant digits, read as a number. -/
  digits : Nat
  /-- The place of the last digit. -/
  exponent : Int
deriving DecidableEq

namespace Decimal

/-! ### The numbers that round to a double -/

/-- The numbers between two bounds, around a centre. All three are multiples of one power of two
that is not recorded here. -/
structure Interval where
  /-- The lower bound. -/
  lower : Nat
  /-- The number itself. -/
  centre : Nat
  /-- The upper bound. -/
  upper : Nat
  /-- Whether the bounds belong to the interval. -/
  closed : Bool

/-- Multiplies all numbers of an interval. -/
def Interval.scale (interval : Interval) (factor : Nat) : Interval :=
  { interval with
    lower := interval.lower * factor
    centre := interval.centre * factor
    upper := interval.upper * factor }

/-- Whether a number lies in an interval. -/
def Interval.holds (interval : Interval) (number : Nat) : Bool :=
  if interval.closed then interval.lower ≤ number && number ≤ interval.upper
  else interval.lower < number && number < interval.upper

/-- The multiple of a unit that lies in an interval and nearest to its centre, if there is one;
of two at the same distance it is the larger one. The result counts units. -/
def Interval.multiple? (interval : Interval) (unit : Nat) : Option Nat :=
  let below := interval.centre / unit
  match interval.holds (below * unit), interval.holds ((below + 1) * unit) with
  | true, true => some (if 2 * (interval.centre % unit) < unit then below else below + 1)
  | true, false => some below
  | false, true => some (below + 1)
  | false, false => none

/-- The numbers that round to `mantissa * 2 ^ exponent`, as multiples of `2 ^ (exponent - 2)`. The
bounds lie halfway to the neighbouring doubles, of which the lower one is nearer at the start of a
binade; they round to the number if its mantissa is even. -/
def rounding (mantissa : Nat) (startsBinade : Bool) : Interval where
  lower := 4 * mantissa - if startsBinade then 1 else 2
  centre := 4 * mantissa
  upper := 4 * mantissa + 2
  closed := mantissa % 2 == 0

/-- Looks for a point of an interval on the grids of multiples of `10 ^ exponent`,
`10 ^ (exponent - 1)` and so on. The interval is given in multiples of `2 ^ binary`. -/
def onGrids (interval : Interval) (binary : Int) : Nat → Int → Decimal
  | 0, exponent => ⟨interval.centre, exponent⟩
  | grids + 1, exponent =>
    let unit := 10 ^ exponent.toNat * 2 ^ (-binary).toNat
    match (interval.scale (2 ^ binary.toNat * 10 ^ (-exponent).toNat)).multiple? unit with
    | some digits => ⟨digits, exponent⟩
    | none => onGrids interval binary grids (exponent - 1)

/-- The decimal number with the fewest digits among those that round to
`mantissa * 2 ^ exponent`, and of these the nearest one. Doubles lie between `10 ^ (-324)` and
`10 ^ 309`, and seventeen digits tell them apart, which bounds the number of grids. -/
def shortest (mantissa : Nat) (exponent : Int) (startsBinade : Bool) : Decimal :=
  onGrids (rounding mantissa startsBinade) (exponent - 2) 660 309

/-! ### Text -/

/-- The digits of a decimal number, with a point between them or zeros around them so that the
exponent needs no mention. -/
def text (decimal : Decimal) : String :=
  let digits := Nat.toDigits 10 decimal.digits
  let places := (-decimal.exponent).toNat
  if 0 ≤ decimal.exponent then
    String.ofList (digits ++ List.replicate decimal.exponent.toNat '0')
  else if places < digits.length then
    String.ofList (digits.take (digits.length - places)) ++ "." ++
      String.ofList (digits.drop (digits.length - places))
  else "0." ++ String.ofList (List.replicate (places - digits.length) '0' ++ digits)

/-- The text of a double: its sign if it is negative, then its shortest decimal notation. -/
def ofFloat (value : Float) : String :=
  let bits : Nat := value.toBits.toNat
  let field : Nat := bits / (1 <<< 52) % (1 <<< 11)
  let fraction : Nat := bits % (1 <<< 52)
  let sign := if 1 <<< 63 ≤ bits then "-" else ""
  if field = 2047 then
    if fraction = 0 then sign ++ "inf" else "NaN"
  else if field = 0 then
    if fraction = 0 then sign ++ "0" else sign ++ (shortest fraction (-1074) false).text
  else
    sign ++ (shortest ((1 <<< 52) + fraction) ((field : Int) - 1075) (fraction == 0 && 1 < field)).text

/-! ### Reading -/

/-- The double nearest to a decimal number. Exponents far beyond those of all doubles are decided
by the size of the number alone. -/
def nearest (decimal : Decimal) : Float :=
  let size := (Nat.toDigits 10 decimal.digits).length + decimal.exponent
  if decimal.digits = 0 then 0
  else if 400 < size then 1 / 0
  else if size < -400 then 0
  else Float.ofScientific decimal.digits (decimal.exponent < 0) decimal.exponent.natAbs

end Decimal

end PageSync
