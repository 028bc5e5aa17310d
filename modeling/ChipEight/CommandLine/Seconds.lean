import ChipEight.Pace
import ChipEight.Text.Decimal

/-!
Times given on the command line as decimal numbers, perhaps with an exponent. The value is kept
exactly; it counts as a double-precision number does where that differs, which is where a tiny
number vanishes and a huge one leaves the range of a duration.
-/

namespace ChipEight.CommandLine

inductive Seconds where
  /-- The mantissa times ten to the exponent. -/
  | finite (negative : Bool) (mantissa : Nat) (exponent : Int)
  | infinite
  | notANumber
  deriving DecidableEq, Repr

namespace Seconds

open Text

/-- A sign, if there is one, and what follows it. -/
def splitSign : List Char → Bool × List Char
  | '-' :: rest => (true, rest)
  | '+' :: rest => (false, rest)
  | cs => (false, cs)

/-- The exponent that ends a numeral, zero where there is none. -/
def exponent? : List Char → Option Int
  | [] => some 0
  | mark :: rest =>
      let (negative, digits) := splitSign rest
      if (mark = 'e' ∨ mark = 'E') ∧ digits ≠ [] ∧ digits.all Char.isDigit then
        let size : Int := Decimal.value digits
        some (if negative then -size else size)
      else none

/-- A numeral without its sign: digits with at most one point among them, and an exponent. -/
def numeral? (negative : Bool) (cs : List Char) : Option Seconds :=
  let (whole, rest) := cs.span Char.isDigit
  let (fraction, rest) := match rest with
    | '.' :: tail => tail.span Char.isDigit
    | _ => ([], rest)
  if whole.isEmpty && fraction.isEmpty then none
  else
    (exponent? rest).map fun exponent =>
      .finite negative (Decimal.value (whole ++ fraction)) (exponent - fraction.length)

def ofText? (text : String) : Option Seconds :=
  let (negative, cs) := splitSign text.toList
  let name := String.ofList (cs.map Char.toLower)
  if name = "inf" ∨ name = "infinity" then some .infinite
  else if name = "nan" then some .notANumber
  else numeral? negative cs

/-- The quotient to the nearest whole number. -/
def divideRounded (numerator denominator : Nat) : Nat :=
  (2 * numerator + denominator) / (2 * denominator)

/-- Half the least positive number is two to the power -1075: up to there a number is zero. -/
def vanishes (numerator denominator : Nat) : Bool :=
  numerator <<< 1075 ≤ denominator

/-- Durations are below the size of 64 bits, and the numbers from 1024 below it round to it. -/
def tooLong (numerator denominator : Nat) : Bool :=
  (UInt64.size - 1024) * denominator ≤ numerator

/-- The duration in nanoseconds; none for a time that is negative, too long or no number. -/
def nanoseconds? : Seconds → Option Nat
  | .finite negative mantissa exponent =>
      let magnitude : Int := (Decimal.digits mantissa).length + exponent
      if mantissa = 0 ∨ magnitude < -400 then some 0
      else if 25 < magnitude then none
      else
        let numerator := mantissa * Nat.pow 10 exponent.toNat
        let denominator := Nat.pow 10 (-exponent).toNat
        if vanishes numerator denominator then some 0
        else if negative || tooLong numerator denominator then none
        else some (divideRounded (numerator * Pace.nanosPerSecond) denominator)
  | .infinite | .notANumber => none

end ChipEight.CommandLine.Seconds
