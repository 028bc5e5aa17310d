/-!
Decimal numerals. The reader of natural numbers takes digits alone, with one plus sign before them
if any; `value_digits` says that it inverts the writer.
-/

namespace ChipEight.Text.Decimal

def digits (n : Nat) : List Char := Nat.toDigits 10 n

/-- The number that a run of digits denotes. -/
def value (cs : List Char) : Nat := Nat.ofDigitChars 10 cs 0

def natural? (cs : List Char) : Option Nat :=
  let unsigned := match cs with
    | '+' :: rest => rest
    | _ => cs
  if unsigned.isEmpty || !unsigned.all Char.isDigit then none else some (value unsigned)

theorem value_digits (n : Nat) : value (digits n) = n :=
  Nat.ofDigitChars_toDigits (by decide) (by decide)

end ChipEight.Text.Decimal
