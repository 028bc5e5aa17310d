/-!
Upper-case hexadecimal numerals. A width is a minimum: zeros fill a short numeral and a long one
is never cut, so `value_padded` reads every numeral back.
-/

namespace ChipEight.Text.Hex

def digits (n : Nat) : List Char :=
  (Nat.toDigits 16 n).map Char.toUpper

/-- The numeral of `n` with at least `width` digits. -/
def padded (width n : Nat) : List Char :=
  (digits n).leftpad width '0'

/-- The numeral of `n` with at least `width` digits, marked as hexadecimal. -/
def marked (width n : Nat) : List Char :=
  '0' :: 'x' :: padded width n

def digitValue (c : Char) : Nat :=
  if c.isDigit then c.toNat - '0'.toNat else c.toNat - 'A'.toNat + 10

def value (cs : List Char) : Nat :=
  cs.foldl (fun total c => 16 * total + digitValue c) 0

private theorem digitValue_toUpper_digitChar :
    ∀ d : Fin 16, digitValue d.val.digitChar.toUpper = d.val := by
  decide

theorem value_append_singleton (cs : List Char) (c : Char) :
    value (cs ++ [c]) = 16 * value cs + digitValue c := by
  simp [value]

theorem value_digits (n : Nat) : value (digits n) = n := by
  induction n using Nat.strongRecOn with
  | ind n ih =>
      rw [digits, Nat.toDigits_eq_if (by decide)]
      split
      · rename_i h
        simpa [value] using digitValue_toUpper_digitChar ⟨n, h⟩
      · rename_i h
        have hlast := digitValue_toUpper_digitChar ⟨n % 16, Nat.mod_lt _ (by decide)⟩
        have hinit : value (digits (n / 16)) = n / 16 := ih _ (by omega)
        rw [digits] at hinit
        simp only at hlast
        rw [List.map_append, List.map_singleton, value_append_singleton, hinit, hlast]
        omega

private theorem value_replicate_zero_append (k : Nat) (cs : List Char) :
    value (List.replicate k '0' ++ cs) = value cs := by
  induction k with
  | zero => rfl
  | succ k ih => exact ih

theorem value_padded (width n : Nat) : value (padded width n) = n := by
  rw [padded, List.leftpad, value_replicate_zero_append, value_digits]

end ChipEight.Text.Hex
