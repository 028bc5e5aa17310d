/-!
Writing a list of values to consecutive cells of a vector. Values that would fall past the end
are dropped, so a caller that must not lose any checks the range first.
-/

namespace ChipEight.Cells

variable {α : Type} {n : Nat}

def overwrite (cells : Vector α n) (start : Nat) : List α → Vector α n
  | [] => cells
  | a :: rest => overwrite (cells.setIfInBounds start a) (start + 1) rest

/-- A cell within the written range holds the value meant for it and any other is kept. -/
theorem getElem_overwrite (cells : Vector α n) (start : Nat) (values : List α)
    (k : Nat) (hk : k < n) :
    (overwrite cells start values)[k] =
      if start ≤ k then values[k - start]?.getD cells[k] else cells[k] := by
  induction values generalizing cells start with
  | nil => simp [overwrite]
  | cons a rest ih =>
      rw [overwrite, ih, Vector.getElem_setIfInBounds hk]
      by_cases hlt : start < k
      · have hsub : k - start = k - (start + 1) + 1 := by omega
        simp [show start + 1 ≤ k by omega, show start ≤ k by omega,
          show start ≠ k by omega, hsub]
      · by_cases heq : start = k
        · subst heq
          simp [show ¬ start + 1 ≤ start by omega]
        · simp [show ¬ start + 1 ≤ k by omega, show ¬ start ≤ k by omega, heq]

end ChipEight.Cells
