import ChipEight.Machine

/-!
The machine that a load leaves, as a whole and byte by byte. It is a function of the program alone:
the font, the program and zeros in memory, the program counter at the program's start, and zeros in
everything else. A program that does not fit leaves the machine of power on.
-/

namespace ChipEight

namespace Memory

/-- The font below, the program at its place, and zeros in the rest. -/
def holding (program : List UInt8) : Memory :=
  .ofFn fun k =>
    if k.val < 0x50 then Font.sheet.getD k 0
    else if programStart ≤ k.val ∧ k.val < programStart + program.length then
      program.getD (k - programStart) 0
    else 0

theorem getElem_blank (k : Nat) (hk : k < memorySize) : blank[k] = Font.sheet.getD k 0 := by
  simp [blank, Cells.getElem_overwrite, List.getD_eq_getElem?_getD]

theorem overwrite_blank (program : List UInt8) :
    Cells.overwrite blank programStart program = holding program := by
  apply Vector.ext
  intro k hk
  rw [Cells.getElem_overwrite, getElem_blank, holding, Vector.getElem_ofFn]
  dsimp only
  have hsheet : Font.sheet.length = 0x50 := Font.length_sheet
  have hbelow : 0x50 ≤ programStart := by decide
  by_cases hfont : k < 0x50
  · rw [if_pos hfont, if_neg (by omega)]
  · have hzero : Font.sheet.getD k 0 = 0 := by
      rw [List.getD_eq_getElem?_getD, List.getElem?_eq_none (by omega), Option.getD_none]
    rw [if_neg hfont, hzero]
    by_cases hstart : programStart ≤ k
    · by_cases hend : k < programStart + program.length
      · rw [if_pos hstart, if_pos ⟨hstart, hend⟩, List.getD_eq_getElem?_getD]
      · rw [if_pos hstart, if_neg (by omega), List.getElem?_eq_none (by omega), Option.getD_none]
    · rw [if_neg hstart, if_neg (by omega)]

end Memory

namespace Machine

variable {program : List UInt8}

theorem load_of_fits (h : program.length ≤ maxProgramSize) :
    load program =
      (.ok (),
        { registers := .replicate registerCount 0
          index := 0
          pc := 0x200
          stack := ⟨.replicate stackDepth 0, 0⟩
          memory := .holding program }) := by
  rw [load, if_pos h, Memory.overwrite_blank]
  rfl

theorem load_of_tooLarge (h : maxProgramSize < program.length) :
    load program = (.error (.programTooLarge program.length maxProgramSize), boot) := by
  rw [load, if_neg (Nat.not_le.mpr h)]

/-- A load that is refused leaves nothing of the program. -/
theorem boot_of_load_refused (h : (load program).1.isOk = false) : (load program).2 = boot := by
  by_cases hfits : program.length ≤ maxProgramSize
  · rw [load_of_fits hfits] at h
    cases h
  · rw [load_of_tooLarge (Nat.not_le.mp hfits)]

end Machine
end ChipEight
