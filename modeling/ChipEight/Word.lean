import ChipEight.Layout

/-!
Sixteen-bit instruction words and the fields that the instruction format cuts from them. Every
field is a quotient and remainder of the word's value.
-/

namespace ChipEight

abbrev Register := Fin registerCount

abbrev Word := UInt16

namespace Word

/-- The word stored as two bytes, the high byte first. -/
def ofBytes (high low : UInt8) : Word :=
  .ofNat (256 * high.toNat + low.toNat)

/-- The leading four bits, which select the family of instructions. -/
def family (w : Word) : Nat := w.toNat / 4096

def x (w : Word) : Register := Fin.ofNat _ (w.toNat / 256)

def y (w : Word) : Register := Fin.ofNat _ (w.toNat / 16)

def lastNibble (w : Word) : Nat := w.toNat % 16

def lastByte (w : Word) : UInt8 := .ofNat w.toNat

def address (w : Word) : UInt16 := .ofNat (w.toNat % 4096)

def nibbles (w : Word) : List Nat :=
  [w.family, w.x, w.y, w.lastNibble]

theorem family_lt (w : Word) : w.family < 16 := by
  have h := w.toNat_lt
  unfold family
  omega

end Word
end ChipEight
