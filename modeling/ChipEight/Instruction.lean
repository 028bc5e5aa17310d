import ChipEight.Word

/-!
The instructions. Those that differ only in a condition, an operation or a direction share a
constructor; a comment gives the pattern of the word, with a letter for each nibble of a field.
-/

namespace ChipEight

/-- The condition under which a skip passes over the next word. -/
inductive Test where
  /-- Pattern `3xkk`. -/
  | equalByte (x : Register) (byte : UInt8)
  /-- Pattern `4xkk`. -/
  | unequalByte (x : Register) (byte : UInt8)
  /-- Pattern `5xy0`. -/
  | equalRegister (x y : Register)
  /-- Pattern `9xy0`. -/
  | unequalRegister (x y : Register)
  /-- Pattern `Ex9E`: the key that `x` numbers is held. -/
  | keyDown (x : Register)
  /-- Pattern `ExA1`: the key that `x` numbers is not held. -/
  | keyUp (x : Register)
  deriving DecidableEq, Repr

/-- Operations on two registers, `8xy0` to `8xy5` and `8xy7` in this order. -/
inductive Operation where
  | copy | or | and | xor | add | subtract | subtractFrom
  deriving DecidableEq, Repr

inductive Direction where
  | right | left
  deriving DecidableEq, Repr

inductive Instruction where
  /-- Pattern `0000`. -/
  | nop
  /-- Pattern `00E0`. -/
  | clearScreen
  /-- Pattern `00EE`. -/
  | ret
  /-- Pattern `1nnn`. -/
  | jump (target : UInt16)
  /-- Pattern `2nnn`. -/
  | call (target : UInt16)
  /-- Patterns `3xkk`, `4xkk`, `5xy0`, `9xy0`, `Ex9E` and `ExA1`. -/
  | skip (test : Test)
  /-- Pattern `6xkk`. -/
  | loadByte (x : Register) (byte : UInt8)
  /-- Pattern `7xkk`. -/
  | addByte (x : Register) (byte : UInt8)
  /-- Patterns `8xy0` to `8xy5` and `8xy7`. -/
  | combine (operation : Operation) (x y : Register)
  /-- Patterns `8xy6` and `8xyE`, whatever `y` is. -/
  | shift (direction : Direction) (x : Register)
  /-- Pattern `Annn`. -/
  | setIndex (address : UInt16)
  /-- Pattern `Bnnn`. -/
  | jumpOffset (start : UInt16)
  /-- Pattern `Cxkk`. -/
  | random (x : Register) (mask : UInt8)
  /-- Pattern `Dxyn`. -/
  | draw (x y : Register) (rows : UInt8)
  /-- Pattern `Fx07`. -/
  | readDelay (x : Register)
  /-- Pattern `Fx0A`. -/
  | awaitKey (x : Register)
  /-- Pattern `Fx15`. -/
  | setDelay (x : Register)
  /-- Pattern `Fx18`. -/
  | setSound (x : Register)
  /-- Pattern `Fx1E`. -/
  | addIndex (x : Register)
  /-- Pattern `Fx29`. -/
  | glyph (x : Register)
  /-- Pattern `Fx33`. -/
  | storeDecimal (x : Register)
  /-- Pattern `Fx55`. -/
  | storeRegisters (x : Register)
  /-- Pattern `Fx65`. -/
  | loadRegisters (x : Register)
  deriving DecidableEq, Repr

end ChipEight
