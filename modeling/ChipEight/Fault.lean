import ChipEight.Text.Hex
import ChipEight.Word

/-!
What can go wrong. A `Fault` stops the running program; a `Trap` is a fault with the address of
the instruction that met it; a `Refusal` answers a caller and touches no program.
-/

namespace ChipEight

inductive Fault where
  | invalidInstruction (word : Word)
  /-- A routine of the machine code that the interpreter once ran on. -/
  | unsupportedLegacyCall (word : Word)
  | stackOverflow
  | stackUnderflow
  | invalidKeyIndex (key : UInt8)
  | memoryOutOfBounds (address : Nat)
  deriving DecidableEq, Repr

structure Trap where
  address : UInt16
  fault : Fault
  deriving DecidableEq, Repr

inductive Refusal where
  | programTooLarge (size limit : Nat)
  | noProgramLoaded
  | alreadyRunning
  deriving DecidableEq, Repr

open Text

/-- The text of a word in messages. -/
def Word.text (w : Word) : String := .ofList (Hex.marked 4 w.toNat)

def Fault.message : Fault → String
  | .invalidInstruction w => "invalid instruction " ++ w.text
  | .unsupportedLegacyCall w => "unsupported legacy host call " ++ w.text
  | .stackOverflow => "call stack overflow"
  | .stackUnderflow => "return with an empty call stack"
  | .invalidKeyIndex k => "key index " ++ .ofList (Hex.marked 2 k.toNat) ++ " is outside 0x0..=0xF"
  | .memoryOutOfBounds a => "memory access out of bounds at " ++ .ofList (Hex.marked 4 a)

def Trap.message (t : Trap) : String :=
  t.fault.message ++ " (instruction at " ++ .ofList (Hex.marked 3 t.address.toNat) ++ ")"

def Refusal.message : Refusal → String
  | .programTooLarge size limit =>
      "program is " ++ size.repr ++ " bytes, at most " ++ limit.repr ++ " bytes fit in memory"
  | .noProgramLoaded => "no program loaded"
  | .alreadyRunning => "execution loop is already running"

end ChipEight
