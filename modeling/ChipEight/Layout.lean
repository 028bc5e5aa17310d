/-!
The fixed sizes of the machine: memory, the program area, the screen, the call stack, the keypad
and the rate of the timers.
-/

namespace ChipEight

abbrev memorySize : Nat := 4096

/-- Programs are loaded here; the memory below belongs to the interpreter. -/
def programStart : Nat := 0x200

def maxProgramSize : Nat := memorySize - programStart

/-- Twelve bits, the width of an address that an instruction can name. -/
def addressMask : UInt16 := 0xFFF

abbrev screenWidth : Nat := 64

abbrev screenHeight : Nat := 32

/-- The number of return addresses the call stack holds. -/
abbrev stackDepth : Nat := 16

abbrev registerCount : Nat := 16

abbrev keyCount : Nat := 16

/-- Ticks per second of both timers. -/
def timerFrequency : Nat := 60

end ChipEight
