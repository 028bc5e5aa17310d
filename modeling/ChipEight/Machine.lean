import ChipEight.CallStack
import ChipEight.Memory

/-!
What a program owns: registers, index, program counter, call stack and memory. Screen, keypad and
timers are devices and live outside.
-/

namespace ChipEight

structure Machine where
  registers : Vector UInt8 registerCount
  index : UInt16
  pc : UInt16
  stack : CallStack
  memory : Memory
  deriving DecidableEq

namespace Machine

/-- The machine at power on, with no program. -/
def boot : Machine where
  registers := .replicate registerCount 0
  index := 0
  pc := 0
  stack := .empty
  memory := .blank

/-- The machine about to run `program`, or at power on if the program does not fit. Nothing of an
earlier program remains. -/
def load (program : List UInt8) : Except Refusal Unit × Machine :=
  if program.length ≤ maxProgramSize then
    (.ok (), { boot with
      pc := .ofNat programStart
      memory := Cells.overwrite Memory.blank programStart program })
  else
    (.error (.programTooLarge program.length maxProgramSize), boot)

def register (m : Machine) (x : Register) : UInt8 := m.registers[x]

def setRegister (m : Machine) (x : Register) (value : UInt8) : Machine :=
  { m with registers := m.registers.set x value }

/-- The register that offset jumps add. -/
def base : Register := ⟨0, by decide⟩

/-- The register that carries, borrows and collisions are reported in. -/
def flag : Register := ⟨0xF, by decide⟩

def setFlag (m : Machine) (value : Bool) : Machine :=
  m.setRegister flag (if value then 1 else 0)

def fetch (m : Machine) : Except Fault Word :=
  m.memory.word m.pc.toNat

end Machine
end ChipEight
