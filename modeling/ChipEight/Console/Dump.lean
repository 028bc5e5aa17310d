import ChipEight.Console
import ChipEight.Text.Decimal

/-!
The diagnostic dump: a line on the devices, then registers, counters, call stack and memory. A
running loop owns the machine, and its dump shows the devices alone.
-/

namespace ChipEight.Dump

open Text

def keyText : Option Key → List Char
  | none => "none".toList
  | some key => Hex.digits key

def deviceLine (d : Devices) : List Char :=
  "DT: ".toList ++ Decimal.digits d.timers.delay.toNat ++
  "  ST: ".toList ++ Decimal.digits d.timers.sound.toNat ++
  "  Key: ".toList ++ keyText d.keypad.latest

def registerEntry (m : Machine) (x : Register) : List Char :=
  'V' :: Hex.digits x ++ ": ".toList ++ Hex.marked 2 (m.register x).toNat ++ "  ".toList

/-- Four lines of four registers. -/
def registerLines (m : Machine) : List (List Char) :=
  (List.finRange 4).map fun row =>
    (List.finRange 4).flatMap fun column =>
      registerEntry m ⟨4 * row.val + column.val, by simp only [registerCount]; omega⟩

def counterLine (m : Machine) : List Char :=
  "I: ".toList ++ Hex.marked 3 m.index.toNat ++
  "  PC: ".toList ++ Hex.marked 3 m.pc.toNat ++
  "  SP: ".toList ++ Decimal.digits m.stack.depth

def stackLine (m : Machine) : List Char :=
  let addresses := m.stack.live.map fun address => Hex.padded 3 address.toNat
  "Stack: [".toList ++ ", ".toList.intercalate addresses ++ "]".toList

def byteAt (m : Machine) (line : Fin 256) (column : Fin 16) : UInt8 :=
  m.memory.get ⟨16 * line.val + column.val, by simp only [memorySize]; omega⟩

/-- A line for each sixteen bytes. -/
def memoryLines (m : Machine) : List (List Char) :=
  (List.finRange 256).map fun line =>
    Hex.marked 4 (16 * line.val) ++ ':' ::
      (List.finRange 16).flatMap fun column =>
        ' ' :: Hex.padded 2 (byteAt m line column).toNat

def machineLines (m : Machine) : List (List Char) :=
  registerLines m ++ [counterLine m, stackLine m]

def memorySection (m : Machine) : List (List Char) :=
  "Memory:".toList :: memoryLines m

def unavailableLine : List Char := "registers and memory unavailable while running".toList

/-- The dump up to the memory. -/
def headLines (machine : Option Machine) (d : Devices) : List (List Char) :=
  match machine with
  | some m => deviceLine d :: machineLines m
  | none => [deviceLine d, unavailableLine]

def lines (machine : Option Machine) (d : Devices) : List (List Char) :=
  match machine with
  | some m => headLines (some m) d ++ memorySection m
  | none => headLines none d

/-- Every line ends in a line feed. -/
def text (lines : List (List Char)) : String :=
  .ofList (lines.flatMap fun line => line ++ ['\n'])

end Dump

namespace Console

def dump (c : Console) : String := Dump.text (Dump.lines c.resting c.devices)

end ChipEight.Console
