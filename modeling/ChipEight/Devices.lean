import ChipEight.Keypad
import ChipEight.Screen
import ChipEight.Timers

/-!
Everything an instruction can reach outside the machine. What the outside world will answer, bytes
for the random instruction and keys for the key wait, is queued in the `Feed`.
-/

namespace ChipEight

structure Feed where
  random : List UInt8
  /-- One entry for each key wait, and none for a wait that is cancelled. -/
  answers : List (Option Key)
  deriving DecidableEq

namespace Feed

def empty : Feed := ⟨[], []⟩

/-- The next random byte; an exhausted source yields all ones. -/
def takeRandom (feed : Feed) : UInt8 × Feed :=
  match feed.random with
  | [] => (0xFF, feed)
  | byte :: rest => (byte, { feed with random := rest })

/-- The answer to a key wait; a wait that nobody answers is cancelled. -/
def takeAnswer (feed : Feed) : Option Key × Feed :=
  match feed.answers with
  | [] => (none, feed)
  | answer :: rest => (answer, { feed with answers := rest })

end Feed

structure Devices where
  screen : Screen
  keypad : Keypad
  timers : Timers
  feed : Feed
  deriving DecidableEq

namespace Devices

def fresh : Devices := ⟨.blank, .untouched, .zero, .empty⟩

def tick (d : Devices) : Devices := { d with timers := d.timers.tick }

def press (d : Devices) (byte : UInt8) : Except Fault Unit × Devices :=
  (d.keypad.press byte).map id fun keypad => { d with keypad }

def release (d : Devices) (byte : UInt8) : Except Fault Unit × Devices :=
  (d.keypad.release byte).map id fun keypad => { d with keypad }

end Devices
end ChipEight
