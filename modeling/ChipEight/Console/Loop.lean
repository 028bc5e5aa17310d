import ChipEight.Machine.Step

/-!
The loop that runs a program, one turn at a time. It owns the machine. A turn takes one instruction,
except at a key wait: there the loop parks, and a later turn goes on when the keypad has an answer.
A loop that was cancelled stops before its next instruction, and a wait of it is answered at once.
-/

namespace ChipEight

structure Loop where
  machine : Machine
  /-- The presses that the keypad had counted when the loop parked. -/
  parked : Option UInt64
  deriving DecidableEq

/-- How a turn ends: the loop goes on, or hands back its machine, with a trap after a fault. -/
inductive Turn where
  | goOn (loop : Loop)
  | stop (machine : Machine) (trap : Option Trap)
  deriving DecidableEq

namespace Loop

def ofMachine (m : Machine) : Loop := ⟨m, none⟩

def awaitsKey (m : Machine) : Bool :=
  match m.next with
  | .ok (.awaitKey _) => true
  | _ => false

def step (l : Loop) (d : Devices) : Turn × Devices :=
  match l.machine.step d with
  | (.ok next, devices) => (.goOn (ofMachine next), devices)
  | (.error fault, devices) => (.stop l.machine (some ⟨l.machine.pc, fault⟩), devices)

def park (l : Loop) (d : Devices) : Turn × Devices :=
  (.goOn { l with parked := some d.keypad.presses }, { d with keypad := d.keypad.beginWait })

/-- Carries out the key wait with its answer, a key or none if it was cancelled. -/
def wake (l : Loop) (answer : Option Key) (d : Devices) : Turn × Devices :=
  l.step { d with keypad := d.keypad.endWait, feed.answers := [answer] }

def turn (l : Loop) (cancelled : Bool) (d : Devices) : Turn × Devices :=
  match l.parked with
  | some before =>
      match d.keypad.answer? before cancelled with
      | some answer => l.wake answer d
      | none => (.goOn l, d)
  | none =>
      if cancelled then (.stop l.machine none, d)
      else if awaitsKey l.machine then l.park d
      else l.step d

end Loop
end ChipEight
