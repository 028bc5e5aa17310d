import ChipEight.Console.Shared
import ChipEight.Keypad.Waiter

/-!
A console among threads, in pieces that nothing divides. The cancellation of the loop belongs neither
to the console nor to the keypad, so a caller that stops the loop has the console over several
pieces: it sets the cancellation, wakes a key wait, and only then lets go and is blocked. The thread
of the loop takes a piece for each look at the cancellation, for each instruction and for each
movement of a key wait, and takes the console once, to hand its machine back.
-/

namespace ChipEight

/-- Where the thread of the loop is. -/
inductive Place where
  /-- About to look for its cancellation. -/
  | checking
  /-- Has found none, and is about to carry out an instruction. -/
  | ready
  | waiting (waiter : Keypad.Waiter)
  /-- Out of the loop, and about to hand the machine back. -/
  | leaving (trap : Option Trap)
  deriving DecidableEq

namespace Place

def hasKeypad : Place → Bool
  | .waiting waiter => waiter.hasKeypad
  | .checking | .ready | .leaving _ => false

def hear (event : Keypad.Event) : Place → Place
  | .waiting waiter => .waiting (waiter.hear event)
  | place => place

end Place

/-- What the caller that has the console does next. -/
inductive Piece where
  /-- Sets the cancellation. -/
  | cancel (errand : Errand)
  /-- Wakes the loop if it waits for a key. -/
  | interrupt (errand : Errand)
  /-- Lets go of the console until the loop has stopped. -/
  | block (errand : Errand)
  /-- Takes back the cancellation of the run before. -/
  | clear
  /-- Gives the machine to a new loop and lets go of the console. -/
  | launch
  deriving DecidableEq, Repr

structure Threads where
  shared : Shared
  place : Place
  /-- The next piece of the caller that has the console, if one has it. -/
  holder : Option Piece
  deriving DecidableEq

namespace Threads

open Console (Call)

def new : Threads := ⟨.new, .checking, none⟩

/-! What callers do. An act that has to wait for the console or for the keypad does not take place. -/

def deliver (s : Threads) (event : Keypad.Event) : Option Threads :=
  if s.place.hasKeypad && event.takesKeypad then none
  else some { s with
    shared.console.devices.keypad := (s.shared.console.devices.keypad.deliver event).2
    place := s.place.hear event }

def ask (s : Threads) (errand : Errand) : Option Threads :=
  if s.holder.isSome then none
  else if s.shared.console.running && errand.cancels then
    some { s with holder := some (.cancel errand) }
  else some { s with shared := (s.shared.ask errand).2 }

def start (s : Threads) : Option Threads :=
  if s.holder.isSome then none
  else
    match s.shared.console.start with
    | (.ok (), _) => some { s with holder := some .clear }
    | (.error _, console) => some { s with shared.console := console }

def call (s : Threads) : Call → Option Threads
  | .load program => s.ask (.load program)
  | .reset => s.ask .reset
  | .halt => s.ask .halt
  | .wait => s.ask .wait
  | .run => s.start
  | .press byte => s.deliver (.press byte)
  | .release byte => s.deliver (.release byte)
  | .dump => if s.holder.isSome then none else some s
  | other => some { s with shared := (s.shared.call other).2 }

/-- The caller that has the console goes on. -/
def proceed (s : Threads) : Option Threads :=
  match s.holder with
  | none => none
  | some (.cancel errand) =>
      some { s with shared.cancel := true, holder := some (.interrupt errand) }
  | some (.interrupt errand) =>
      (s.deliver .interrupt).map fun next => { next with holder := some (.block errand) }
  | some (.block errand) =>
      if s.shared.console.running then
        some { s with
          shared.blocked := s.shared.blocked ++ [⟨errand, s.shared.runs⟩]
          holder := none }
      else some { s with shared := (s.shared.finish errand).2, holder := none }
  | some .clear => some { s with shared.cancel := false, holder := some .launch }
  | some .launch =>
      some { s with
        shared.console := s.shared.console.start.2
        shared.runs := s.shared.runs + 1
        place := .checking
        holder := none }

def wake (s : Threads) (k : Nat) : Option Threads :=
  if s.holder.isSome then none else some { s with shared := (s.shared.wake k).2 }

/-! What the thread of the loop does. -/

/-- An instruction is through: the loop looks for its cancellation again, or leaves on a fault. -/
def settle (s : Threads) : Turn × Devices → Threads
  | (.goOn loop, devices) =>
      { s with
        shared.console := { s.shared.console with loop := some loop, devices }
        place := .checking }
  | (.stop _ trap, devices) =>
      { s with shared.console.devices := devices, place := .leaving trap }

/-- Goes into a key wait. -/
def enter (s : Threads) (l : Loop) : Threads :=
  let (waiter, keypad) := Keypad.Waiter.enter s.shared.console.devices.keypad
  { s with
    shared.console.loop := some { l with parked := some s.shared.console.devices.keypad.presses }
    shared.console.devices.keypad := keypad
    place := .waiting waiter }

def advance (s : Threads) (l : Loop) (waiter : Keypad.Waiter) : Threads :=
  let devices := s.shared.console.devices
  match waiter.advance devices.keypad s.shared.cancel with
  | (.returned answer, keypad) => s.settle (l.wake answer { devices with keypad })
  | (waiter, keypad) =>
      { s with shared.console.devices.keypad := keypad, place := .waiting waiter }

def move (s : Threads) (l : Loop) : Option Threads :=
  match s.place with
  | .checking => some { s with place := if s.shared.cancel then .leaving none else .ready }
  | .ready =>
      if Loop.awaitsKey l.machine then some (s.enter l)
      else some (s.settle (l.step s.shared.console.devices))
  | .waiting waiter => some (s.advance l waiter)
  | .leaving trap =>
      if s.holder.isSome then none
      else some { s with shared.console := s.shared.console.handBack l.machine trap }

inductive Act where
  /-- Somebody calls. -/
  | call (call : Call)
  | proceed
  /-- A blocked caller takes the console and looks again, with or without a reason to. -/
  | wake (k : Nat)
  /-- The thread of the loop goes on, and if it is parked it wakes. -/
  | loop
  | supply (random : List UInt8)

def step (s : Threads) : Act → Option Threads
  | .call call => s.call call
  | .proceed => s.proceed
  | .wake k => s.wake k
  | .loop => s.shared.console.loop.bind s.move
  | .supply random => some { s with shared.console.devices.feed.random := random }

/-- The act brings an instruction to its end. -/
def completes (s : Threads) : Act → Bool
  | .loop =>
      match s.shared.console.loop, s.place with
      | some l, .ready => !Loop.awaitsKey l.machine
      | some _, .waiting waiter =>
          (waiter.advance s.shared.console.devices.keypad s.shared.cancel).1.ended
      | _, _ => false
  | _ => false

def after (s : Threads) : List Act → Option Threads
  | [] => some s
  | act :: rest => (s.step act).bind (·.after rest)

end Threads
end ChipEight
