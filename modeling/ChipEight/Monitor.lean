import ChipEight.Machine.Step

/-!
A monitor: one machine with its devices, inspected and driven command by command. Steps are taken
only when asked for. A key that is queued to answer a key wait is pressed while the machine waits,
so it is held afterwards and is the latest key.
-/

namespace ChipEight

structure Monitor where
  machine : Machine
  devices : Devices
  deriving DecidableEq

namespace Monitor

def new : Monitor := ⟨.boot, .fresh⟩

/-- A value that overwrites a part of the machine or a timer. -/
inductive Edit where
  | register (x : Register) (value : UInt8)
  | index (address : UInt16)
  | pc (address : UInt16)
  | stack (addresses : List UInt16)
  | delay (value : UInt8)
  | sound (value : UInt8)
  deriving DecidableEq, Repr

inductive Command where
  | load (program : List UInt8)
  | edit (edits : List Edit)
  | queueRandom (bytes : List UInt8)
  | queueAnswers (answers : List (Option Key))
  | poke (address : UInt16) (bytes : List UInt8)
  | peek (address : UInt16) (count : Nat)
  | fetch
  | press (byte : UInt8)
  | release (byte : UInt8)
  | tick
  /-- Asks whether the frame changed since it was last taken, and takes it. -/
  | takeFrame
  | frame
  | executeWord (word : Word)
  | execute (instruction : Instruction)
  | run (limit : Nat)

inductive Reply where
  | done
  | refused (refusal : Refusal)
  | faulted (fault : Fault)
  | trapped (trap : Trap)
  | bytes (bytes : List UInt8)
  | word (word : Word)
  | changed (isChanged : Bool)
  | frame (frame : Frame)
  | ran (steps : Nat) (trap : Option Trap)

def applyEdit (s : Monitor) : Edit → Monitor
  | .register x value => { s with machine := s.machine.setRegister x value }
  | .index address => { s with machine.index := address }
  | .pc address => { s with machine.pc := address }
  | .stack addresses => { s with machine.stack := .ofList addresses }
  | .delay value => { s with devices.timers.delay := value }
  | .sound value => { s with devices.timers.sound := value }

/-- The press that will answer the instruction, if it waits for a key and one is queued. -/
def attend (d : Devices) : Instruction → Devices
  | .awaitKey _ =>
      match d.feed.answers with
      | some key :: _ => { d with keypad := d.keypad.pressKey key }
      | _ => d
  | _ => d

def trapOf (s : Monitor) (fault : Fault) : Trap := ⟨s.machine.pc, fault⟩

/-- Runs `instruction` on `m`. After a fault the monitor's machine is still the one before. -/
def carryOut (s : Monitor) (m : Machine) (instruction : Instruction) :
    Except Trap Unit × Monitor :=
  match m.execute (attend s.devices instruction) instruction with
  | (.ok machine, devices) => (.ok (), ⟨machine, devices⟩)
  | (.error fault, devices) => (.error (s.trapOf fault), { s with devices })

def step (s : Monitor) : Except Trap Unit × Monitor :=
  match s.machine.next with
  | .ok instruction => s.carryOut s.machine.advance instruction
  | .error fault => (.error (s.trapOf fault), s)

structure Run where
  steps : Nat
  trap : Option Trap
  last : Monitor

/-- Steps until a trap, `limit` times at most, after `steps` that were taken before. -/
def runFrom (s : Monitor) (steps : Nat) : Nat → Run
  | 0 => ⟨steps, none, s⟩
  | limit + 1 =>
      match s.step with
      | (.ok (), next) => next.runFrom (steps + 1) limit
      | (.error trap, last) => ⟨steps, some trap, last⟩

def run (s : Monitor) (limit : Nat) : Run := s.runFrom 0 limit

/-- Carries out an instruction where the machine stands, without fetching it. -/
def immediate (s : Monitor) (instruction : Instruction) : Except Trap Unit × Monitor :=
  s.carryOut s.machine instruction

def Reply.ofLoad : Except Refusal Unit → Reply
  | .ok () => .done
  | .error refusal => .refused refusal

def Reply.ofKey : Except Fault Unit → Reply
  | .ok () => .done
  | .error fault => .faulted fault

def Reply.ofStep : Except Trap Unit → Reply
  | .ok () => .done
  | .error trap => .trapped trap

def perform (s : Monitor) : Command → Reply × Monitor
  | .load program =>
      (Machine.load program).map .ofLoad fun machine => { s with machine }
  | .edit edits => (.done, edits.foldl applyEdit s)
  | .queueRandom bytes =>
      (.done, { s with devices.feed.random := s.devices.feed.random ++ bytes })
  | .queueAnswers answers =>
      (.done, { s with devices.feed.answers := s.devices.feed.answers ++ answers })
  | .poke address bytes =>
      match s.machine.memory.store address.toNat bytes with
      | .ok memory => (.done, { s with machine.memory := memory })
      | .error fault => (.faulted fault, s)
  | .peek address count =>
      match s.machine.memory.slice address.toNat count with
      | .ok bytes => (.bytes bytes, s)
      | .error fault => (.faulted fault, s)
  | .fetch =>
      match s.machine.fetch with
      | .ok word => (.word word, s)
      | .error fault => (.faulted fault, s)
  | .press byte => (s.devices.press byte).map .ofKey fun devices => { s with devices }
  | .release byte => (s.devices.release byte).map .ofKey fun devices => { s with devices }
  | .tick => (.done, { s with devices := s.devices.tick })
  | .takeFrame =>
      let (frame, screen) := s.devices.screen.take
      (.changed frame.isSome, { s with devices.screen := screen })
  | .frame => (.frame s.devices.screen.frame, s)
  | .executeWord word =>
      match Instruction.decode word with
      | .ok instruction => (s.immediate instruction).map .ofStep id
      | .error fault => (.trapped (s.trapOf fault), s)
  | .execute instruction => (s.immediate instruction).map .ofStep id
  | .run limit =>
      let ran := s.run limit
      (.ran ran.steps ran.trap, ran.last)

end Monitor
end ChipEight
