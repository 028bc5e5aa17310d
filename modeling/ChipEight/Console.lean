import ChipEight.Console.Loop

/-!
A console runs a program in a loop beside its callers. While the loop runs it owns the machine;
when it stops it hands the machine back, with a trap if a fault stopped it. Callers act between the
turns of the loop.

`start`, `install`, `wipe`, `collect` and `handBack` are what happens at one moment; `load`, `reset`
and `halt` first stop a running loop.

Left out are the log, to which calls and the loop write and which nobody reads back; the joining of
a thread whose loop has handed its machine back; panics and the locks that they poison; and the stop
of the loop when the console itself is dropped.
-/

namespace ChipEight

structure Console where
  /-- The machine while no loop has it. -/
  resting : Option Machine
  loop : Option Loop
  /-- What stopped the last loop, until someone collects it. -/
  trap : Option Trap
  loaded : Bool
  running : Bool
  devices : Devices
  deriving DecidableEq

namespace Console

def new : Console where
  resting := some .boot
  loop := none
  trap := none
  loaded := false
  running := false
  devices := .fresh

def awaitingKey (c : Console) : Bool := c.devices.keypad.waiting

def soundActive (c : Console) : Bool := c.devices.timers.beeping

/-! The loop. -/

def handBack (c : Console) (m : Machine) (trap : Option Trap) : Console :=
  { c with resting := some m, loop := none, trap, running := false }

def turn (c : Console) (cancelled : Bool) : Console :=
  match c.loop with
  | none => c
  | some l =>
      match l.turn cancelled c.devices with
      | (.goOn next, devices) => { c with loop := some next, devices }
      | (.stop m trap, devices) => { c with devices }.handBack m trap

/-- Turns that nobody cancels. -/
def turns (c : Console) : Nat → Console
  | 0 => c
  | n + 1 => (c.turn false).turns n

/-- Whether the next instruction jumps to itself. -/
def spins (m : Machine) : Bool :=
  match m.next with
  | .ok (.jump target) => target == m.pc
  | _ => false

/-- Whether more turns would show nothing new. -/
def settled (c : Console) : Bool :=
  match c.loop with
  | none => true
  | some l =>
      match l.parked with
      | some before => (c.devices.keypad.answer? before false).isNone
      | none => spins l.machine

/-- Cancels the loop and sees it stop: a parked loop needs one turn to leave its wait. -/
def stop (c : Console) : Console := (c.turn true).turn true

/-! What callers do. -/

/-- Gives the machine to a new loop. A trap that nobody collected is dropped. -/
def start (c : Console) : Except Refusal Unit × Console :=
  if c.running then (.error .alreadyRunning, c)
  else
    let c := { c with trap := none }
    match c.loaded, c.resting with
    | true, some m =>
        (.ok (), { c with resting := none, loop := some (.ofMachine m), running := true })
    | _, _ => (.error .noProgramLoaded, c)

/-- A clear screen and timers at zero; the keypad is the caller's and is kept. -/
def renewDevices (d : Devices) : Devices :=
  { d with screen := d.screen.clear, timers := .zero }

/-- Puts the machine at power on in place, with no program. -/
def wipe (c : Console) : Console :=
  { c with
    resting := some .boot
    trap := none
    loaded := false
    devices := renewDevices c.devices }

/-- Puts a program in place. One that does not fit leaves the console without a program. -/
def install (c : Console) (program : List UInt8) : Except Refusal Unit × Console :=
  let (accepted, m) := Machine.load program
  (accepted, { c.wipe with resting := some m, loaded := accepted.isOk })

def collect (c : Console) : Option Trap × Console :=
  (c.trap, { c with trap := none })

def load (c : Console) (program : List UInt8) : Except Refusal Unit × Console :=
  c.stop.install program

def reset (c : Console) : Console := c.stop.wipe

def halt (c : Console) : Option Trap × Console := c.stop.collect

/-- A press is seen by a parked loop at its next turn. -/
def press (c : Console) (byte : UInt8) : Except Fault Unit × Console :=
  (c.devices.press byte).map id fun devices => { c with devices }

def release (c : Console) (byte : UInt8) : Except Fault Unit × Console :=
  (c.devices.release byte).map id fun devices => { c with devices }

def tick (c : Console) : Console := { c with devices := c.devices.tick }

/-- The frame if it changed since it was last taken. -/
def takeFrame (c : Console) : Option Frame × Console :=
  let (frame, screen) := c.devices.screen.take
  (frame, { c with devices.screen := screen })

end Console
end ChipEight
