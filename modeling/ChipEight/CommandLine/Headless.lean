import ChipEight.CommandLine.Record
import ChipEight.Console.Dump
import ChipEight.Layout
import ChipEight.Pace

/-!
A headless run: a console whose time passes in periods, each of which begins with a tick of the
timers. Within a period the loop takes the turns that its pace allows, and no turn begins at or
after the time limit. A run is over when the loop has stopped or the limit has been reached.
-/

namespace ChipEight.CommandLine

/-- What a finished program leaves behind. -/
structure Outcome where
  exitCode : Nat
  output : String
  errors : String
  deriving DecidableEq, Repr

structure Headless where
  console : Console
  pace : Pace
  /-- In nanoseconds. -/
  limit : Option Nat
  dump : Bool
  /-- The periods that have passed. -/
  elapsed : Nat
  /-- What the main thread has logged. -/
  records : List Record

namespace Headless

/-- The length of a period in nanoseconds. -/
def period : Nat := Pace.nanosPerSecond / timerFrequency

/-- The turns in a period of a loop without a pace. -/
def burst : Nat := 10000

/-- The turns that begin before `time` if one begins at each multiple of the pause. -/
def begun (pause time : Nat) : Nat := (time + pause - 1) / pause

def start (console : Console) (pace : Pace) (limit : Option Nat) (dump : Bool)
    (records : List Record) : Headless :=
  { console := console.start.2, pace, limit, dump, elapsed := 0, records }

def now (h : Headless) : Nat := h.elapsed * period

def ended (h : Headless) : Bool :=
  !h.console.running || h.limit.any (· ≤ h.now)

/-- The turns that the current period allows. -/
def allowance (h : Headless) : Nat :=
  if h.pace.pause = 0 then burst
  else
    let next := h.now + period
    let last := (h.limit.map (min next)).getD next
    begun h.pace.pause last - begun h.pace.pause h.now

/-- One period. The turns of a loop that has settled are not worth taking one by one. -/
def pass (h : Headless) : Headless :=
  let console := h.console.tick
  { h with
    console := if console.settled then console else console.turns h.allowance
    elapsed := h.elapsed + 1 }

/-- Passes periods until the run is over, `periods` at most. -/
def play (h : Headless) : Nat → Headless
  | 0 => h
  | periods + 1 => if h.ended then h else h.pass.play periods

/-- The final frame, and the dump if it was asked for or a trap stopped the program. By then the
logger has written what it writes; the text of the trap comes after that. -/
def finish (h : Headless) (sink : Sink) : Outcome :=
  let (trap, console) := h.console.halt
  let stopped := console.resting.elim [] fun m => Record.stop m.pc trap
  let frame := console.devices.screen.frame.text ++ "\n"
  let dump := console.dump ++ "\n"
  { exitCode := if trap.isSome then 1 else 0
    output := if h.dump || trap.isSome then frame ++ dump else frame
    errors := sink h.records stopped ++ (trap.map fun t => t.message ++ "\n").getD "" }

end Headless
end ChipEight.CommandLine
