import ChipEight.Console.Call

/-!
A console with any number of callers. A call holds the console from its beginning to its end, except
that a load, a reset, a halt or a wait that finds a loop running lets go of it: the caller is
blocked, and takes the console again to finish its call once the loop that it found has stopped or
another run has begun. Turns of the loop and other calls come in between.
-/

namespace ChipEight

/-- The calls that a running loop blocks. -/
inductive Errand where
  | load (program : List UInt8)
  | reset
  | halt
  | wait
  deriving DecidableEq, Repr

namespace Errand

def call : Errand → Console.Call
  | .load program => .load program
  | .reset => .reset
  | .halt => .halt
  | .wait => .wait

def cancels : Errand → Bool
  | .wait => false
  | .load _ | .reset | .halt => true

/-- What a caller still has to do when nothing blocks it any more. -/
def finish (c : Console) : Errand → Console.Reply × Console
  | .load program => (c.install program).map .ofStart id
  | .reset => (.done, c.wipe)
  | .halt | .wait => c.collect.map .stopped id

end Errand

/-- A caller that is blocked by the loop of the run with the number `run`. -/
structure Blocked where
  errand : Errand
  run : UInt64
  deriving DecidableEq, Repr

structure Shared where
  console : Console
  /-- How many runs there were. It wraps around. -/
  runs : UInt64
  /-- The loop is to stop. -/
  cancel : Bool
  blocked : List Blocked
  deriving DecidableEq

namespace Shared

open Console (Call Reply)

def new : Shared := ⟨.new, 0, false, []⟩

/-- The console as it is and its caller gone, with the call that returned and what it replied. -/
def finish (s : Shared) (errand : Errand) : Option (Call × Reply) × Shared :=
  let (reply, console) := errand.finish s.console
  (some (errand.call, reply), { s with console })

def ask (s : Shared) (errand : Errand) : Option (Call × Reply) × Shared :=
  if s.console.running then
    (none, { s with
      cancel := s.cancel || errand.cancels
      blocked := s.blocked ++ [⟨errand, s.runs⟩] })
  else s.finish errand

/-- A blocked caller looks again, with or without a reason to. -/
def wake (s : Shared) (k : Nat) : Option (Call × Reply) × Shared :=
  match s.blocked[k]? with
  | some b =>
      if s.console.running ∧ b.run = s.runs then (none, s)
      else { s with blocked := s.blocked.eraseIdx k }.finish b.errand
  | none => (none, s)

def start (s : Shared) : Option (Call × Reply) × Shared :=
  match s.console.start with
  | (.ok (), console) =>
      (some (.run, .done), { s with console, runs := s.runs + 1, cancel := false })
  | (.error refusal, console) => (some (.run, .refused refusal), { s with console })

/-- The loop takes a turn, and may have looked for its cancellation before it came. -/
def turn (s : Shared) (looked : Bool) : Shared :=
  { s with console := s.console.turn (looked && s.cancel) }

def call (s : Shared) : Call → Option (Call × Reply) × Shared
  | .load program => s.ask (.load program)
  | .reset => s.ask .reset
  | .halt => s.ask .halt
  | .wait => s.ask .wait
  | .run => s.start
  | other =>
      let (reply, console) := s.console.perform other
      (some (other, reply), { s with console })

inductive Act where
  /-- Somebody calls. -/
  | call (call : Call)
  | wake (k : Nat)
  | turn (looked : Bool)
  | supply (random : List UInt8)

/-- The call that returned, if one did, and what is left. -/
def step (s : Shared) : Act → Option (Call × Reply) × Shared
  | .call call => s.call call
  | .wake k => s.wake k
  | .turn looked => (none, s.turn looked)
  | .supply random => (none, { s with console.devices.feed.random := random })

def after (s : Shared) (acts : List Act) : Shared := acts.foldl (fun s act => (s.step act).2) s

end Shared
end ChipEight
