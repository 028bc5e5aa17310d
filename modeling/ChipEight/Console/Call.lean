import ChipEight.Console.Dump

/-!
The calls of a console as data, so that a history is a list of calls and its outcome a list of
replies.
-/

namespace ChipEight.Console

inductive Call where
  | load (program : List UInt8)
  | run
  | halt
  | wait
  | reset
  | press (byte : UInt8)
  | release (byte : UInt8)
  | tick
  | display
  | takeFrame
  | dump
  deriving DecidableEq, Repr

inductive Reply where
  | done
  | refused (refusal : Refusal)
  | faulted (fault : Fault)
  /-- The collected trap, if there was one. -/
  | stopped (trap : Option Trap)
  /-- The loop still runs and the wait goes on. -/
  | stillRunning
  | frame (frame : Frame)
  | frameIfChanged (frame : Option Frame)
  | text (text : String)
  deriving DecidableEq

def Reply.ofStart : Except Refusal Unit → Reply
  | .ok () => .done
  | .error refusal => .refused refusal

def Reply.ofKey : Except Fault Unit → Reply
  | .ok () => .done
  | .error fault => .faulted fault

def perform (c : Console) : Call → Reply × Console
  | .load program => (c.load program).map .ofStart id
  | .run => c.start.map .ofStart id
  | .halt => c.halt.map .stopped id
  | .wait => if c.running then (.stillRunning, c) else c.collect.map .stopped id
  | .reset => (.done, c.reset)
  | .press byte => (c.press byte).map .ofKey id
  | .release byte => (c.release byte).map .ofKey id
  | .tick => (.done, c.tick)
  | .display => (.frame c.devices.screen.frame, c)
  | .takeFrame => c.takeFrame.map .frameIfChanged id
  | .dump => (.text c.dump, c)

end ChipEight.Console
