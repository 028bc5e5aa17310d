import ChipEight.Keypad

/-!
A wait among the events of other callers, delivered to the parked waiter one at a time. The first
press ends it; if none comes, it ends by cancellation.
-/

namespace ChipEight.Keypad

inductive Event where
  | press (byte : UInt8)
  | release (byte : UInt8)
  | query (byte : UInt8)
  /-- Wakes all waiters, so that they look for a cancellation. -/
  | interrupt
  deriving DecidableEq, Repr

inductive Reply where
  | done
  | held (isHeld : Bool)
  | waiting (isWaiting : Bool)
  deriving DecidableEq, Repr

def deliver (pad : Keypad) : Event → Except Fault Reply × Keypad
  | .press byte => (pad.press byte).map (Except.map fun _ => .done) id
  | .release byte => (pad.release byte).map (Except.map fun _ => .done) id
  | .query byte => ((pad.isHeld byte).map .held, pad)
  | .interrupt => (.ok (.waiting pad.waiting), pad)

structure Waited where
  /-- The replies to the events that came before the end of the wait. -/
  replies : List (Except Fault Reply)
  key : Option Key
  pad : Keypad

/-- The rest of a wait that began after `before` presses. -/
def waitThrough (pad : Keypad) (before : UInt64) : List Event → Waited
  | [] => ⟨[], (pad.answer? before true).join, pad.endWait⟩
  | event :: rest =>
      let (reply, next) := pad.deliver event
      match next.answer? before false with
      | some key => ⟨[reply], key, next.endWait⟩
      | none =>
          let waited := waitThrough next before rest
          { waited with replies := reply :: waited.replies }

def wait (pad : Keypad) (events : List Event) : Waited :=
  pad.beginWait.waitThrough pad.presses events

end ChipEight.Keypad
