import ChipEight.Keypad.Wait

/-!
A wait as one thread goes through it while others use the keypad, one atomic piece after the other.
The waiter counts the presses while it has the keypad, but the cancellation is not part of the
keypad: it may be set between the look at it and the parking. Parking lets go of the keypad and
begins to listen for a notice at one moment. A parked waiter may wake without a notice, so it takes
the keypad and counts again.
-/

namespace ChipEight.Keypad

namespace Event

/-- The key that the event presses. -/
def pressed? : Event → Option Key
  | .press byte => (Key.ofByte byte).toOption
  | .release _ | .query _ | .interrupt => none

/-- A byte that names no key is refused before anybody takes the keypad. -/
def takesKeypad : Event → Bool
  | .press byte | .release byte | .query byte => (Key.ofByte byte).isOk
  | .interrupt => true

/-- Whether a parked waiter is told. -/
def notifies : Event → Bool
  | .interrupt => true
  | event => event.pressed?.isSome

end Event

/-- A wait that began after `before` presses. -/
inductive Waiter where
  /-- Has the keypad, and is about to look for a cancellation. -/
  | looking (before : UInt64)
  /-- Still has the keypad, has found no cancellation, and is about to park. -/
  | parking (before : UInt64)
  | parked (before : UInt64) (notified : Bool)
  | returned (key : Option Key)
  deriving DecidableEq, Repr

namespace Waiter

def hasKeypad : Waiter → Bool
  | .looking _ | .parking _ => true
  | .parked _ _ | .returned _ => false

def ended : Waiter → Bool
  | .returned _ => true
  | .looking _ | .parking _ | .parked _ _ => false

/-- Takes the keypad and notes the presses that do not count. -/
def enter (pad : Keypad) : Waiter × Keypad := (.looking pad.presses, pad.beginWait)

def advance (pad : Keypad) (cancelled : Bool) : Waiter → Waiter × Keypad
  | .looking before =>
      if cancelled then (.returned none, pad.endWait) else (.parking before, pad)
  | .parking before => (.parked before false, pad)
  | .parked before _ =>
      if pad.presses = before then (.looking before, pad)
      else (.returned pad.latest, pad.endWait)
  | .returned key => (.returned key, pad)

def notify : Waiter → Waiter
  | .parked before _ => .parked before true
  | waiter => waiter

/-- What an event of another thread leaves of the waiter. -/
def hear (waiter : Waiter) (event : Event) : Waiter :=
  if event.notifies then waiter.notify else waiter

end Waiter

/-- A keypad with one waiter, and the cancellation that the waiter looks for. -/
structure Watch where
  pad : Keypad
  cancel : Bool
  waiter : Waiter
  deriving DecidableEq

namespace Watch

inductive Act where
  | event (event : Event)
  /-- Somebody sets the cancellation. -/
  | cancel
  /-- The waiter goes on, and if it is parked it wakes, with a notice or without. -/
  | advance
  deriving DecidableEq, Repr

def start (pad : Keypad) (cancel : Bool) : Watch :=
  let (waiter, pad) := Waiter.enter pad
  ⟨pad, cancel, waiter⟩

/-- An act that has to wait for the keypad does not take place. -/
def step (w : Watch) : Act → Option Watch
  | .event event =>
      if w.waiter.hasKeypad && event.takesKeypad then none
      else some { w with pad := (w.pad.deliver event).2, waiter := w.waiter.hear event }
  | .cancel => some { w with cancel := true }
  | .advance =>
      if w.waiter.ended then none
      else
        let (waiter, pad) := w.waiter.advance w.pad w.cancel
        some { w with pad, waiter }

def after (w : Watch) : List Act → Option Watch
  | [] => some w
  | act :: rest => (w.step act).bind (·.after rest)

/-- The waiter's next piece ends the wait, with this answer. -/
def Returns (w : Watch) (answer : Option Key) : Prop :=
  ∃ next, w.step .advance = some next ∧ next.waiter = .returned answer

/-- Each event finds the waiter parked, and one that notifies it lets it go on until it parks again
or returns. A press ends the wait, and if none comes it is cancelled. -/
def paced : List Event → List Act
  | [] => [.cancel, .event .interrupt, .advance, .advance]
  | event :: rest =>
      match event.pressed? with
      | some _ => [.event event, .advance]
      | none =>
          .event event ::
            (if event.notifies then [.advance, .advance, .advance] else []) ++ paced rest

end Watch
end ChipEight.Keypad
