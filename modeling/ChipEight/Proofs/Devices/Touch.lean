import ChipEight.Devices

/-!
What reaches the devices from outside while no instruction runs: keys, ticks, a renderer that takes
the frame, and the random bytes that are ready.
-/

namespace ChipEight.Devices

inductive Touch where
  | press (byte : UInt8)
  | release (byte : UInt8)
  | tick
  | takeFrame
  | supply (random : List UInt8)
  deriving DecidableEq, Repr

def touch (d : Devices) : Touch → Devices
  | .press byte => (d.press byte).2
  | .release byte => (d.release byte).2
  | .tick => d.tick
  | .takeFrame => { d with screen := d.screen.take.2 }
  | .supply random => { d with feed.random := random }

def touches (d : Devices) (events : List Touch) : Devices := events.foldl touch d

theorem frame_touch (d : Devices) (event : Touch) :
    (d.touch event).screen.frame = d.screen.frame := by
  cases event <;> rfl

theorem frame_touches (d : Devices) (events : List Touch) :
    (d.touches events).screen.frame = d.screen.frame := by
  induction events generalizing d with
  | nil => rfl
  | cons event rest ih => exact (ih (d.touch event)).trans (frame_touch d event)

/-- No touch looks at the mark of a wait, or changes it. -/
theorem touch_mark (d : Devices) (waiting : Bool) (event : Touch) :
    { d with keypad.waiting := waiting }.touch event =
      { d.touch event with keypad.waiting := waiting } := by
  cases event with
  | press byte =>
      simp only [touch, press, Keypad.press]
      cases Key.ofByte byte <;> rfl
  | release byte =>
      simp only [touch, release, Keypad.release]
      cases Key.ofByte byte <;> rfl
  | _ => rfl

theorem waiting_touch (d : Devices) (event : Touch) :
    (d.touch event).keypad.waiting = d.keypad.waiting :=
  congrArg (fun touched => touched.keypad.waiting) (touch_mark d d.keypad.waiting event)

theorem answers_touch (d : Devices) (event : Touch) :
    (d.touch event).feed.answers = d.feed.answers := by
  cases event <;> rfl

end ChipEight.Devices
