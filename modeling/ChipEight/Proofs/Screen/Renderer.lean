import ChipEight.Screen
import Mathlib.Data.List.Induction

/-!
A renderer that asks for the frame only where it has changed. It is given a frame exactly if there
was a draw or a clear since it last asked, and as long as it would be given none, it has the frame
already.
-/

namespace ChipEight.Screen

inductive Event where
  | draw (x y : UInt8) (sprite : List UInt8)
  | clear
  | snapshot
  | take
  deriving DecidableEq, Repr

def handle (s : Screen) : Event → Screen
  | .draw x y sprite => (s.draw x y sprite).1
  | .clear => s.clear
  | .snapshot => s
  | .take => s.take.2

def after (s : Screen) (events : List Event) : Screen := events.foldl handle s

/-- The frame that a renderer is given by the event, if it is given one. -/
def given (s : Screen) : Event → Option Frame
  | .take => s.take.1
  | .draw _ _ _ | .clear | .snapshot => none

/-- The frames that a renderer is given, the first one first. -/
def shown (s : Screen) : List Event → List Frame
  | [] => []
  | event :: rest => (s.given event).toList ++ (s.handle event).shown rest

def Event.paints : Event → Bool
  | .draw _ _ _ | .clear => true
  | .snapshot | .take => false

/-- There was a draw or a clear since the frame was last asked for, or since the beginning. -/
def painted (events : List Event) : Bool :=
  (events.reverse.takeWhile (· ≠ .take)).any Event.paints

/-- What a renderer may rely on that has been shown these frames. -/
structure UpToDate (s : Screen) (painted : Bool) (shown : List Frame) : Prop where
  take : s.take.1 = if painted then some s.frame else none
  kept : s.changed = false → s.frame = shown.getLastD .blank

variable {events : List Event}

theorem after_append (s : Screen) (first second : List Event) :
    s.after (first ++ second) = (s.after first).after second :=
  List.foldl_append

theorem shown_append (s : Screen) (first second : List Event) :
    s.shown (first ++ second) = s.shown first ++ (s.after first).shown second := by
  induction first generalizing s with
  | nil => rfl
  | cons event rest ih =>
      simp only [List.cons_append, shown, ih, List.append_assoc]
      rfl

theorem shown_snapshot (s : Screen) : s.shown [.snapshot] = [] := rfl

theorem shown_take (s : Screen) : s.shown [.take] = if s.changed then [s.frame] else [] := by
  rw [shown, given, take]
  split <;> rfl

theorem painted_append_singleton (events : List Event) (event : Event) :
    painted (events ++ [event]) = (event.paints || event ≠ .take && painted events) := by
  cases event <;> simp [painted, Event.paints]

theorem changed_after (events : List Event) :
    (blank.after events).changed = painted events := by
  induction events using List.reverseRecOn with
  | nil => rfl
  | append_singleton past event ih =>
      rw [after_append, painted_append_singleton, ← ih]
      cases event with
      | snapshot => simp [after, handle, Event.paints]
      | draw | clear | take => rfl

/-- A frame that is not marked as changed is the last one that was given. -/
theorem frame_after (h : (blank.after events).changed = false) :
    (blank.after events).frame = (blank.shown events).getLastD .blank := by
  induction events using List.reverseRecOn with
  | nil => rfl
  | append_singleton past event ih =>
      rw [after_append] at h ⊢
      rw [shown_append]
      cases event with
      | draw | clear => cases h
      | snapshot => exact (ih h).trans (by rw [shown_snapshot, List.append_nil])
      | take =>
          rw [shown_take]
          cases hchanged : (blank.after past).changed with
          | true => exact List.getLastD_concat.symm
          | false => exact (ih hchanged).trans (by rw [if_neg Bool.false_ne_true, List.append_nil])

theorem upToDate_after (events : List Event) :
    (blank.after events).UpToDate (painted events) (blank.shown events) where
  take := by rw [take, changed_after]
  kept := frame_after

end ChipEight.Screen
