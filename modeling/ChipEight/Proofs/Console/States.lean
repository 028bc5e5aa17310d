import ChipEight.Proofs.Console.Lifecycle

/-!
The machines that a history produces: one for each instruction that a turn completes, in order. A
turn that parks the loop, leaves it parked, stops it or ends a cancelled wait completes none.
-/

namespace ChipEight

namespace Loop

variable {l : Loop} {d : Devices} {before : UInt64} {cancelled : Bool}

/-- The turn ends a key wait without a key. -/
def GivesUp (l : Loop) (cancelled : Bool) (d : Devices) : Prop :=
  l.parked.bind (fun before => d.keypad.answer? before cancelled) = some none

instance : Decidable (l.GivesUp cancelled d) :=
  inferInstanceAs (Decidable (_ = _))

def completed : Turn → List Machine
  | .goOn ⟨m, none⟩ => [m]
  | .goOn ⟨_, some _⟩ | .stop _ _ => []

def produced (l : Loop) (cancelled : Bool) (d : Devices) : List Machine :=
  if l.GivesUp cancelled d then [] else completed (l.turn cancelled d).1

theorem produced_of_no_answer (hp : l.parked = some before)
    (ha : d.keypad.answer? before cancelled = none) : l.produced cancelled d = [] := by
  have hgo : ¬ l.GivesUp cancelled d := by simp [GivesUp, hp, ha]
  rw [produced, if_neg hgo, turn_of_parked hp, ha]
  obtain ⟨machine, parked⟩ := l
  obtain rfl : parked = some before := hp
  rfl

theorem produced_of_gives_up (hp : l.parked = some before)
    (ha : d.keypad.answer? before cancelled = some none) : l.produced cancelled d = [] := by
  rw [produced, if_pos (by simp [GivesUp, hp, ha])]

theorem produced_of_cancelled (hp : l.parked = none) : l.produced true d = [] := by
  have hgo : ¬ l.GivesUp true d := by simp [GivesUp, hp]
  rw [produced, if_neg hgo, turn_of_cancelled hp]
  rfl

theorem produced_of_awaitsKey (hp : l.parked = none) (hw : awaitsKey l.machine) :
    l.produced false d = [] := by
  have hgo : ¬ l.GivesUp false d := by simp [GivesUp, hp]
  rw [produced, if_neg hgo, turn_of_unparked hp, if_pos hw]
  rfl

/-- A loop that finds a key takes it whether it was cancelled or not. -/
theorem turn_of_key (hp : l.parked = some before) (hk : d.keypad.presses ≠ before) :
    l.turn true d = l.turn false d := by
  simp only [turn_of_parked hp, Keypad.answer?_of_pressed hk]

theorem produced_of_key (hp : l.parked = some before) (hk : d.keypad.presses ≠ before) :
    l.produced true d = l.produced false d := by
  have hgo : l.GivesUp true d ↔ l.GivesUp false d := by
    simp only [GivesUp, hp, Option.bind_some, Keypad.answer?_of_pressed hk]
  simp only [produced, turn_of_key hp hk, hgo]

end Loop

namespace Console

open Devices (Touch)

def produced (c : Console) (cancelled : Bool) : List Machine :=
  match c.loop with
  | some l => l.produced cancelled c.devices
  | none => []

/-- A halt, a load and a reset grant the loop two turns to stop. -/
def statesOf (c : Console) : Event → List Machine
  | .turn cancelled => c.produced cancelled
  | .call (.load _) | .call .halt | .call .reset => c.produced true ++ (c.turn true).produced true
  | .call _ | .supply _ => []

def after (c : Console) (events : List Event) : Console := events.foldl handle c

def states (c : Console) : List Event → List Machine
  | [] => []
  | event :: rest => c.statesOf event ++ (c.handle event).states rest

variable {c : Console} {l : Loop} {cancelled : Bool}

theorem after_append (c : Console) (first second : List Event) :
    c.after (first ++ second) = (c.after first).after second :=
  List.foldl_append

theorem Orderly.after (h : c.Orderly) (events : List Event) : (c.after events).Orderly := by
  induction events generalizing c with
  | nil => exact h
  | cons event rest ih => exact ih (h.handle event)

theorem Reachable.after (h : c.Reachable) (events : List Event) : (c.after events).Reachable := by
  induction events generalizing c with
  | nil => exact h
  | cons event rest ih => exact ih (.event event h)

theorem states_append (c : Console) (first second : List Event) :
    c.states (first ++ second) = c.states first ++ (c.after first).states second := by
  induction first generalizing c with
  | nil => rfl
  | cons event rest ih =>
      simp only [List.cons_append, states, ih, List.append_assoc]
      rfl

theorem produced_of_idle (hl : c.loop = none) : c.produced cancelled = [] := by
  simp only [produced, hl]

theorem produced_of_loop (hl : c.loop = some l) :
    c.produced cancelled = l.produced cancelled c.devices := by
  simp only [produced, hl]

/-! Events that leave the loop alone. -/

def touchEvent : Touch → Event
  | .press byte => .call (.press byte)
  | .release byte => .call (.release byte)
  | .tick => .call .tick
  | .takeFrame => .call .takeFrame
  | .supply random => .supply random

def touches (c : Console) (events : List Touch) : Console :=
  { c with devices := c.devices.touches events }

theorem handle_touchEvent (c : Console) (event : Touch) :
    c.handle (touchEvent event) = c.touch event := by
  cases event <;> rfl

theorem statesOf_touchEvent (c : Console) (event : Touch) : c.statesOf (touchEvent event) = [] := by
  cases event <;> rfl

theorem after_touches (c : Console) (events : List Touch) :
    c.after (events.map touchEvent) = c.touches events := by
  induction events generalizing c with
  | nil => rfl
  | cons event rest ih =>
      change (c.handle (touchEvent event)).after (rest.map touchEvent) = _
      rw [handle_touchEvent, ih]
      rfl

theorem states_touches (c : Console) (events : List Touch) :
    c.states (events.map touchEvent) = [] := by
  induction events generalizing c with
  | nil => rfl
  | cons event rest ih => rw [List.map_cons, states, statesOf_touchEvent, ih, List.nil_append]

theorem AtRest.touches {m : Machine} (h : c.AtRest m) (events : List Touch) :
    (c.touches events).AtRest m := by
  induction events generalizing c with
  | nil => exact h
  | cons event rest ih => exact ih (h.touch event)

theorem AtWork.touches (h : c.AtWork l) (events : List Touch) : (c.touches events).AtWork l := by
  induction events generalizing c with
  | nil => exact h
  | cons event rest ih => exact ih (h.touch event)

end Console
end ChipEight
