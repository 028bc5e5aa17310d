import ChipEight.Proofs.Keypad.FreshPress

/-!
What a keypad remembers of its past. Of all that was done to a key the last press or release counts,
and of all presses the last one is the latest key, whichever key it was. Queries, notices and calls
with a byte that names no key leave no trace, and a wait none but its mark.
-/

namespace ChipEight.Keypad

/-- Whether the event presses the key or releases it, if it does either. -/
def Event.moves? (key : Key) : Event → Option Bool
  | .press byte => if byte.toNat = key.val then some true else none
  | .release byte => if byte.toNat = key.val then some false else none
  | .query _ | .interrupt => none

/-- The last press or release of the key was a press. -/
def LastPressed (key : Key) (events : List Event) : Prop :=
  (events.filterMap (·.moves? key)).getLast? = some true

instance (key : Key) (events : List Event) : Decidable (LastPressed key events) :=
  inferInstanceAs (Decidable (_ = _))

/-- The keypad is as the events have left it. -/
structure Remembers (pad : Keypad) (events : List Event) : Prop where
  held : ∀ key : Key, pad.held.get key = decide (LastPressed key events)
  latest : pad.latest = (pressed events).getLast?

/-- What a new keypad comes to by calls of any number of threads and by waits of one, wherever the
waits have come to. The events are those that were delivered, during the waits too. -/
inductive History : List Event → Keypad → Prop where
  | new : History [] untouched
  | call {events : List Event} {pad : Keypad} (event : Event) :
      History events pad → History (events ++ [event]) (pad.deliver event).2
  | wait {events : List Event} {pad : Keypad} {cancel : Bool} {acts : List Watch.Act} {w : Watch} :
      History events pad → (Watch.start pad cancel).after acts = some w →
        History (events ++ Watch.delivered acts) w.pad

variable {pad : Keypad} {events later : List Event} {byte : UInt8} {key : Key}

/-! Calls. -/

theorem accepts_of_eq (pad : Keypad) (h : byte.toNat = key.val) :
    pad.press byte = (.ok (), pad.pressKey key) ∧
      pad.release byte = (.ok (), pad.releaseKey key) ∧
      pad.isHeld byte = .ok (pad.held.get key) := by
  have hlt : byte.toNat < keyCount := h ▸ key.isLt
  have hkey : Key.ofByte byte = .ok key := (dif_pos hlt).trans (congrArg Except.ok (Fin.ext h))
  exact ⟨by rw [press, hkey], by rw [release, hkey], by rw [isHeld, hkey]; rfl⟩

theorem refuses_of_lt (pad : Keypad) (h : 0xF < byte.toNat) :
    pad.press byte = (.error (.invalidKeyIndex byte), pad) ∧
      pad.release byte = (.error (.invalidKeyIndex byte), pad) ∧
      pad.isHeld byte = .error (.invalidKeyIndex byte) := by
  have hnone : Key.ofByte byte = .error (.invalidKeyIndex byte) := dif_neg (Nat.not_lt.mpr h)
  simp only [press, release, isHeld, hnone, Except.map, and_self]

/-- A byte names a key, or names none and is no key's number. -/
theorem exists_key_or_lt (byte : UInt8) :
    (∃ key : Key, byte.toNat = key.val) ∨
      0xF < byte.toNat ∧ ∀ key : Key, byte.toNat ≠ key.val := by
  by_cases h : byte.toNat < keyCount
  · exact .inl ⟨⟨byte.toNat, h⟩, rfl⟩
  · exact .inr ⟨Nat.not_lt.mp h, fun key heq => h (heq ▸ key.isLt)⟩

theorem held_pressKey (pad : Keypad) (pressed key : Key) :
    (pad.pressKey pressed).held.get key =
      if pressed.val = key.val then true else pad.held.get key :=
  Vector.getElem_set pressed.isLt key.isLt

theorem held_releaseKey (pad : Keypad) (released key : Key) :
    (pad.releaseKey released).held.get key =
      if released.val = key.val then false else pad.held.get key :=
  Vector.getElem_set released.isLt key.isLt

theorem held_deliver (pad : Keypad) (event : Event) (key : Key) :
    (pad.deliver event).2.held.get key = (event.moves? key).getD (pad.held.get key) := by
  cases event with
  | press byte =>
      rcases exists_key_or_lt byte with ⟨pressed, hkey⟩ | ⟨hlt, hne⟩
      · have hpad : (pad.deliver (.press byte)).2 = pad.pressKey pressed :=
          congrArg Prod.snd (pad.accepts_of_eq hkey).1
        simp only [hpad, held_pressKey, Event.moves?, hkey]
        split <;> rfl
      · have hpad : (pad.deliver (.press byte)).2 = pad :=
          congrArg Prod.snd (pad.refuses_of_lt hlt).1
        simp only [hpad, Event.moves?, if_neg (hne key), Option.getD_none]
  | release byte =>
      rcases exists_key_or_lt byte with ⟨released, hkey⟩ | ⟨hlt, hne⟩
      · have hpad : (pad.deliver (.release byte)).2 = pad.releaseKey released :=
          congrArg Prod.snd (pad.accepts_of_eq hkey).2.1
        simp only [hpad, held_releaseKey, Event.moves?, hkey]
        split <;> rfl
      · have hpad : (pad.deliver (.release byte)).2 = pad :=
          congrArg Prod.snd (pad.refuses_of_lt hlt).2.1
        simp only [hpad, Event.moves?, if_neg (hne key), Option.getD_none]
  | query _ | interrupt => rfl

theorem held_deliverAll (pad : Keypad) (events : List Event) (key : Key) :
    (pad.deliverAll events).held.get key =
      (events.filterMap (·.moves? key)).getLast?.getD (pad.held.get key) := by
  induction events generalizing pad with
  | nil => rfl
  | cons event rest ih =>
      have hrest := ih (pad.deliver event).2
      rw [held_deliver] at hrest
      refine hrest.trans ?_
      cases hmoves : event.moves? key with
      | none => rw [List.filterMap_cons_none hmoves, Option.getD_none]
      | some value =>
          rw [List.filterMap_cons_some hmoves, List.getLast?_cons, Option.getD_some,
            Option.getD_some]

theorem remembers_deliverAll (events : List Event) :
    (untouched.deliverAll events).Remembers events where
  held key := by
    have hnew : untouched.held.get key = false := Vector.getElem_replicate key.isLt
    rw [held_deliverAll, hnew, Bool.eq_iff_iff, decide_eq_true_iff, Option.getD_eq_iff]
    simp [LastPressed]
  latest := (latest_deliverAll untouched events).trans Option.or_none

/-! Waits. -/

/-- The events have made the keypad what it is, but for the mark of a wait. -/
def Follows (pad : Keypad) (events : List Event) : Prop :=
  ∃ waiting, pad = { untouched.deliverAll events with waiting }

theorem deliverAll_mark (pad : Keypad) (waiting : Bool) (events : List Event) :
    deliverAll { pad with waiting } events = { pad.deliverAll events with waiting } := by
  induction events generalizing pad with
  | nil => rfl
  | cons event rest ih =>
      have hrest := ih (pad.deliver event).2
      rw [← deliver_mark] at hrest
      exact hrest

theorem follows_new : untouched.Follows [] := ⟨false, rfl⟩

theorem Follows.mark (h : pad.Follows events) (waiting : Bool) :
    Follows { pad with waiting } events := by
  obtain ⟨_, rfl⟩ := h
  exact ⟨waiting, rfl⟩

theorem Follows.deliverAll (h : pad.Follows events) (later : List Event) :
    (pad.deliverAll later).Follows (events ++ later) := by
  obtain ⟨waiting, rfl⟩ := h
  have hall : (untouched.deliverAll events).deliverAll later =
      untouched.deliverAll (events ++ later) := List.foldl_append.symm
  exact ⟨waiting, by rw [deliverAll_mark, hall]⟩

theorem Follows.remembers (h : pad.Follows events) : pad.Remembers events := by
  obtain ⟨waiting, rfl⟩ := h
  have hall := remembers_deliverAll events
  exact ⟨hall.held, hall.latest⟩

theorem History.follows (h : History events pad) : pad.Follows events := by
  induction h with
  | new => exact follows_new
  | call event _ ih => exact ih.deliverAll [event]
  | wait _ ha ih =>
      rw [(Watch.since_after ha).keypad]
      exact (ih.deliverAll _).mark _

end ChipEight.Keypad
