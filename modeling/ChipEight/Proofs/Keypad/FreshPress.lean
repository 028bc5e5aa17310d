import ChipEight.Keypad.Waiter

/-!
What ends a wait. Whatever the other threads do in between, a wait returns a key only after a press
that came while it waited, and then the last one; without a press it returns only when it is
cancelled. The keypad itself does not notice that somebody waits, apart from the mark.
-/

namespace ChipEight.Keypad

/-! What events do to a keypad. -/

/-- The keys that events press, in order. -/
def pressed (events : List Event) : List Key := events.filterMap Event.pressed?

def deliverAll (pad : Keypad) (events : List Event) : Keypad :=
  events.foldl (fun pad event => (pad.deliver event).2) pad

variable {pad : Keypad} {event : Event} {events : List Event}

theorem deliver_mark (pad : Keypad) (waiting : Bool) (event : Event) :
    (deliver { pad with waiting } event).2 = { (pad.deliver event).2 with waiting } := by
  cases event with
  | press byte =>
      simp only [deliver, press]
      cases Key.ofByte byte <;> rfl
  | release byte =>
      simp only [deliver, release]
      cases Key.ofByte byte <;> rfl
  | query _ | interrupt => rfl

theorem deliver_of_pressed {key : Key} (h : event.pressed? = some key) :
    (pad.deliver event).2 = pad.pressKey key := by
  cases event with
  | press byte =>
      simp only [Event.pressed?] at h
      simp only [deliver, press]
      cases hk : Key.ofByte byte with
      | ok pressed =>
          rw [hk] at h
          cases h
          rfl
      | error fault =>
          rw [hk] at h
          cases h
  | release _ | query _ | interrupt => cases h

theorem deliver_of_not_pressed (h : event.pressed? = none) :
    (pad.deliver event).2.latest = pad.latest ∧ (pad.deliver event).2.presses = pad.presses := by
  cases event with
  | press byte =>
      simp only [Event.pressed?] at h
      simp only [deliver, press]
      cases hk : Key.ofByte byte with
      | ok pressed =>
          rw [hk] at h
          cases h
      | error fault => exact ⟨rfl, rfl⟩
  | release byte =>
      simp only [deliver, release]
      cases Key.ofByte byte <;> exact ⟨rfl, rfl⟩
  | query _ | interrupt => exact ⟨rfl, rfl⟩

theorem pressed_cons_none (h : event.pressed? = none) :
    pressed (event :: events) = pressed events :=
  List.filterMap_cons_none h

theorem pressed_cons_some {key : Key} (h : event.pressed? = some key) :
    pressed (event :: events) = key :: pressed events :=
  List.filterMap_cons_some h

theorem pressed_append : pressed (events ++ [event]) = pressed events ++ event.pressed?.toList := by
  rw [pressed, List.filterMap_append, ← pressed]
  cases h : event.pressed? <;> simp [h]

theorem deliverAll_append (pad : Keypad) (events : List Event) (event : Event) :
    pad.deliverAll (events ++ [event]) = ((pad.deliverAll events).deliver event).2 := by
  rw [deliverAll, List.foldl_append]
  rfl

/-- The last press decides the latest key. -/
theorem latest_deliverAll (pad : Keypad) (events : List Event) :
    (pad.deliverAll events).latest = (pressed events).getLast?.or pad.latest := by
  induction events generalizing pad with
  | nil => rfl
  | cons event rest ih =>
      refine (ih (pad.deliver event).2).trans ?_
      cases hp : event.pressed? with
      | none => rw [pressed_cons_none hp, (deliver_of_not_pressed hp).1]
      | some key =>
          rw [pressed_cons_some hp, deliver_of_pressed hp, List.getLast?_cons]
          cases (pressed rest).getLast? <;> rfl

theorem presses_deliverAll (pad : Keypad) (events : List Event) :
    (pad.deliverAll events).presses = pad.presses + .ofNat (pressed events).length := by
  induction events generalizing pad with
  | nil => simp [deliverAll, pressed]
  | cons event rest ih =>
      refine (ih (pad.deliver event).2).trans ?_
      cases hp : event.pressed? with
      | none => rw [pressed_cons_none hp, (deliver_of_not_pressed hp).2]
      | some key =>
          rw [pressed_cons_some hp, deliver_of_pressed hp, List.length_cons,
            UInt64.ofNat_add, UInt64.add_comm (.ofNat _), ← UInt64.add_assoc]
          rfl

theorem pressed_of_not_takesKeypad (h : event.takesKeypad = false) : event.pressed? = none := by
  cases event with
  | press byte =>
      simp only [Event.takesKeypad] at h
      simp only [Event.pressed?]
      cases hk : Key.ofByte byte with
      | ok key =>
          rw [hk] at h
          cases h
      | error fault => rfl
  | release _ | query _ | interrupt => rfl

namespace Waiter

def before? : Waiter → Option UInt64
  | .looking before | .parking before | .parked before _ => some before
  | .returned _ => none

variable {waiter : Waiter}

/-- An event of another thread moves the waiter no further. -/
theorem hear_eq (waiter : Waiter) (event : Event) :
    (waiter.hear event).ended = waiter.ended ∧ (waiter.hear event).hasKeypad = waiter.hasKeypad ∧
      (waiter.hear event).before? = waiter.before? := by
  rw [hear]
  split
  · cases waiter <;> exact ⟨rfl, rfl, rfl⟩
  · exact ⟨rfl, rfl, rfl⟩

theorem notified_of_notify {before : UInt64} {notified : Bool}
    (h : waiter.notify = .parked before notified) : notified = true := by
  cases waiter with
  | parked => exact (Waiter.parked.inj h).2.symm
  | looking | parking | returned => cases h

end Waiter

theorem Event.pressed?_of_not_notifies {event : Event} (h : ¬ event.notifies) :
    event.pressed? = none := by
  cases event with
  | press byte => simpa [notifies] using h
  | release | query | interrupt => rfl

namespace Watch

def Act.event? : Act → Option Event
  | .event event => some event
  | .cancel | .advance => none

/-- What the other threads delivered to the keypad. -/
def delivered (acts : List Act) : List Event := acts.filterMap Act.event?

/-- A wait that began on `pad`, after the events `events`. A waiter that has the keypad has just
counted the presses, and none has come as long as they are too few for the count to come round; so
one that comes finds the waiter parked and notifies it. -/
structure Since (pad : Keypad) (events : List Event) (w : Watch) : Prop where
  keypad : w.pad = { pad.deliverAll events with waiting := !w.waiter.ended }
  before : ∀ before ∈ w.waiter.before?, before = pad.presses
  unpressed : (pressed events).length < UInt64.size → w.waiter.hasKeypad → pressed events = []
  ended : w.waiter.ended → w.cancel = true ∨ pressed events ≠ []
  notified : (pressed events).length < UInt64.size → pressed events ≠ [] →
    ∀ before notified, w.waiter = .parked before notified → notified = true

variable {acts : List Act} {act : Act} {w next : Watch} {cancel : Bool} {key : Key}
  {before : UInt64}

theorem since_start (pad : Keypad) (cancel : Bool) : Since pad [] (start pad cancel) where
  keypad := rfl
  before _ h := (Option.some.inj h).symm
  unpressed _ _ := rfl
  ended h := nomatch h
  notified _ hpressed := absurd rfl hpressed

theorem Since.presses (h : Since pad events w) :
    w.pad.presses = pad.presses + .ofNat (pressed events).length := by
  rw [h.keypad]
  exact presses_deliverAll pad events

theorem Since.latest (h : Since pad events w) :
    w.pad.latest = (pressed events).getLast?.or pad.latest := by
  rw [h.keypad]
  exact latest_deliverAll pad events

theorem Since.presses_of_not_pressed (h : Since pad events w) (hnone : pressed events = []) :
    w.pad.presses = pad.presses := by
  rw [h.presses, hnone]
  exact UInt64.add_zero _

/-- Until the count comes round, it tells whether anything was pressed. -/
theorem Since.presses_eq_iff (h : Since pad events w) (hfew : (pressed events).length < UInt64.size) :
    w.pad.presses = pad.presses ↔ pressed events = [] := by
  rw [h.presses, UInt64.add_eq_left, ← UInt64.toNat_inj, UInt64.toNat_ofNat_of_lt' hfew,
    UInt64.toNat_zero, List.length_eq_zero_iff]

/-! What each act preserves. -/

theorem Since.deliver (h : Since pad events w) (hs : w.step (.event event) = some next) :
    Since pad (events ++ [event]) next := by
  simp only [step] at hs
  split at hs
  · cases hs
  · rename_i htakes
    cases hs
    obtain ⟨hover, hkeypad, hbefore⟩ := Waiter.hear_eq w.waiter event
    refine ⟨?_, by rw [hbefore]; exact h.before, ?_, ?_, ?_⟩
    · rw [hover, h.keypad, deliver_mark, deliverAll_append]
    · intro hfew hhas
      rw [hkeypad] at hhas
      -- only a refused event comes past a waiter that has the keypad
      have hrefused : event.takesKeypad = false := by simpa [hhas] using htakes
      have hsame : pressed (events ++ [event]) = pressed events := by
        simp [pressed, pressed_of_not_takesKeypad hrefused]
      rw [hsame] at hfew ⊢
      exact h.unpressed hfew hhas
    · rw [hover]
      intro hended
      rcases h.ended hended with hcancel | hpressed
      · exact .inl hcancel
      · exact .inr fun hnone => hpressed (List.append_eq_nil_iff.mp (pressed_append ▸ hnone)).1
    · intro hfew hpressed before notified hparked
      simp only [Waiter.hear] at hparked
      split at hparked
      · exact Waiter.notified_of_notify hparked
      · rename_i hsilent
        rw [pressed_append, Event.pressed?_of_not_notifies hsilent, Option.toList_none,
          List.append_nil] at hfew hpressed
        exact h.notified hfew hpressed before notified hparked

theorem Since.advance (h : Since pad events w) (hs : w.step .advance = some next) :
    Since pad events next := by
  have hcount := h.presses_eq_iff
  have hended := congrArg endWait h.keypad
  have hfresh := h.presses_of_not_pressed
  obtain ⟨hkeypad, hbefore, hunpressed, _, _⟩ := h
  obtain ⟨wpad, wcancel, waiter⟩ := w
  cases waiter with
  | returned key => cases hs
  | looking before =>
      cases wcancel with
      | true =>
          cases hs
          exact ⟨hended, nofun, nofun, fun _ => .inl rfl, nofun⟩
      | false =>
          cases hs
          exact ⟨hkeypad, hbefore, hunpressed, nofun, nofun⟩
  | parking before =>
      cases hs
      exact ⟨hkeypad, hbefore, nofun, nofun,
        fun hfew hpressed => absurd (hunpressed hfew rfl) hpressed⟩
  | parked before notified =>
      obtain rfl : before = pad.presses := hbefore before rfl
      by_cases hsame : wpad.presses = pad.presses
      · simp only [step, Waiter.advance, if_pos hsame] at hs
        cases hs
        exact ⟨hkeypad, hbefore, fun hfew _ => (hcount hfew).mp hsame, nofun, nofun⟩
      · simp only [step, Waiter.advance, if_neg hsame] at hs
        cases hs
        exact ⟨hended, nofun, nofun, fun _ => .inr fun hnone => hsame (hfresh hnone), nofun⟩

theorem Since.step (h : Since pad events w) (hs : w.step act = some next) :
    Since pad (events ++ act.event?.toList) next := by
  cases act with
  | event event => exact h.deliver hs
  | advance =>
      simp only [Act.event?, Option.toList_none, List.append_nil]
      exact h.advance hs
  | cancel =>
      simp only [Act.event?, Option.toList_none, List.append_nil]
      cases hs
      exact ⟨h.keypad, h.before, h.unpressed, fun _ => .inl rfl, h.notified⟩

theorem Since.after (h : Since pad events w) (ha : w.after acts = some next) :
    Since pad (events ++ delivered acts) next := by
  induction acts generalizing events w with
  | nil =>
      cases ha
      rwa [delivered, List.filterMap_nil, List.append_nil]
  | cons act rest ih =>
      obtain ⟨w', hs, hrest⟩ := Option.bind_eq_some_iff.mp ha
      have hafter := ih (h.step hs) hrest
      rw [List.append_assoc] at hafter
      cases he : act.event? <;> simpa [delivered, he] using hafter

theorem since_after (ha : (start pad cancel).after acts = some w) :
    Since pad (delivered acts) w :=
  (since_start pad cancel).after ha

/-! How the wait ends. -/

theorem not_returns_of_ended (h : w.waiter.ended = true) (answer : Option Key) :
    ¬ w.Returns answer := by
  rintro ⟨next, hs, _⟩
  simp [step, h] at hs

theorem returns_iff_of_not_ended (h : w.waiter.ended = false) (answer : Option Key) :
    w.Returns answer ↔ (w.waiter.advance w.pad w.cancel).1 = .returned answer := by
  simp [Returns, step, h]

/-- What the next piece of the wait returns, by what the waiter is about to do. -/
theorem Since.returns_iff (h : Since pad events w) (hfew : (pressed events).length < UInt64.size)
    (answer : Option Key) :
    w.Returns answer ↔
      match w.waiter with
      | .looking _ => w.cancel = true ∧ pressed events = [] ∧ answer = none
      | .parking _ | .returned _ => False
      | .parked _ _ => pressed events ≠ [] ∧ answer = (pressed events).getLast? := by
  cases hw : w.waiter with
  | returned key => exact iff_of_false (not_returns_of_ended (by rw [hw]; rfl) answer) id
  | parking before =>
      rw [returns_iff_of_not_ended (by rw [hw]; rfl), hw]
      simp [Waiter.advance]
  | looking before =>
      have hnone := h.unpressed hfew (by rw [hw]; rfl)
      rw [returns_iff_of_not_ended (by rw [hw]; rfl), hw]
      cases w.cancel <;> simp [Waiter.advance, hnone, eq_comm]
  | parked before notified =>
      obtain rfl : before = pad.presses := h.before before (by rw [hw]; rfl)
      have hcount := h.presses_eq_iff hfew
      rw [returns_iff_of_not_ended (by rw [hw]; rfl), hw]
      by_cases hsame : w.pad.presses = pad.presses
      · simp [Waiter.advance, hsame, hcount.mp hsame]
      · have hpressed : pressed events ≠ [] := fun hnone => hsame (hcount.mpr hnone)
        obtain ⟨key, hkey⟩ := Option.isSome_iff_exists.mp (List.getLast?_isSome.mpr hpressed)
        have hlatest : w.pad.latest = some key := by rw [h.latest, hkey, Option.some_or]
        rw [Waiter.advance, if_neg hsame, hlatest, hkey]
        simp [hpressed, eq_comm]

theorem Since.last_of_returns (h : Since pad events w) (hfew : (pressed events).length < UInt64.size)
    (hr : w.Returns (some key)) : (pressed events).getLast? = some key := by
  rw [h.returns_iff hfew] at hr
  split at hr
  · cases hr.2.2
  · cases hr
  · cases hr
  · exact hr.2.symm

theorem Since.cancelled_of_returns (h : Since pad events w)
    (hfew : (pressed events).length < UInt64.size) (hr : w.Returns none) :
    w.cancel = true ∧ pressed events = [] := by
  rw [h.returns_iff hfew] at hr
  split at hr
  · exact ⟨hr.1, hr.2.1⟩
  · cases hr
  · cases hr
  · exact absurd (List.getLast?_eq_none_iff.mp hr.2.symm) hr.1

theorem Since.goes_on (h : Since pad events w) (hcancel : w.cancel = false)
    (hnone : pressed events = []) : w.waiter.ended = false ∧ ∀ answer, ¬ w.Returns answer := by
  have hfew : (pressed events).length < UInt64.size := by
    rw [hnone]
    decide
  constructor
  · cases hover : w.waiter.ended with
    | false => rfl
    | true =>
        rcases h.ended hover with hset | hpressed
        · cases hcancel.symm.trans hset
        · exact absurd hnone hpressed
  · intro answer hr
    cases answer with
    | none => cases hcancel.symm.trans (h.cancelled_of_returns hfew hr).1
    | some key => cases hnone ▸ h.last_of_returns hfew hr

/-! Events that come one at a time. -/

theorem after_append (w : Watch) (acts later : List Act) :
    w.after (acts ++ later) = (w.after acts).bind (·.after later) := by
  induction acts generalizing w with
  | nil => rfl
  | cons act rest ih =>
      simp only [List.cons_append, after, Option.bind_assoc]
      exact congrArg _ (funext fun next => ih next)

/-- A parked waiter to whom nothing pressed parks again. -/
theorem after_settle (hsame : pad.presses = before) (hpressed : event.pressed? = none)
    (notified : Bool) : ∃ again, (Watch.mk pad false (.parked before notified)).after
        (.event event :: if event.notifies then [.advance, .advance, .advance] else []) =
      some ⟨(pad.deliver event).2, false, .parked before again⟩ := by
  have hcount : (pad.deliver event).2.presses = before :=
    (deliver_of_not_pressed hpressed).2.trans hsame
  cases hnotifies : event.notifies with
  | true =>
      refine ⟨false, ?_⟩
      simp [after, step, Waiter.hear, hnotifies, Waiter.notify, Waiter.hasKeypad, Waiter.ended,
        Waiter.advance, hcount]
  | false =>
      refine ⟨notified, ?_⟩
      simp [after, step, Waiter.hear, hnotifies, Waiter.hasKeypad]

theorem presses_pressKey_ne (hsame : pad.presses = before) (key : Key) :
    (pad.pressKey key).presses ≠ before := by
  rw [pressKey, hsame, Ne, UInt64.add_eq_left]
  decide

theorem waitThrough_of_pressed (hsame : pad.presses = before) (h : event.pressed? = some key)
    (rest : List Event) :
    (pad.waitThrough before (event :: rest)).key = some key ∧
      (pad.waitThrough before (event :: rest)).pad = (pad.pressKey key).endWait := by
  have hanswer : (pad.pressKey key).answer? before false = some (some key) :=
    if_pos (presses_pressKey_ne hsame key)
  simp only [waitThrough, deliver_of_pressed h, hanswer, and_self]

theorem waitThrough_of_not_pressed (hsame : pad.presses = before) (h : event.pressed? = none)
    (rest : List Event) :
    (pad.waitThrough before (event :: rest)).key =
        ((pad.deliver event).2.waitThrough before rest).key ∧
      (pad.waitThrough before (event :: rest)).pad =
        ((pad.deliver event).2.waitThrough before rest).pad := by
  have hcount : (pad.deliver event).2.presses = before :=
    (deliver_of_not_pressed h).2.trans hsame
  have hnone : (pad.deliver event).2.answer? before false = none := by simp [answer?, hcount]
  simp only [waitThrough, hnone, and_self]

theorem key_waitThrough (hsame : pad.presses = before) (events : List Event) :
    (pad.waitThrough before events).key = (pressed events).head? := by
  induction events generalizing pad with
  | nil => simp [waitThrough, answer?, hsame, pressed]
  | cons event rest ih =>
      cases h : event.pressed? with
      | some key => rw [(waitThrough_of_pressed hsame h rest).1, pressed_cons_some h, List.head?_cons]
      | none =>
          rw [(waitThrough_of_not_pressed hsame h rest).1, pressed_cons_none h]
          exact ih ((deliver_of_not_pressed h).2.trans hsame)

/-- A parked waiter among events that come one at a time ends as `waitThrough` says. -/
theorem after_paced (hsame : pad.presses = before) (notified : Bool) (events : List Event) :
    ∃ cancel, (Watch.mk pad false (.parked before notified)).after (paced events) =
      some ⟨(pad.waitThrough before events).pad, cancel,
        .returned (pad.waitThrough before events).key⟩ := by
  induction events generalizing pad notified with
  | nil =>
      refine ⟨true, ?_⟩
      simp [paced, after, step, Waiter.hear, Event.notifies, Waiter.notify, Waiter.hasKeypad,
        Waiter.ended, Waiter.advance, deliver, waitThrough, answer?, hsame]
  | cons event rest ih =>
      cases h : event.pressed? with
      | some key =>
          refine ⟨false, ?_⟩
          obtain ⟨hkey, hpad⟩ := waitThrough_of_pressed hsame h rest
          have hmore := presses_pressKey_ne hsame key
          have hnotifies : event.notifies = true := by
            cases event <;> simp [Event.notifies, h]
          rw [hkey, hpad]
          simp [paced, h, after, step, Waiter.hear, hnotifies, Waiter.notify, Waiter.hasKeypad,
            Waiter.ended, Waiter.advance, deliver_of_pressed h, hmore]
          rfl
      | none =>
          obtain ⟨again, hsettle⟩ := after_settle hsame h notified
          obtain ⟨hkey, hpad⟩ := waitThrough_of_not_pressed hsame h rest
          simp only [paced, h]
          rw [after_append, hsettle, hkey, hpad]
          exact ih ((deliver_of_not_pressed h).2.trans hsame) again

/-- Only a press that comes while it waits ends a wait, and then it returns the last one; a waiter
that is parked has been notified of it. It returns no key only if it is cancelled and nothing was
pressed. Keys that were held before, refused presses, releases, queries, notices and wakings without
one do not end it. The keypad is as it would be without a waiter, but for the mark, which stands
from the beginning to the end. If the events come one at a time, the first press ends the wait, or
the cancellation if there is none. -/
theorem wait_ends_by_fresh_press (h : (start pad cancel).after acts = some w) :
    let keys := pressed (delivered acts)
    (keys.length < UInt64.size →
        (∀ key, w.Returns (some key) → keys.getLast? = some key) ∧
        (w.Returns none → w.cancel = true ∧ keys = []) ∧
        ∀ before notified, w.waiter = .parked before notified → keys ≠ [] →
          notified = true ∧ w.Returns keys.getLast?) ∧
      (w.cancel = false → keys = [] → w.waiter.ended = false ∧ ∀ answer, ¬ w.Returns answer) ∧
      w.pad = { pad.deliverAll (delivered acts) with waiting := !w.waiter.ended } ∧
      ∀ events, (pad.wait events).key = (pressed events).head? ∧
        ∃ last, (start pad false).after (.advance :: .advance :: paced events) = some last ∧
          last.waiter = .returned (pad.wait events).key ∧ last.pad = (pad.wait events).pad := by
  intro keys
  have hsince := since_after h
  refine ⟨?_, hsince.goes_on, hsince.keypad, ?_⟩
  · intro hfew
    refine ⟨fun key hr => hsince.last_of_returns hfew hr, hsince.cancelled_of_returns hfew, ?_⟩
    intro before notified hw hpressed
    refine ⟨hsince.notified hfew hpressed before notified hw, ?_⟩
    rw [hsince.returns_iff hfew, hw]
    exact ⟨hpressed, rfl⟩
  · intro events
    have hbegun : pad.beginWait.presses = pad.presses := rfl
    obtain ⟨stopped, hpaced⟩ := after_paced hbegun false events
    exact ⟨key_waitThrough rfl events, _, hpaced, rfl, rfl⟩

/-- A key is held when the wait begins, and two are pressed before the waiter gets to run. -/
theorem wait_ends_by_fresh_press_overtaken :
    let acts : List Act :=
      [.advance, .advance, .event (.release 3), .advance, .advance, .advance,
        .event (.press 16), .event (.press 9), .event (.press 5)]
    let w : Watch :=
      ⟨((untouched.pressKey 3).deliverAll (delivered acts)).beginWait, false, .parked 1 true⟩
    (start (untouched.pressKey 3) false).after acts = some w ∧ w.Returns (some 5) ∧
      ¬ w.Returns (some 9) := by
  intro acts w
  have hacts : (start (untouched.pressKey 3) false).after acts = some w := by decide +kernel
  obtain ⟨hends, _⟩ := wait_ends_by_fresh_press hacts
  have hkeys : pressed (delivered acts) = [9, 5] := by decide +kernel
  rw [hkeys] at hends
  obtain ⟨hlast, _, hreturns⟩ := hends (by decide)
  refine ⟨hacts, (hreturns 1 true rfl (List.cons_ne_nil _ _)).2, ?_⟩
  intro hnine
  exact absurd (hlast 9 hnine) (by decide)

end Watch
end ChipEight.Keypad
