import ChipEight.Proofs.Console.Frames
import ChipEight.Proofs.Keypad.LastEvents
import ChipEight.Proofs.Machine.Footprint

/-!
The keys of a console. Callers press and release them, and nothing else does: no instruction, no key
wait, no load and no reset. So which keys are held and which is the latest is known from the presses
and releases among all the calls, and a key skip goes by that.
-/

namespace ChipEight

/-- What the call does to the keypad. -/
def Console.Call.keyEvents : Console.Call → List Keypad.Event
  | .press byte => [.press byte]
  | .release byte => [.release byte]
  | .load _ | .run | .halt | .wait | .reset | .tick | .display | .takeFrame | .dump => []

namespace Loop

/-- A turn may begin a wait or end one, and that is all a keypad knows of it. -/
theorem keypad_turn (l : Loop) (cancelled : Bool) (d : Devices) :
    ∃ waiting, (l.turn cancelled d).2.keypad = { d.keypad with waiting } := by
  have hstep (d : Devices) : (l.step d).2.keypad = d.keypad := by
    rw [devices_step, Machine.keypad_of_step]
  cases hp : l.parked with
  | some before =>
      rw [turn_of_parked hp]
      cases d.keypad.answer? before cancelled with
      | none => exact ⟨d.keypad.waiting, rfl⟩
      | some answer => exact ⟨false, hstep _⟩
  | none =>
      cases cancelled with
      | true =>
          rw [turn_of_cancelled hp]
          exact ⟨d.keypad.waiting, rfl⟩
      | false =>
          rw [turn_of_unparked hp]
          split
          · exact ⟨true, rfl⟩
          · exact ⟨d.keypad.waiting, hstep d⟩

end Loop

namespace Console

theorem keypad_turn (c : Console) (cancelled : Bool) :
    ∃ waiting, (c.turn cancelled).devices.keypad = { c.devices.keypad with waiting } := by
  rw [devices_turn]
  cases c.loop with
  | none => exact ⟨c.devices.keypad.waiting, rfl⟩
  | some l => exact l.keypad_turn cancelled c.devices

end Console

namespace Machine

variable {m : Machine} {d : Devices} {x : Register} {key : Key} {events : List Keypad.Event}

/-- A skip that is taken goes past the next word. -/
theorem advance_skipIf (m : Machine) (taken : Bool) :
    m.advance.skipIf taken = { m with pc := if taken then m.pc + 4 else m.pc + 2 } := by
  have htwice : m.pc + 2 + 2 = m.pc + 4 := UInt16.add_assoc m.pc 2 2
  cases taken with
  | true => rw [skipIf, if_pos rfl, if_pos rfl, ← htwice, advance, advance]
  | false => rfl

theorem step_skip {test : Test} {skips : Bool} (hn : m.next = .ok (.skip test))
    (hholds : test.holds m d.keypad = .ok skips) :
    m.step d = (.ok { m with pc := if skips then m.pc + 4 else m.pc + 2 }, d) := by
  rw [step_of_next hn]
  simp only [execute, holds_advance, hholds, ← advance_skipIf]
  rfl

/-- A key skip goes by what was last done to the key. -/
theorem step_keySkip (hd : d.keypad.Remembers events) (hkey : (m.register x).toNat = key.val) :
    (m.next = .ok (.skip (.keyDown x)) →
        m.step d =
          (.ok { m with pc := if Keypad.LastPressed key events then m.pc + 4 else m.pc + 2 }, d)) ∧
      (m.next = .ok (.skip (.keyUp x)) →
        m.step d =
          (.ok { m with pc := if Keypad.LastPressed key events then m.pc + 2 else m.pc + 4 },
            d)) := by
  have hheld : d.keypad.isHeld (m.register x) = .ok (decide (Keypad.LastPressed key events)) := by
    rw [(d.keypad.accepts_of_eq hkey).2.2, hd.held key]
  refine ⟨fun hn => ?_, fun hn => ?_⟩
  · simpa only [decide_eq_true_eq] using step_skip hn hheld
  · have hup : Test.holds m d.keypad (.keyUp x) =
        .ok (decide (¬ Keypad.LastPressed key events)) := by
      rw [Test.holds, hheld, decide_not]
      rfl
    simpa only [decide_eq_true_eq, ite_not] using step_skip hn hup

end Machine

namespace Shared

open Console (Call Reply)

def Act.keyEvents : Act → List Keypad.Event
  | .call request => request.keyEvents
  | .wake _ | .turn _ | .supply _ => []

/-- What is done to the keypad, in order. -/
def keyEvents (acts : List Act) : List Keypad.Event := acts.flatMap Act.keyEvents

variable {s : Shared} {events : List Keypad.Event}

theorem keypad_finish (s : Shared) (errand : Errand) :
    (s.finish errand).2.console.devices.keypad = s.console.devices.keypad := by
  cases errand <;> rfl

theorem keypad_ask (s : Shared) (errand : Errand) :
    (s.ask errand).2.console.devices.keypad = s.console.devices.keypad := by
  rw [ask]
  split
  · rfl
  · exact keypad_finish s errand

theorem keypad_wake (s : Shared) (k : Nat) :
    (s.wake k).2.console.devices.keypad = s.console.devices.keypad := by
  rw [wake]
  split
  · split
    · rfl
    · exact keypad_finish _ _
  · rfl

theorem keypad_start (s : Shared) :
    s.start.2.console.devices.keypad = s.console.devices.keypad := by
  have hdevices := s.console.devices_start
  rw [start]
  split
  · rename_i hstart
    rw [hstart] at hdevices
    exact congrArg Devices.keypad hdevices
  · rename_i hstart
    rw [hstart] at hdevices
    exact congrArg Devices.keypad hdevices

/-- A step does to the keypad what its event does and may set or clear the mark of a wait. -/
theorem keypad_step (s : Shared) (act : Act) :
    ∃ waiting, (s.step act).2.console.devices.keypad =
      { s.console.devices.keypad.deliverAll act.keyEvents with waiting } := by
  cases act with
  | turn looked => exact s.console.keypad_turn (looked && s.cancel)
  | wake k => exact ⟨_, keypad_wake s k⟩
  | supply random => exact ⟨_, rfl⟩
  | call call =>
      cases call with
      | load program => exact ⟨_, keypad_ask s (.load program)⟩
      | reset => exact ⟨_, keypad_ask s .reset⟩
      | halt => exact ⟨_, keypad_ask s .halt⟩
      | wait => exact ⟨_, keypad_ask s .wait⟩
      | run => exact ⟨_, keypad_start s⟩
      | press _ | release _ | tick | display | takeFrame | dump => exact ⟨_, rfl⟩

theorem follows_step (h : s.console.devices.keypad.Follows events) (act : Act) :
    (s.step act).2.console.devices.keypad.Follows (events ++ act.keyEvents) := by
  obtain ⟨waiting, hkeypad⟩ := keypad_step s act
  rw [hkeypad]
  exact (h.deliverAll act.keyEvents).mark waiting

theorem follows_after (h : s.console.devices.keypad.Follows events) (acts : List Act) :
    (s.after acts).console.devices.keypad.Follows (events ++ keyEvents acts) := by
  induction acts generalizing s events with
  | nil =>
      have hnothing : events ++ keyEvents [] = events := List.append_nil events
      rwa [hnothing]
  | cons act rest ih =>
      have hrest := ih (follows_step h act)
      rwa [List.append_assoc] at hrest

theorem step_press {byte : UInt8} {result : Except Fault Unit} {pad : Keypad}
    (h : s.console.devices.keypad.press byte = (result, pad)) :
    s.step (.call (.press byte)) =
      (some (.press byte, .ofKey result), { s with console.devices.keypad := pad }) := by
  simp only [step, call, Console.perform, Console.press, Devices.press, h]
  rfl

theorem step_release {byte : UInt8} {result : Except Fault Unit} {pad : Keypad}
    (h : s.console.devices.keypad.release byte = (result, pad)) :
    s.step (.call (.release byte)) =
      (some (.release byte, .ofKey result), { s with console.devices.keypad := pad }) := by
  simp only [step, call, Console.perform, Console.release, Devices.release, h]
  rfl

theorem remembers_after (past : List Act) :
    (new.after past).console.devices.keypad.Remembers (keyEvents past) := by
  have hnew : new.console.devices.keypad.Follows [] := Keypad.follows_new
  exact (follows_after hnew past).remembers

/-- Keys are as their last events left them, on a keypad by itself among queries, notices and
waits, and on a console among the turns of its loop and the calls of any number of callers, loads
and resets included: a key is held exactly if it was last pressed and not released, and the latest
key is the one that was pressed last. A byte that names no key is refused and changes nothing. The
key skips of a program go by the keys that are held in this sense, and change nothing but the
program counter. -/
theorem keys_follow_last_events :
    (∀ (events : List Keypad.Event) (pad : Keypad), Keypad.History events pad →
      pad.Remembers events ∧ ∀ (key : Key) (byte : UInt8), byte.toNat = key.val →
        pad.isHeld byte = .ok (decide (Keypad.LastPressed key events))) ∧
      (∀ past : List Act,
        let d := (new.after past).console.devices
        let events := keyEvents past
        d.keypad.Remembers events ∧
          ∀ (m : Machine) (x : Register) (key : Key), (m.register x).toNat = key.val →
            (m.next = .ok (.skip (.keyDown x)) →
              m.step d =
                (.ok { m with pc := if Keypad.LastPressed key events then m.pc + 4 else m.pc + 2 },
                  d)) ∧
            (m.next = .ok (.skip (.keyUp x)) →
              m.step d =
                (.ok { m with pc := if Keypad.LastPressed key events then m.pc + 2 else m.pc + 4 },
                  d))) ∧
      (∀ (s : Shared) (byte : UInt8), byte.toNat ≤ 0xF →
        (s.step (.call (.press byte))).1 = some (.press byte, .done) ∧
          (s.step (.call (.release byte))).1 = some (.release byte, .done)) ∧
      ∀ byte : UInt8, 0xF < byte.toNat →
        (∀ pad : Keypad,
          pad.press byte = (.error (.invalidKeyIndex byte), pad) ∧
            pad.release byte = (.error (.invalidKeyIndex byte), pad) ∧
            pad.isHeld byte = .error (.invalidKeyIndex byte)) ∧
        ∀ s : Shared,
          s.step (.call (.press byte)) =
              (some (.press byte, .faulted (.invalidKeyIndex byte)), s) ∧
            s.step (.call (.release byte)) =
              (some (.release byte, .faulted (.invalidKeyIndex byte)), s) := by
  refine ⟨?_, ?_, ?_, ?_⟩
  · intro events pad hpad
    have hall := hpad.follows.remembers
    refine ⟨hall, ?_⟩
    intro key byte hkey
    rw [(pad.accepts_of_eq hkey).2.2, hall.held key]
  · intro past d events
    have hall : d.keypad.Remembers events := remembers_after past
    exact ⟨hall, fun _ _ _ hkey => Machine.step_keySkip hall hkey⟩
  · intro s byte hbyte
    have hkey : byte.toNat = (⟨byte.toNat, Nat.lt_succ_of_le hbyte⟩ : Key).val := rfl
    obtain ⟨hpress, hrelease, _⟩ := s.console.devices.keypad.accepts_of_eq hkey
    exact ⟨congrArg Prod.fst (step_press hpress), congrArg Prod.fst (step_release hrelease)⟩
  · intro byte hbyte
    refine ⟨fun pad => pad.refuses_of_lt hbyte, ?_⟩
    intro s
    obtain ⟨hpress, hrelease, _⟩ := s.console.devices.keypad.refuses_of_lt hbyte
    exact ⟨step_press hpress, step_release hrelease⟩

/-- Two keys are pressed, and one is released again, around a load and before a reset. -/
theorem keys_follow_last_events_around_load :
    let past : List Act := [.call (.press 3), .call (.press 5), .call (.load [0xE0, 0x9E]),
      .call (.release 3), .call (.press 0x10), .call .reset]
    let d := (new.after past).console.devices
    let m := { (Machine.load [0xE0, 0x9E]).2 with registers := .replicate registerCount 5 }
    d.keypad.held.get 3 = false ∧ d.keypad.latest = some 5 ∧
      m.step d = (.ok { m with pc := 0x204 }, d) ∧
      Keypad.History [.press 9] (Keypad.untouched.pressKey 9) ∧
      (Keypad.untouched.pressKey 9).isHeld 9 = .ok true ∧
      (new.step (.call (.release 9))).1 = some (.release 9, .done) ∧
      new.step (.call (.press 0x10)) =
        (some (.press 0x10, .faulted (.invalidKeyIndex 0x10)), new) := by
  intro past d m
  obtain ⟨halone, hshared, haccepts, hrefuses⟩ := keys_follow_last_events
  obtain ⟨hall, hskip⟩ := hshared past
  have hpast : ¬ Keypad.LastPressed 3 (keyEvents past) ∧
      Keypad.LastPressed 5 (keyEvents past) ∧
      (Keypad.pressed (keyEvents past)).getLast? = some 5 := by decide
  have hnext : m.next = .ok (.skip (.keyDown 0)) := by decide +kernel
  have hstep := (hskip m 0 5 (by decide)).1 hnext
  rw [if_pos hpast.2.1] at hstep
  have hhistory : Keypad.History [.press 9] (Keypad.untouched.pressKey 9) :=
    .call (.press 9) .new
  exact ⟨(hall.held 3).trans (decide_eq_false hpast.1), hall.latest.trans hpast.2.2, hstep,
    hhistory, (halone _ _ hhistory).2 9 9 rfl, (haccepts new 9 (by decide)).2,
    ((hrefuses 0x10 (by decide)).2 new).1⟩

end Shared
end ChipEight
