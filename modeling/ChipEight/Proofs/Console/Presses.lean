import ChipEight.Proofs.Console.History
import ChipEight.Proofs.Devices.Touch

/-!
How many presses a keypad has counted is nobody's business. A wait compares two counts only, so a
console that has counted `n` presses more, and whose loop parked `n` presses later, answers every
call as before and goes on differing in that alone.
-/

namespace ChipEight

theorem Keypad.presses_comm (presses n : UInt64) : presses + n + 1 = presses + 1 + n := by
  rw [UInt64.add_assoc, UInt64.add_comm n, ← UInt64.add_assoc]

def Keypad.recount (pad : Keypad) (n : UInt64) : Keypad :=
  { pad with presses := pad.presses + n }

theorem Keypad.answer?_recount (pad : Keypad) (before n : UInt64) (cancelled : Bool) :
    (pad.recount n).answer? (before + n) cancelled = pad.answer? before cancelled := by
  simp only [Keypad.answer?, Keypad.recount, ne_eq, UInt64.add_left_inj]

namespace Devices

def recount (d : Devices) (n : UInt64) : Devices := { d with keypad := d.keypad.recount n }

@[simp] theorem keypad_recount (d : Devices) (n : UInt64) :
    (d.recount n).keypad = d.keypad.recount n := rfl

@[simp] theorem feed_recount (d : Devices) (n : UInt64) : (d.recount n).feed = d.feed := rfl

theorem press_recount (d : Devices) (n : UInt64) (byte : UInt8) :
    (d.recount n).press byte = ((d.press byte).1, (d.press byte).2.recount n) := by
  simp only [press, Keypad.press, recount]
  cases Key.ofByte byte with
  | error f => rfl
  | ok key =>
      simp only [Keypad.pressKey, Keypad.recount, Prod.map, id, Keypad.presses_comm]

theorem release_recount (d : Devices) (n : UInt64) (byte : UInt8) :
    (d.recount n).release byte = ((d.release byte).1, (d.release byte).2.recount n) := by
  simp only [release, Keypad.release, recount]
  cases Key.ofByte byte <;> rfl

end Devices

namespace Machine

theorem execute_recount (m : Machine) (d : Devices) (n : UInt64) (i : Instruction) :
    m.execute (d.recount n) i = ((m.execute d i).1, (m.execute d i).2.recount n) := by
  cases i with
  | skip test => cases test <;> rfl
  | draw x y rows =>
      simp only [execute]
      cases m.memory.slice m.index.toNat rows.toNat <;> rfl
  | awaitKey x =>
      simp only [execute, Devices.feed_recount]
      cases d.feed.takeAnswer.1 <;> rfl
  | _ => rfl

theorem step_recount (m : Machine) (d : Devices) (n : UInt64) :
    m.step (d.recount n) = ((m.step d).1, (m.step d).2.recount n) := by
  simp only [step]
  cases m.next with
  | error f => rfl
  | ok i => exact m.advance.execute_recount d n i

end Machine

namespace Loop

def recount (l : Loop) (n : UInt64) : Loop := { l with parked := l.parked.map (· + n) }

end Loop

def Turn.recount (n : UInt64) : Turn → Turn
  | .goOn l => .goOn (l.recount n)
  | .stop m trap => .stop m trap

namespace Loop

theorem step_recount (l : Loop) (d : Devices) (n : UInt64) :
    (l.recount n).step (d.recount n) = ((l.step d).1.recount n, (l.step d).2.recount n) := by
  have hstep := l.machine.step_recount d n
  simp only [step, recount, hstep]
  cases hs : l.machine.step d with
  | mk outcome devices => cases outcome <;> rfl

theorem turn_recount (l : Loop) (cancelled : Bool) (d : Devices) (n : UInt64) :
    (l.recount n).turn cancelled (d.recount n) =
      ((l.turn cancelled d).1.recount n, (l.turn cancelled d).2.recount n) := by
  cases hp : l.parked with
  | some before =>
      have hp' : (l.recount n).parked = some (before + n) := by
        simp only [recount, hp, Option.map_some]
      have hanswer := d.keypad.answer?_recount before n cancelled
      rw [turn_of_parked hp, turn_of_parked hp', Devices.keypad_recount, hanswer]
      cases d.keypad.answer? before cancelled with
      | none => rfl
      | some answer =>
          exact l.step_recount { d with keypad := d.keypad.endWait, feed.answers := [answer] } n
  | none =>
      have hp' : (l.recount n).parked = none := by
        simp only [recount, hp, Option.map_none]
      cases cancelled with
      | true =>
          rw [turn_of_cancelled hp, turn_of_cancelled hp']
          rfl
      | false =>
          rw [turn_of_unparked hp, turn_of_unparked hp']
          by_cases hw : awaitsKey l.machine
          · have hw' : awaitsKey (l.recount n).machine := hw
            rw [if_pos hw, if_pos hw']
            rfl
          · have hw' : ¬ awaitsKey (l.recount n).machine := hw
            rw [if_neg hw, if_neg hw']
            exact l.step_recount d n

end Loop

namespace Console

def recount (c : Console) (n : UInt64) : Console :=
  { c with loop := c.loop.map (·.recount n), devices := c.devices.recount n }

variable (c : Console) (n : UInt64)

@[simp] theorem devices_recount : (c.recount n).devices = c.devices.recount n := rfl

theorem turn_recount (cancelled : Bool) :
    (c.recount n).turn cancelled = (c.turn cancelled).recount n := by
  cases hl : c.loop with
  | none =>
      rw [turn_of_idle hl, turn_of_idle]
      simp only [recount, hl, Option.map_none]
  | some l =>
      have hl' : (c.recount n).loop = some (l.recount n) := by
        simp only [recount, hl, Option.map_some]
      have hturn := l.turn_recount cancelled c.devices n
      cases ht : l.turn cancelled c.devices with
      | mk outcome devices =>
          rw [ht] at hturn
          cases outcome with
          | goOn next =>
              rw [turn_of_goOn hl ht, turn_of_goOn hl' hturn]
              rfl
          | stop m trap =>
              rw [turn_of_stop hl ht, turn_of_stop hl' hturn]
              rfl

theorem stop_recount : (c.recount n).stop = c.stop.recount n := by
  simp only [stop, turn_recount]

theorem start_recount :
    (c.recount n).start = (c.start.1, c.start.2.recount n) := by
  obtain ⟨resting, loop, trap, loaded, running, devices⟩ := c
  cases running <;> cases loaded <;> cases resting <;> rfl

theorem perform_recount (call : Call) :
    (c.recount n).perform call = ((c.perform call).1, (c.perform call).2.recount n) := by
  cases call with
  | load program =>
      simp only [perform, load, stop_recount]
      rfl
  | run =>
      simp only [perform, start_recount]
      rfl
  | halt =>
      simp only [perform, halt, stop_recount]
      rfl
  | reset =>
      simp only [perform, reset, stop_recount]
      rfl
  | wait =>
      obtain ⟨resting, loop, trap, loaded, running, devices⟩ := c
      cases running <;> rfl
  | press byte =>
      simp only [perform, press, devices_recount, Devices.press_recount]
      rfl
  | release byte =>
      simp only [perform, release, devices_recount, Devices.release_recount]
      rfl
  | tick | display | takeFrame | dump => rfl

end Console
end ChipEight
