import ChipEight.Proofs.Console.Returns
import ChipEight.Proofs.Devices.Countdown

/-!
The timers of a console with any number of callers. They run on ticks alone: of the instructions two
write a timer and none does anything else to them, a load and a reset return both to zero when they
return themselves, whether or not the program fits, and no other call and no turn that was cancelled
reaches them.
-/

namespace ChipEight

open Timers (Clock)

/-- What the instruction does to the timers. -/
def Instruction.timerEvents (m : Machine) : Instruction → List Timers.Event
  | .setDelay x => [.write .delay (m.register x)]
  | .setSound x => [.write .sound (m.register x)]
  | _ => []

namespace Machine

/-- What a step does to the timers. -/
def timerEvents (m : Machine) : List Timers.Event :=
  match m.next with
  | .ok i => i.timerEvents m
  | .error _ => []

variable {m : Machine} {d : Devices} {f : Fault} {x : Register}

theorem timers_execute (m : Machine) (d : Devices) (i : Instruction) :
    (m.execute d i).2.timers = d.timers.after (i.timerEvents m) := by
  cases i with
  | draw x y rows =>
      simp only [execute]
      cases m.memory.slice m.index.toNat rows.toNat <;> rfl
  | awaitKey x =>
      simp only [execute]
      cases d.feed.takeAnswer.1 <;> rfl
  | _ => rfl

theorem timers_step (m : Machine) (d : Devices) :
    (m.step d).2.timers = d.timers.after m.timerEvents := by
  cases hn : m.next with
  | error f =>
      rw [step_of_next_error hn, timerEvents, hn]
      rfl
  | ok i =>
      have hadvance : i.timerEvents m.advance = i.timerEvents m := by
        cases i <;> rfl
      rw [step_of_next hn, timers_execute, hadvance, timerEvents, hn]

theorem timerEvents_of_fault (h : (m.step d).1 = .error f) : m.timerEvents = [] := by
  cases hn : m.next with
  | error f => rw [timerEvents, hn]
  | ok i =>
      rw [step_of_next hn] at h
      rw [timerEvents, hn]
      cases i with
      | setDelay x => cases h
      | setSound x => cases h
      | _ => rfl

theorem timerEvents_of_awaitsKey (h : Loop.awaitsKey m) : m.timerEvents = [] := by
  obtain ⟨x, hx⟩ := Loop.exists_awaitKey h
  rw [timerEvents, hx]
  rfl

theorem step_readDelay (hn : m.next = .ok (.readDelay x)) (d : Devices) :
    m.step d = (.ok (m.advance.setRegister x (d.timers.read .delay)), d) :=
  step_of_next hn d

end Machine

/-- What a turn does to the timers. -/
def Loop.timerEvents (l : Loop) (cancelled : Bool) : List Timers.Event :=
  if cancelled then [] else l.machine.timerEvents

theorem Loop.Leaves.timers {l : Loop} {cancelled : Bool} {d d' : Devices}
    (h : l.Leaves cancelled d d') : d'.timers = d.timers.after (l.timerEvents cancelled) := by
  cases h with
  | idle hidle waiting answers =>
      have hnone : l.timerEvents cancelled = [] := by
        rw [timerEvents]
        split
        · rfl
        · exact Machine.timerEvents_of_awaitsKey (hidle.resolve_left ‹_›)
      rw [hnone]
      rfl
  | step hlooked =>
      rw [Machine.timers_step, timerEvents, hlooked]
      rfl

namespace Console

variable {c : Console}

/-- What a turn of the loop does to the timers. -/
def timerEvents (c : Console) (cancelled : Bool) : List Timers.Event :=
  match c.loop with
  | some l => l.timerEvents cancelled
  | none => []

theorem Sane.timers_turn (h : c.Sane) (cancelled : Bool) :
    (c.turn cancelled).devices.timers = c.devices.timers.after (c.timerEvents cancelled) := by
  rw [devices_turn, timerEvents]
  cases hl : c.loop with
  | none => rfl
  | some l => exact ((h.parks l hl).leaves cancelled c.devices).timers

/-- What a call has done to the timers when it returns. -/
def Call.timerEvents : Call → List Timers.Event
  | .load _ | .reset => [.renew]
  | .tick => [.tick]
  | .run | .halt | .wait | .press _ | .release _ | .display | .takeFrame | .dump => []

theorem soundActive_eq (c : Console) :
    c.soundActive = decide (0 < (c.devices.timers.read .sound).toNat) := by
  have hne : c.devices.timers.sound ≠ 0 ↔ 0 < c.devices.timers.sound.toNat :=
    (not_congr UInt8.toNat_inj.symm).trans Nat.pos_iff_ne_zero.symm
  exact decide_eq_decide.mpr hne

end Console

namespace Shared

open Console (Call Reply)

/-- What an act does to the timers. -/
def timerEvents (s : Shared) : Act → List Timers.Event
  | .turn looked => s.console.timerEvents (looked && s.cancel)
  | act => (s.step act).1.elim [] fun (call, _) => call.timerEvents

/-- What a list of acts does to the timers, in order. -/
def timerTrace (s : Shared) : List Act → List Timers.Event
  | [] => []
  | act :: rest => s.timerEvents act ++ (s.step act).2.timerTrace rest

variable {s : Shared}

theorem Served.timers {c c' : Console} {returned : Option (Call × Reply)}
    (hserved : Served c returned c') :
    c'.devices.timers =
      c.devices.timers.after (returned.elim [] fun (call, _) => call.timerEvents) := by
  cases hserved with
  | blocked => rfl
  | returned call =>
      cases call with
      | run => exact congrArg Devices.timers c.devices_start
      | _ => rfl

theorem timers_step (h : s.console.Sane) (act : Act) :
    (s.step act).2.console.devices.timers =
      s.console.devices.timers.after (s.timerEvents act) := by
  cases act with
  | call call => exact (served_call s call).timers
  | wake k => exact (served_wake s k).timers
  | turn looked => exact h.timers_turn (looked && s.cancel)
  | supply random => rfl

theorem timers_after (h : s.console.Sane) (acts : List Act) :
    (s.after acts).console.devices.timers = s.console.devices.timers.after (s.timerTrace acts) := by
  induction acts generalizing s with
  | nil => rfl
  | cons act rest ih =>
      have hrest := ih (sane_step h act)
      rw [timerTrace, Timers.after_append, ← timers_step h act]
      exact hrest

theorem toNat_read_after (past : List Act) (clock : Clock) :
    ((new.after past).console.devices.timers.read clock).toNat =
      Timers.remaining clock (new.timerTrace past) := by
  rw [timers_after Console.sane_new past]
  exact Timers.toNat_read_after clock (new.timerTrace past)

/-- Timers run on ticks alone, be it by themselves, under a program, or on a console under any calls
of any number of callers among the turns of its loop. Each is at the value that was last written to
it since both were returned to zero, or at zero if none was, less the ticks since then, and never
below zero; what is done to the other does not matter. A step of a program writes the delay timer
or the sound timer where it carries out the instruction for it, and does nothing to them otherwise,
so not where it faults. A program reads the delay timer as it is, and a beeper sounds while the
sound timer is above zero. -/
theorem timers_run_on_ticks_alone :
    (∀ (events : List Timers.Event) (clock : Clock),
        let value := ((Timers.zero.after events).read clock).toNat
        value = (Timers.written clock events).toNat - Timers.ticksSince clock events ∧
          value ≤ (Timers.written clock events).toNat) ∧
      (∀ (m : Machine) (d : Devices),
        (m.step d).2.timers = d.timers.after m.timerEvents ∧
          (∀ f, (m.step d).1 = .error f → m.timerEvents = []) ∧
          ∀ x, m.next = .ok (.readDelay x) →
            m.step d = (.ok (m.advance.setRegister x (d.timers.read .delay)), d)) ∧
      ∀ past : List Act,
        let c := (new.after past).console
        let events := new.timerTrace past
        (∀ clock,
          let value := (c.devices.timers.read clock).toNat
          value = (Timers.written clock events).toNat - Timers.ticksSince clock events ∧
            value ≤ (Timers.written clock events).toNat) ∧
          c.soundActive =
            decide (Timers.ticksSince .sound events < (Timers.written .sound events).toNat) := by
  refine ⟨?_, ?_, ?_⟩
  · intro events clock value
    have hvalue : value = Timers.remaining clock events := Timers.toNat_read_after clock events
    exact ⟨hvalue, hvalue ▸ Timers.remaining_le clock events⟩
  · intro m d
    exact ⟨m.timers_step d, fun _ => Machine.timerEvents_of_fault,
      fun _ hn => Machine.step_readDelay hn d⟩
  · intro past c events
    refine ⟨?_, ?_⟩
    · intro clock value
      have hvalue : value = Timers.remaining clock events := toNat_read_after past clock
      exact ⟨hvalue, hvalue ▸ Timers.remaining_le clock events⟩
    · rw [c.soundActive_eq, toNat_read_after past .sound]
      exact decide_eq_decide.mpr Nat.sub_pos_iff_lt

/-- Both timers are set to five, with a tick in between and two after; then a word that is no
instruction. -/
theorem timers_run_on_ticks_alone_of_five :
    let program := [0x60, 0x05, 0xF0, 0x15, 0xF0, 0x18, 0xF1, 0x07, 0xFF, 0xFF]
    let past : List Act := [.call (.load program), .call .run, .turn false, .turn false,
      .call .tick, .turn false, .call .tick, .call (.press 3), .call .tick]
    let c := (new.after past).console
    let m := (Machine.load program).2
    let reading := { m with pc := 0x206 }
    let broken := { m with pc := 0x208 }
    (c.devices.timers.read .delay).toNat = 2 ∧ (c.devices.timers.read .sound).toNat = 3 ∧
      c.soundActive = true ∧
      reading.step c.devices = (.ok (reading.advance.setRegister 1 2), c.devices) ∧
      broken.timerEvents = [] := by
  intro program past c m reading broken
  obtain ⟨_, hprogram, hconsole⟩ := timers_run_on_ticks_alone
  obtain ⟨hclocks, hsound⟩ := hconsole past
  have htrace : new.timerTrace past =
      [.renew, .write .delay 5, .tick, .write .sound 5, .tick, .tick] := by decide +kernel
  rw [htrace] at hclocks hsound
  have hdelay : (c.devices.timers.read .delay).toNat = 2 := (hclocks .delay).1
  have hbeep : (c.devices.timers.read .sound).toNat = 3 := (hclocks .sound).1
  have hreading : reading.next = .ok (.readDelay 1) := by decide +kernel
  have hread := (hprogram reading c.devices).2.2 1 hreading
  have htwo : c.devices.timers.read .delay = 2 := UInt8.toNat_inj.mp hdelay
  have hbroken : (broken.step .fresh).1 = .error (.invalidInstruction 0xFFFF) := by decide +kernel
  rw [htwo] at hread
  exact ⟨hdelay, hbeep, hsound, hread,
    (hprogram broken .fresh).2.1 _ hbroken⟩

end Shared
end ChipEight
