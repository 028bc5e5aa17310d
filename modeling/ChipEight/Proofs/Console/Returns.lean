import ChipEight.Console.Shared
import ChipEight.Proofs.Console.History

/-!
What one act can do to a console. A caller is blocked and leaves it as it is, or one call returns
and has done at that moment all that it does. A turn of the loop carries out an instruction of the
machine, or touches nothing of the devices but a key wait.
-/

namespace ChipEight

namespace Loop

variable {l : Loop}

theorem devices_step (l : Loop) (d : Devices) : (l.step d).2 = (l.machine.step d).2 := by
  rw [step]
  split
  · rename_i hs
    rw [hs]
  · rename_i hs
    rw [hs]

/-- The devices after a turn, from what they were before it. -/
inductive Leaves (l : Loop) (cancelled : Bool) (d : Devices) : Devices → Prop where
  /-- No instruction but a key wait has come to its turn. -/
  | idle (hidle : cancelled = true ∨ awaitsKey l.machine = true) (waiting : Bool)
      (answers : List (Option Key)) :
      Leaves l cancelled d { d with keypad.waiting := waiting, feed.answers := answers }
  | step (hlooked : cancelled = false) : Leaves l cancelled d (l.machine.step d).2

theorem ParksAtWaits.leaves (h : l.ParksAtWaits) (cancelled : Bool) (d : Devices) :
    l.Leaves cancelled d (l.turn cancelled d).2 := by
  cases hp : l.parked with
  | some before =>
      have hw : awaitsKey l.machine := h (by simp [hp])
      obtain ⟨x, hx⟩ := exists_awaitKey hw
      rw [turn_of_parked hp]
      cases d.keypad.answer? before cancelled with
      | some answer =>
          simp only [wake_eq hx]
          exact .idle (.inr hw) false []
      | none => exact .idle (.inr hw) d.keypad.waiting d.feed.answers
  | none =>
      cases cancelled with
      | true =>
          rw [turn_of_cancelled hp]
          exact .idle (.inl rfl) d.keypad.waiting d.feed.answers
      | false =>
          rw [turn_of_unparked hp]
          split
          · exact .idle (.inr ‹_›) true d.feed.answers
          · rw [devices_step]
            exact .step rfl

end Loop

namespace Console

variable {c : Console}

theorem devices_turn (c : Console) (cancelled : Bool) :
    (c.turn cancelled).devices =
      c.loop.elim c.devices fun l => (l.turn cancelled c.devices).2 := by
  cases hl : c.loop with
  | none => rw [turn_of_idle hl, Option.elim_none]
  | some l =>
      rw [Option.elim_some]
      cases ht : l.turn cancelled c.devices with
      | mk outcome devices =>
          cases outcome with
          | goOn next => rw [turn_of_goOn hl ht]
          | stop m trap => rw [turn_of_stop hl ht, handBack]

theorem devices_start (c : Console) : c.start.2.devices = c.devices := by
  obtain ⟨resting, loop, trap, loaded, running, devices⟩ := c
  cases running <;> cases loaded <;> cases resting <;> rfl

theorem isSome_loop_start (h : c.loop.isSome = c.running) :
    c.start.2.loop.isSome = c.start.2.running := by
  simp only [start]
  split
  · exact h
  · split
    · rfl
    · exact h

theorem not_running_of_start (h : c.start.1 = .ok ()) : c.running = false := by
  cases hr : c.running with
  | false => rfl
  | true =>
      simp only [start, hr, if_true] at h
      cases h

theorem loop_start_of_refused {refusal : Refusal} (h : c.start.1 = .error refusal) :
    c.start.2.loop = c.loop ∧ c.start.2.running = c.running ∧ c.start.2.devices = c.devices := by
  obtain ⟨resting, loop, trap, loaded, running, devices⟩ := c
  cases running <;> cases loaded <;> cases resting <;> first | exact ⟨rfl, rfl, rfl⟩ | cases h

/-- Starting a run does not look at the devices. -/
theorem start_withDevices (c : Console) (devices : Devices) :
    (start { c with devices }).1 = c.start.1 ∧
      (start { c with devices }).2 = { c.start.2 with devices } := by
  obtain ⟨resting, loop, trap, loaded, running, before⟩ := c
  cases running <;> cases loaded <;> cases resting <;> exact ⟨rfl, rfl⟩

/-- A load, a reset, a halt or a wait does its work behind the back of a running loop. -/
theorem loop_finish (c : Console) (errand : Errand) :
    (errand.finish c).2.loop = c.loop ∧ (errand.finish c).2.running = c.running ∧
      (errand.finish c).2.devices.keypad = c.devices.keypad := by
  cases errand <;> exact ⟨rfl, rfl, rfl⟩

/-- What a call does at the moment when it returns, and its reply. A loop that it had to wait for
has stopped before. -/
def finish (c : Console) : Call → Reply × Console
  | .load program => (c.install program).map .ofStart id
  | .reset => (.done, c.wipe)
  | .halt | .wait => c.collect.map .stopped id
  | other => c.perform other

end Console

namespace Shared

open Console (Call Reply)

/-- A caller is blocked, or a call returns. -/
inductive Served (c : Console) : Option (Call × Reply) → Console → Prop where
  | blocked : Served c none c
  | returned (call : Call) : Served c (some (call, (c.finish call).1)) (c.finish call).2

variable {s : Shared} {c c' : Console} {returned : Option (Call × Reply)}

theorem served_finish (s : Shared) (errand : Errand) :
    Served s.console (s.finish errand).1 (s.finish errand).2.console := by
  cases errand with
  | load program => exact .returned (.load program)
  | reset => exact .returned .reset
  | halt => exact .returned .halt
  | wait => exact .returned .wait

theorem served_ask (s : Shared) (errand : Errand) :
    Served s.console (s.ask errand).1 (s.ask errand).2.console := by
  rw [ask]
  split
  · exact .blocked
  · exact served_finish s errand

theorem served_wake (s : Shared) (k : Nat) :
    Served s.console (s.wake k).1 (s.wake k).2.console := by
  rw [wake]
  split
  · rename_i b hb
    split
    · exact .blocked
    · exact served_finish { s with blocked := s.blocked.eraseIdx k } b.errand
  · exact .blocked

theorem start_eq (s : Shared) :
    s.start.1 = some (.run, (s.console.perform .run).1) ∧
      s.start.2.console = (s.console.perform .run).2 := by
  simp only [start, Console.perform]
  cases s.console.start with
  | mk outcome console => cases outcome <;> exact ⟨rfl, rfl⟩

theorem served_start (s : Shared) : Served s.console s.start.1 s.start.2.console := by
  obtain ⟨hreturned, hconsole⟩ := s.start_eq
  rw [hreturned, hconsole]
  exact .returned .run

theorem served_call (s : Shared) (call : Call) :
    Served s.console (s.call call).1 (s.call call).2.console := by
  cases call with
  | load program => exact served_ask s (.load program)
  | reset => exact served_ask s .reset
  | halt => exact served_ask s .halt
  | wait => exact served_ask s .wait
  | run => exact served_start s
  | press byte => exact .returned (.press byte)
  | release byte => exact .returned (.release byte)
  | tick => exact .returned .tick
  | display => exact .returned .display
  | takeFrame => exact .returned .takeFrame
  | dump => exact .returned .dump

theorem Served.sane (hserved : Served c returned c') (h : c.Sane) : c'.Sane := by
  cases hserved with
  | blocked => exact h
  | returned call =>
      cases call with
      | load program => exact h.install program
      | reset => exact h.wipe
      | halt | wait => exact h.of_eq rfl rfl
      | run => exact h.start
      | press | release | tick | takeFrame => exact h.of_eq rfl rfl
      | display | dump => exact h

theorem sane_step (h : s.console.Sane) (act : Act) : (s.step act).2.console.Sane := by
  cases act with
  | call call => exact (served_call s call).sane h
  | wake k => exact (served_wake s k).sane h
  | turn looked => exact h.turn (looked && s.cancel)
  | supply random => exact h.of_eq rfl rfl

end Shared
end ChipEight
