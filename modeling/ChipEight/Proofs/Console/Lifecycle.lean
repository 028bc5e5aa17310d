import ChipEight.Proofs.Console.History
import ChipEight.Proofs.Devices.Touch
import ChipEight.Proofs.Machine.Loading

/-!
The lifecycle of a console. At any moment it is at rest, with the machine in its own hands, or at
work, with the machine in the hands of its loop; everything that callers can ask follows from which
of the two it is. A call that is refused for its own sake changes nothing at all.
-/

namespace ChipEight.Console

open Devices (Touch)

/-- Nothing runs. A trap is what the machine in place meets, and without a program there is neither
a trap nor anything but the machine of power on. -/
structure AtRest (c : Console) (m : Machine) : Prop where
  resting : c.resting = some m
  loop : c.loop = none
  running : c.running = false
  waiting : c.devices.keypad.waiting = false
  answers : c.devices.feed.answers = []
  unloaded : c.loaded = false → m = .boot ∧ c.trap = none
  trap : ∀ t ∈ c.trap, t.address = m.pc ∧ ∀ d, m.step d = (.error t.fault, d)

/-- A loop has the machine. The keypad is waited on exactly while it is parked. -/
structure AtWork (c : Console) (l : Loop) : Prop where
  resting : c.resting = none
  loop : c.loop = some l
  running : c.running = true
  loaded : c.loaded = true
  trap : c.trap = none
  waiting : c.devices.keypad.waiting = l.parked.isSome
  answers : c.devices.feed.answers = []
  parks : l.ParksAtWaits

def Orderly (c : Console) : Prop := (∃ m, c.AtRest m) ∨ ∃ l, c.AtWork l

variable {c : Console} {l : Loop} {m : Machine} {cancelled : Bool} {before : UInt64}

theorem orderly_new : new.Orderly :=
  .inl ⟨.boot, rfl, rfl, rfl, rfl, rfl, fun _ => ⟨rfl, rfl⟩, nofun⟩

theorem Orderly.atRest_of_idle (h : c.Orderly) (hr : c.running = false) : ∃ m, c.AtRest m := by
  rcases h with hrest | ⟨l, hwork⟩
  · exact hrest
  · cases hwork.running.symm.trans hr

theorem Orderly.atWork_of_running (h : c.Orderly) (hr : c.running = true) : ∃ l, c.AtWork l := by
  rcases h with ⟨m, hrest⟩ | hwork
  · cases hrest.running.symm.trans hr
  · exact hwork

/-! Events that leave the loop alone. -/

def touch (c : Console) (event : Touch) : Console := { c with devices := c.devices.touch event }

theorem AtRest.touch (h : c.AtRest m) (event : Touch) : (c.touch event).AtRest m where
  resting := h.resting
  loop := h.loop
  running := h.running
  waiting := (Devices.waiting_touch _ _).trans h.waiting
  answers := (Devices.answers_touch _ _).trans h.answers
  unloaded := h.unloaded
  trap := h.trap

theorem AtWork.touch (h : c.AtWork l) (event : Touch) : (c.touch event).AtWork l where
  resting := h.resting
  loop := h.loop
  running := h.running
  loaded := h.loaded
  trap := h.trap
  waiting := (Devices.waiting_touch _ _).trans h.waiting
  answers := (Devices.answers_touch _ _).trans h.answers
  parks := h.parks

theorem Orderly.touch (h : c.Orderly) (event : Touch) : (c.touch event).Orderly := by
  rcases h with ⟨m, h⟩ | ⟨l, h⟩
  · exact .inl ⟨m, h.touch event⟩
  · exact .inr ⟨l, h.touch event⟩

/-! Turns of the loop. -/

theorem AtWork.waiting_of_unparked (h : c.AtWork l) (hp : l.parked = none) :
    c.devices.keypad.waiting = false := by
  rw [h.waiting, hp, Option.isSome_none]

/-- The console after its loop has left a key wait with the machine `m`. -/
def awake (c : Console) (m : Machine) : Console :=
  { c with loop := some (.ofMachine m), devices.keypad := c.devices.keypad.endWait }

theorem AtWork.awake (h : c.AtWork l) (m : Machine) : (c.awake m).AtWork (.ofMachine m) where
  resting := h.resting
  loop := rfl
  running := h.running
  loaded := h.loaded
  trap := h.trap
  waiting := rfl
  answers := h.answers
  parks := Loop.parksAtWaits_ofMachine m

theorem AtWork.handBack (h : c.AtWork l) (hp : l.parked = none) (m : Machine) (t : Option Trap)
    (ht : ∀ t' ∈ t, t'.address = m.pc ∧ ∀ d, m.step d = (.error t'.fault, d)) :
    (c.handBack m t).AtRest m where
  resting := rfl
  loop := rfl
  running := rfl
  waiting := h.waiting_of_unparked hp
  answers := h.answers
  unloaded hl := nomatch h.loaded.symm.trans hl
  trap := ht

theorem AtWork.turn_of_answer (h : c.AtWork l) (hp : l.parked = some before)
    {answer : Option Key} (ha : c.devices.keypad.answer? before cancelled = some answer) :
    ∃ m, c.turn cancelled = c.awake m ∧ (answer = none → m = l.machine) := by
  obtain ⟨x, hx⟩ := Loop.exists_awaitKey (h.parks (by simp [hp]))
  refine ⟨l.machine.afterWait x answer, ?_, ?_⟩
  · have hturn := Loop.turn_of_parked hp cancelled c.devices
    rw [ha] at hturn
    rw [turn_of_goOn h.loop (hturn.trans (Loop.wake_eq hx answer _)), Console.awake, ← h.answers]
  · rintro rfl
    rfl

theorem AtWork.turn_of_no_answer (h : c.AtWork l) (hp : l.parked = some before)
    (ha : c.devices.keypad.answer? before cancelled = none) : c.turn cancelled = c := by
  have hturn := Loop.turn_of_parked hp cancelled c.devices
  rw [ha] at hturn
  rw [turn_of_goOn h.loop hturn, ← h.loop]

theorem AtWork.turn_of_cancelled (h : c.AtWork l) (hp : l.parked = none) :
    c.turn true = c.handBack l.machine none :=
  turn_of_stop h.loop (Loop.turn_of_cancelled hp _)

theorem AtWork.turn_of_fault (h : c.AtWork l) {f : Fault}
    (hm : ∀ d, l.machine.step d = (.error f, d)) :
    c.turn false = c.handBack l.machine (some ⟨l.machine.pc, f⟩) :=
  turn_of_stop h.loop (h.parks.turn_of_fault hm c.devices)

theorem AtWork.turn_of_awaitsKey (h : c.AtWork l) (hp : l.parked = none)
    (hw : Loop.awaitsKey l.machine) :
    c.turn false =
      { c with
        loop := some { l with parked := some c.devices.keypad.presses }
        devices.keypad := c.devices.keypad.beginWait } := by
  have hturn := Loop.turn_of_unparked hp c.devices
  rw [if_pos hw] at hturn
  exact turn_of_goOn h.loop hturn

theorem AtWork.parks_of_awaitsKey (h : c.AtWork l) (hp : l.parked = none)
    (hw : Loop.awaitsKey l.machine) :
    (c.turn false).AtWork { l with parked := some c.devices.keypad.presses } := by
  rw [h.turn_of_awaitsKey hp hw]
  exact ⟨h.resting, rfl, h.running, h.loaded, h.trap, rfl, h.answers, fun _ => hw⟩

/-- A turn that carries out an instruction: the loop has the next machine, or the console has this
one back with a trap. -/
theorem AtWork.turn_of_step (h : c.AtWork l) (hp : l.parked = none)
    (hw : ¬ Loop.awaitsKey l.machine) :
    (∃ m, (c.turn false).AtWork (.ofMachine m)) ∨ (c.turn false).AtRest l.machine := by
  have hturn := Loop.turn_of_unparked hp c.devices
  rw [if_neg hw] at hturn
  cases hs : l.machine.step c.devices with
  | mk outcome devices =>
      have hkeypad := Machine.keypad_of_step l.machine c.devices
      have hanswers := Machine.answers_of_step (m := l.machine) h.answers
      rw [hs] at hkeypad hanswers
      have hwaiting : devices.keypad.waiting = false := by
        rw [hkeypad, h.waiting_of_unparked hp]
      cases outcome with
      | ok m =>
          simp only [Loop.step, hs] at hturn
          rw [turn_of_goOn h.loop hturn]
          exact .inl ⟨m, h.resting, rfl, h.running, h.loaded, h.trap, hwaiting, hanswers,
            Loop.parksAtWaits_ofMachine m⟩
      | error f =>
          have hsame := Machine.step_eq_of_error (congrArg Prod.fst hs)
          simp only [Loop.step, hs] at hturn
          rw [turn_of_stop h.loop hturn]
          refine .inr ⟨rfl, rfl, rfl, hwaiting, hanswers, ?_, ?_⟩
          · intro hl
            cases h.loaded.symm.trans hl
          · intro t ht
            obtain rfl := Option.some.inj ht
            exact ⟨rfl, hsame⟩

theorem AtWork.turn (h : c.AtWork l) (cancelled : Bool) : (c.turn cancelled).Orderly := by
  cases hp : l.parked with
  | some before =>
      cases ha : c.devices.keypad.answer? before cancelled with
      | some answer =>
          obtain ⟨m, hturn, _⟩ := h.turn_of_answer hp ha
          rw [hturn]
          exact .inr ⟨_, h.awake m⟩
      | none =>
          rw [h.turn_of_no_answer hp ha]
          exact .inr ⟨l, h⟩
  | none =>
      cases cancelled with
      | true =>
          rw [h.turn_of_cancelled hp]
          exact .inl ⟨_, h.handBack hp _ none nofun⟩
      | false =>
          by_cases hw : Loop.awaitsKey l.machine
          · exact .inr ⟨_, h.parks_of_awaitsKey hp hw⟩
          · rcases h.turn_of_step hp hw with ⟨m, hwork⟩ | hrest
            · exact .inr ⟨_, hwork⟩
            · exact .inl ⟨_, hrest⟩

theorem Orderly.turn (h : c.Orderly) (cancelled : Bool) : (c.turn cancelled).Orderly := by
  rcases h with ⟨m, h⟩ | ⟨l, h⟩
  · rw [turn_of_idle h.loop]
    exact .inl ⟨m, h⟩
  · exact h.turn cancelled

theorem running_of_turn (hr : (c.turn cancelled).running = true) :
    c.running = true := by
  cases hl : c.loop with
  | none => rwa [turn_of_idle hl] at hr
  | some l =>
      cases hturn : l.turn cancelled c.devices with
      | mk outcome devices =>
          cases outcome with
          | goOn next => rwa [turn_of_goOn hl hturn] at hr
          | stop m trap =>
              rw [turn_of_stop hl hturn] at hr
              cases hr

/-! Stopping the loop. -/

theorem AtRest.stop (h : c.AtRest m) : c.stop = c := by
  rw [Console.stop, turn_of_idle h.loop, turn_of_idle h.loop]

theorem AtWork.stop_of_unparked (h : c.AtWork l) (hp : l.parked = none) :
    c.stop = c.handBack l.machine none := by
  rw [Console.stop, h.turn_of_cancelled hp]
  exact turn_of_idle rfl true

/-- The stop of a parked loop is the turn that leaves the wait. -/
theorem AtWork.stop_of_awake (h : c.AtWork l) (hturn : c.turn true = c.awake m) :
    c.stop = (c.awake m).handBack m none := by
  rw [Console.stop, hturn]
  exact (h.awake m).turn_of_cancelled rfl

/-- A parked loop leaves its wait on the way, and it stays where it is if no key was pressed. -/
theorem AtWork.stop_of_parked (h : c.AtWork l) (hp : l.parked = some before) :
    ∃ m, c.stop = (c.awake m).handBack m none ∧
      (c.devices.keypad.presses = before → m = l.machine) := by
  obtain ⟨answer, ha, hnone⟩ := c.devices.keypad.exists_answer_of_cancelled before
  obtain ⟨m, hturn, hm⟩ := h.turn_of_answer hp ha
  exact ⟨m, h.stop_of_awake hturn, fun hpress => hm (hnone hpress)⟩

/-- Whatever the console was doing, a stop leaves it at rest. -/
theorem Orderly.stop (h : c.Orderly) : ∃ m, c.stop.AtRest m := by
  rcases h with ⟨m, h⟩ | ⟨l, h⟩
  · rw [h.stop]
    exact ⟨m, h⟩
  · cases hp : l.parked with
    | none =>
        rw [h.stop_of_unparked hp]
        exact ⟨_, h.handBack hp _ none nofun⟩
    | some before =>
        obtain ⟨m, hstop, _⟩ := h.stop_of_parked hp
        rw [hstop]
        exact ⟨m, (h.awake m).handBack rfl m none nofun⟩

theorem Orderly.running_of_stop (h : c.Orderly) : c.stop.running = false := by
  obtain ⟨m, hm⟩ := h.stop
  exact hm.running

/-! Calls. -/

theorem AtRest.collect (h : c.AtRest m) : c.collect.2.AtRest m where
  resting := h.resting
  loop := h.loop
  running := h.running
  waiting := h.waiting
  answers := h.answers
  unloaded hl := ⟨(h.unloaded hl).1, rfl⟩
  trap := nofun

theorem AtRest.wipe (h : c.AtRest m) : c.wipe.AtRest .boot where
  resting := rfl
  loop := h.loop
  running := h.running
  waiting := h.waiting
  answers := h.answers
  unloaded _ := ⟨rfl, rfl⟩
  trap := nofun

theorem AtRest.install (h : c.AtRest m) (program : List UInt8) :
    (c.install program).2.AtRest (Machine.load program).2 where
  resting := rfl
  loop := h.loop
  running := h.running
  waiting := h.waiting
  answers := h.answers
  unloaded hl := ⟨Machine.boot_of_load_refused hl, rfl⟩
  trap := nofun

theorem AtRest.start_of_loaded (h : c.AtRest m) (hl : c.loaded = true) :
    c.start = (.ok (),
      { c with resting := none, loop := some (.ofMachine m), trap := none, running := true }) := by
  simp only [Console.start, h.running, h.resting, hl, Bool.false_eq_true, if_false]

/-- Without a program there is no trap to drop, so the refusal comes before any change. -/
theorem AtRest.start_of_not_loaded (h : c.AtRest m) (hl : c.loaded = false) :
    c.start = (.error .noProgramLoaded, c) := by
  have hsame : { c with trap := none } = c := by rw [← (h.unloaded hl).2]
  have hstart : c.start = (.error .noProgramLoaded, { c with trap := none }) := by
    simp only [Console.start, h.running, hl, Bool.false_eq_true, if_false]
  rw [hstart, hsame]

theorem AtWork.start (h : c.AtWork l) : c.start = (.error .alreadyRunning, c) := by
  simp only [Console.start, h.running, if_true]

theorem AtRest.work_of_start (h : c.AtRest m) (hl : c.loaded = true) :
    c.start.2.AtWork (.ofMachine m) := by
  rw [h.start_of_loaded hl]
  exact ⟨rfl, rfl, rfl, hl, rfl, h.waiting, h.answers, Loop.parksAtWaits_ofMachine m⟩

theorem Orderly.start (h : c.Orderly) : c.start.2.Orderly := by
  rcases h with ⟨m, h⟩ | ⟨l, h⟩
  · cases hl : c.loaded with
    | true => exact .inr ⟨_, h.work_of_start hl⟩
    | false =>
        rw [h.start_of_not_loaded hl]
        exact .inl ⟨m, h⟩
  · rw [h.start]
    exact .inr ⟨l, h⟩

theorem Orderly.perform (h : c.Orderly) (call : Call) : (c.perform call).2.Orderly := by
  cases call with
  | load program =>
      obtain ⟨m, hm⟩ := h.stop
      exact .inl ⟨_, hm.install program⟩
  | run => exact h.start
  | halt =>
      obtain ⟨m, hm⟩ := h.stop
      exact .inl ⟨m, hm.collect⟩
  | wait =>
      rcases h with ⟨m, h⟩ | ⟨l, h⟩
      · simp only [Console.perform, h.running, Bool.false_eq_true, if_false]
        exact .inl ⟨m, h.collect⟩
      · simp only [Console.perform, h.running, if_true]
        exact .inr ⟨l, h⟩
  | reset =>
      obtain ⟨m, hm⟩ := h.stop
      exact .inl ⟨_, hm.wipe⟩
  | press byte => exact h.touch (.press byte)
  | release byte => exact h.touch (.release byte)
  | tick => exact h.touch .tick
  | takeFrame => exact h.touch .takeFrame
  | display | dump => exact h

theorem Orderly.handle (h : c.Orderly) (event : Event) : (c.handle event).Orderly := by
  cases event with
  | call call => exact h.perform call
  | turn cancelled => exact h.turn cancelled
  | supply random => exact h.touch (.supply random)

theorem Reachable.orderly (h : c.Reachable) : c.Orderly := by
  induction h with
  | new => exact orderly_new
  | event event _ ih => exact ih.handle event

/-! What callers may rely on. -/

structure Lawful (c : Console) : Prop where
  running_of_awaitingKey : c.awaitingKey → c.running
  loaded_of_running : c.running → c.loaded
  resting_iff : c.resting.isSome ↔ ¬ c.running
  boot_of_not_loaded : ¬ c.loaded → c.resting = some .boot
  trap : ∀ t ∈ c.trap, c.loaded ∧ ¬ c.running ∧
    ∃ m, c.resting = some m ∧ t.address = m.pc ∧ ∀ d, m.step d = (.error t.fault, d)

theorem AtRest.lawful (h : c.AtRest m) : c.Lawful where
  running_of_awaitingKey hw := nomatch h.waiting.symm.trans hw
  loaded_of_running hr := nomatch h.running.symm.trans hr
  resting_iff := by simp [h.resting, h.running]
  boot_of_not_loaded hl := by
    obtain ⟨rfl, _⟩ := h.unloaded (Bool.eq_false_of_not_eq_true hl)
    exact h.resting
  trap t ht := by
    refine ⟨?_, by simp [h.running], m, h.resting, h.trap t ht⟩
    cases hl : c.loaded with
    | true => rfl
    | false =>
        rw [(h.unloaded hl).2] at ht
        cases ht

theorem AtWork.lawful (h : c.AtWork l) : c.Lawful where
  running_of_awaitingKey _ := h.running
  loaded_of_running _ := h.loaded
  resting_iff := by simp [h.resting, h.running]
  boot_of_not_loaded hl := absurd h.loaded hl
  trap t ht := by
    rw [h.trap] at ht
    cases ht

theorem Orderly.lawful (h : c.Orderly) : c.Lawful := by
  rcases h with ⟨m, h⟩ | ⟨l, h⟩
  · exact h.lawful
  · exact h.lawful

/-- A program that is loaded and does not run is there to be run. -/
theorem Orderly.reply_of_run (h : c.Orderly) :
    (c.perform .run).1 =
      if c.running then .refused .alreadyRunning
      else if c.loaded then .done
      else .refused .noProgramLoaded := by
  rcases h with ⟨m, h⟩ | ⟨l, h⟩
  · cases hl : c.loaded with
    | true => simp [Console.perform, h.start_of_loaded hl, h.running, Reply.ofStart]
    | false => simp [Console.perform, h.start_of_not_loaded hl, h.running, Reply.ofStart]
  · simp [Console.perform, h.start, h.running, Reply.ofStart]

theorem Orderly.start_of_refused (h : c.Orderly) {refusal : Refusal}
    (hr : c.start.1 = .error refusal) : c.start.2 = c := by
  rcases h with ⟨m, h⟩ | ⟨l, h⟩
  · cases hl : c.loaded with
    | true =>
        rw [h.start_of_loaded hl] at hr
        cases hr
    | false => rw [h.start_of_not_loaded hl]
  · rw [h.start]

theorem press_of_refused {byte : UInt8} {fault : Fault} (hf : (c.press byte).1 = .error fault) :
    (c.press byte).2 = c := by
  simp only [Console.press, Devices.press, Keypad.press] at hf ⊢
  cases hk : Key.ofByte byte with
  | ok key =>
      rw [hk] at hf
      cases hf
  | error f => rfl

theorem release_of_refused {byte : UInt8} {fault : Fault}
    (hf : (c.release byte).1 = .error fault) : (c.release byte).2 = c := by
  simp only [Console.release, Devices.release, Keypad.release] at hf ⊢
  cases hk : Key.ofByte byte with
  | ok key =>
      rw [hk] at hf
      cases hf
  | error f => rfl

/-- The replies that blame the call alone. A program that is too large is not among them: it takes
the place of the one before. -/
def Reply.blames : Reply → Bool
  | .refused .alreadyRunning | .refused .noProgramLoaded | .faulted _ => true
  | _ => false

theorem Orderly.perform_of_blames (h : c.Orderly) {call : Call}
    (hb : (c.perform call).1.blames) : (c.perform call).2 = c := by
  cases call with
  | load program =>
      by_cases hfits : program.length ≤ maxProgramSize
      · simp [Console.perform, Console.load, Console.install, Machine.load_of_fits hfits,
          Reply.ofStart, Reply.blames] at hb
      · simp [Console.perform, Console.load, Console.install,
          Machine.load_of_tooLarge (Nat.not_le.mp hfits), Reply.ofStart, Reply.blames] at hb
  | run =>
      cases hr : c.start.1 with
      | ok done =>
          simp [Console.perform, hr, Reply.ofStart, Reply.blames] at hb
      | error refusal => exact h.start_of_refused hr
  | press byte =>
      cases hf : (c.press byte).1 with
      | ok done => simp [Console.perform, hf, Reply.ofKey, Reply.blames] at hb
      | error fault => exact press_of_refused hf
  | release byte =>
      cases hf : (c.release byte).1 with
      | ok done => simp [Console.perform, hf, Reply.ofKey, Reply.blames] at hb
      | error fault => exact release_of_refused hf
  | wait =>
      simp only [Console.perform] at hb
      split at hb <;> cases hb
  | halt | reset | tick | display | takeFrame | dump => cases hb

/-- Between any two events of any history a console is lawful. It refuses to run if it runs already
or has no program, and only then. A call that is refused for its own sake leaves the very console it
found, so nothing that follows can tell that it was made. -/
theorem lawful_with_inert_refusals (h : c.Reachable) :
    c.Lawful ∧
      (c.perform .run).1 =
        (if c.running then .refused .alreadyRunning
        else if c.loaded then .done
        else .refused .noProgramLoaded) ∧
      ∀ call, (c.perform call).1.blames → (c.perform call).2 = c :=
  ⟨h.orderly.lawful, h.orderly.reply_of_run, fun _ hb => h.orderly.perform_of_blames hb⟩

/-- A trap that nobody has collected, and a key that no keypad has. -/
theorem lawful_with_inert_refusals_after_trap :
    let stopped := ((new.handle (.call (.load [0x00, 0xEE]))).handle (.call .run)).handle
      (.turn false)
    stopped.Reachable ∧
      (∃ m, stopped.resting = some m ∧ m.pc = 0x200 ∧
        ∀ d, m.step d = (.error .stackUnderflow, d)) ∧
      (stopped.perform (.press 0x10)).1.blames ∧
      (stopped.perform (.press 0x10)).2 = stopped := by
  intro stopped
  have hreach : stopped.Reachable := .event _ (.event _ (.event _ .new))
  have htrap : stopped.trap = some ⟨0x200, .stackUnderflow⟩ := by decide +kernel
  have hblames : (stopped.perform (.press 0x10)).1.blames := by decide +kernel
  obtain ⟨hlawful, _, hinert⟩ := lawful_with_inert_refusals hreach
  obtain ⟨_, _, m, hm, haddress, hagain⟩ := hlawful.trap _ htrap
  exact ⟨hreach, ⟨m, hm, haddress.symm, hagain⟩, hblames, hinert _ hblames⟩

end ChipEight.Console
