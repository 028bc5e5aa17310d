import ChipEight.Monitor
import ChipEight.Proofs.Console.LoneCaller
import ChipEight.Proofs.Console.Sights

/-!
A load erases all history but the keypad's. The machine it leaves is a function of the program, the
screen and the timers are renewed, and no loop, trap or wait outlives it. What is left of the past
is which keys are held and which was pressed last, and besides what nobody can see: two counts, of
the presses and of the runs, and the flag that told the last loop to stop.
-/

namespace ChipEight

namespace Console

variable {c c₁ c₂ : Console} {program : List UInt8}

theorem endWait_of_not_waiting {pad : Keypad} (h : pad.waiting = false) : pad.endWait = pad := by
  rw [Keypad.endWait, ← h]

/-- A stop ends the wait of a parked loop, and does nothing else to the devices. -/
theorem Orderly.devices_stop (h : c.Orderly) :
    c.stop.devices = { c.devices with keypad := c.devices.keypad.endWait } := by
  rcases h with ⟨m, h⟩ | ⟨l, h⟩
  · rw [h.stop, endWait_of_not_waiting h.waiting]
  · cases hp : l.parked with
    | none =>
        rw [h.stop_of_unparked hp, endWait_of_not_waiting (h.waiting_of_unparked hp)]
        rfl
    | some before =>
        obtain ⟨m, hstop, _⟩ := h.stop_of_parked hp
        rw [hstop]
        rfl

theorem Orderly.answers (h : c.Orderly) : c.devices.feed.answers = [] := by
  rcases h with ⟨m, h⟩ | ⟨l, h⟩
  · exact h.answers
  · exact h.answers

theorem Orderly.load_eq (h : c.Orderly) (program : List UInt8) :
    c.load program =
      ((Machine.load program).1,
        { resting := some (Machine.load program).2
          loop := none
          trap := none
          loaded := (Machine.load program).1.isOk
          running := false
          devices :=
            { screen := ⟨.blank, true⟩
              keypad := c.devices.keypad.endWait
              timers := .zero
              feed := c.devices.feed } }) := by
  obtain ⟨m, hm⟩ := h.stop
  simp only [load, install, wipe, renewDevices, Screen.clear, hm.loop, hm.running, h.devices_stop]

/-- After the same load, consoles with the same keys and random bytes differ at most in how many
presses they have counted. -/
theorem Orderly.load_recount (h₁ : c₁.Orderly) (h₂ : c₂.Orderly)
    (hheld : c₁.devices.keypad.held = c₂.devices.keypad.held)
    (hlatest : c₁.devices.keypad.latest = c₂.devices.keypad.latest)
    (hrandom : c₁.devices.feed.random = c₂.devices.feed.random) (program : List UInt8) :
    (c₂.load program).2 =
      (c₁.load program).2.recount (c₂.devices.keypad.presses - c₁.devices.keypad.presses) := by
  have hfeed : c₂.devices.feed = c₁.devices.feed :=
    calc
      c₂.devices.feed = ⟨c₂.devices.feed.random, []⟩ := by rw [← h₂.answers]
      _ = ⟨c₁.devices.feed.random, []⟩ := by rw [hrandom]
      _ = c₁.devices.feed := by rw [← h₁.answers]
  have hpresses : c₁.devices.keypad.presses +
      (c₂.devices.keypad.presses - c₁.devices.keypad.presses) = c₂.devices.keypad.presses := by
    rw [UInt64.add_comm, UInt64.sub_add_cancel]
  rw [h₁.load_eq, h₂.load_eq]
  simp only [recount, Devices.recount, Keypad.recount, Keypad.endWait, Option.map_none, hpresses,
    hheld, hlatest, hfeed]

end Console

namespace Shared

open Console (Reply)

variable {s t : Shared} {act : Act} {program : List UInt8} {reply : Reply}

/-- The act returns a load, and nobody else is blocked when it does. -/
structure Loads (s : Shared) (act : Act) (program : List UInt8) (reply : Reply) : Prop where
  returned : (s.step act).1 = some (.load program, reply)
  blocked : (s.step act).2.blocked = []

/-- A load that no run has overtaken returns when nothing runs, as a console that has no loop to
stop would load the program. -/
theorem Loads.load_eq (h : s.Loads act program reply) (hs : s.Exclusive) :
    reply = .ofStart (s.console.load program).1 ∧
      (s.step act).2.console = (s.console.load program).2 := by
  have hinstalls : (Errand.load program).installs = true := rfl
  obtain ⟨hidle, hfinish⟩ := hs.returns hinstalls h.returned
  obtain ⟨m, hm⟩ := hs.orderly.atRest_of_idle hidle
  have hload : s.console.load program = s.console.install program := by
    rw [Console.load, hm.stop]
  rw [hload]
  exact ⟨(congrArg Prod.fst hfinish).symm, (congrArg Prod.snd hfinish).symm⟩

/-- The flag may be set in one of them only, but there is no loop to look at it. -/
theorem Loads.sameSight {act' : Act} {reply' : Reply} (h : s.Loads act program reply)
    (h' : t.Loads act' program reply') (hs : s.Exclusive) (ht : t.Exclusive)
    (hheld : s.console.devices.keypad.held = t.console.devices.keypad.held)
    (hlatest : s.console.devices.keypad.latest = t.console.devices.keypad.latest)
    (hrandom : s.console.devices.feed.random = t.console.devices.feed.random) :
    SameSight (t.console.devices.keypad.presses - s.console.devices.keypad.presses)
      ((t.step act').2.runs - (s.step act).2.runs) (s.step act).2 (t.step act').2 where
  console := by
    rw [(h.load_eq hs).2, (h'.load_eq ht).2]
    exact hs.orderly.load_recount ht.orderly hheld hlatest hrandom program
  runs := by rw [UInt64.add_comm, UInt64.sub_add_cancel]
  cancel hloop := by
    rw [(h.load_eq hs).2, hs.orderly.load_eq] at hloop
    cases hloop
  blocked := by rw [h.blocked, h'.blocked, List.map_nil]

theorem Loads.reply_eq (h : s.Loads act program reply) (hs : s.Exclusive) :
    reply = .ofStart (Machine.load program).1 := by
  rw [(h.load_eq hs).1, hs.orderly.load_eq]

/-- Whatever a lone caller has been doing, a load returns once the loop that it finds has looked
twice for its cancellation. -/
theorem Lone.exists_loads (h : s.Lone) (hfree : s.blocked = []) (program : List UInt8) :
    ∃ between act, s.alone (between ++ [act]) ∧
      (s.after between).Loads act program (.ofStart (Machine.load program).1) := by
  have hreply : (s.console.perform (.load program)).1 = .ofStart (Machine.load program).1 := by
    simp only [Console.perform, h.orderly.load_eq]
    rfl
  cases hr : s.console.running with
  | false =>
      have hask := ask_of_idle h.orderly hr (.load program)
      refine ⟨[], .call (.load program), (h.enacts_idle hfree hr (.load program)).alone, ?_, ?_⟩
      · exact (congrArg Prod.fst hask).trans (congrArg (fun reply => some (_, reply)) hreply)
      · exact (congrArg (fun result => result.2.blocked) hask).trans hfree
  | true =>
      have hcancels : (Errand.load program).cancels = true := rfl
      have hwake := wake_of_alone h.orderly hr hfree hcancels
      refine ⟨[.call (.load program), .turn true, .turn true], .wake 0,
        (h.enacts_blocked hfree hr hcancels).alone, ?_, ?_⟩
      · exact (congrArg Prod.fst hwake).trans (congrArg (fun reply => some (_, reply)) hreply)
      · exact (congrArg (fun result => result.2.blocked) hwake).trans hfree

/-- After the same load, nothing that callers ever see tells two consoles with the same keys apart,
whatever their histories, how many runs they have had and whether their last loop was told to stop:
not even when many callers share them, as long as no run overtakes the load and nobody is left
blocked from before it. That is so of a lone caller, whose loads return at any time. Whatever the
machine was, a program that fits leaves the one with the font, the program and zeros; a program that
does not fit leaves the one of power on, and a console as a reset leaves it. -/
theorem load_erases_history :
    (∀ (past₁ past₂ : List Act) (act₁ act₂ : Act) (program : List UInt8) (reply₁ reply₂ : Reply),
      let s₁ := new.after past₁
      let s₂ := new.after past₂
      new.overtaken past₁ = false → new.overtaken past₂ = false →
      s₁.Loads act₁ program reply₁ → s₂.Loads act₂ program reply₂ →
      s₁.console.devices.keypad.held = s₂.console.devices.keypad.held →
      s₁.console.devices.keypad.latest = s₂.console.devices.keypad.latest →
      s₁.console.devices.feed.random = s₂.console.devices.feed.random →
        reply₁ = reply₂ ∧
          ∀ later, (s₁.step act₁).2.observe later = (s₂.step act₂).2.observe later) ∧
      (∀ past, new.alone past →
        new.overtaken past = false ∧
          (∀ act, new.alone (past ++ [act]) → ((new.after past).step act).1.isSome →
            ((new.after past).step act).2.blocked = []) ∧
          ((new.after past).blocked = [] →
            ∀ program, ∃ between act, new.alone (past ++ between ++ [act]) ∧
              (new.after (past ++ between)).Loads act program
                (.ofStart (Machine.load program).1))) ∧
      (∀ (s : Monitor) (program : List UInt8), program.length ≤ 3584 →
        s.perform (.load program) =
          (.done,
            { s with
              machine :=
                { registers := .replicate registerCount 0
                  index := 0
                  pc := 0x200
                  stack := ⟨.replicate stackDepth 0, 0⟩
                  memory := .holding program } })) ∧
      ∀ program : List UInt8, 3584 < program.length →
        (∀ s : Monitor, s.perform (.load program) =
          (.refused (.programTooLarge program.length 3584), { s with machine := .boot })) ∧
        (∀ c : Console, (c.load program).2 = c.reset) ∧
        ∀ s : Shared, s.finish (.load program) =
          (some (.load program, .refused (.programTooLarge program.length 3584)),
            (s.finish .reset).2) := by
  refine ⟨?_, ?_, ?_, ?_⟩
  · intro past₁ past₂ act₁ act₂ program reply₁ reply₂ s₁ s₂ hpast₁ hpast₂ h₁ h₂ hheld hlatest
      hrandom
    have hs₁ := exclusive_new.after hpast₁
    have hs₂ := exclusive_new.after hpast₂
    have hsight := h₁.sameSight h₂ hs₁ hs₂ hheld hlatest hrandom
    exact ⟨(h₁.reply_eq hs₁).trans (h₂.reply_eq hs₂).symm, fun later => (hsight.observe later).symm⟩
  · intro past hpast
    have hlone := lone_new.after hpast
    refine ⟨not_overtaken_of_alone hpast, ?_, ?_⟩
    · intro act hact hreturned
      rw [alone_append, hpast, Bool.true_and] at hact
      exact hlone.blocked_of_returned (alone_cons hact).1 hreturned
    · intro hfree program
      obtain ⟨between, act, halone, hloads⟩ := hlone.exists_loads hfree program
      refine ⟨between, act, ?_, ?_⟩
      · rw [List.append_assoc, alone_append, hpast, halone, Bool.and_self]
      · rwa [after_append]
  · intro s program hfits
    simp only [Monitor.perform, Machine.load_of_fits hfits]
    rfl
  · intro program hlarge
    refine ⟨?_, ?_, ?_⟩
    · intro s
      simp only [Monitor.perform, Machine.load_of_tooLarge hlarge]
      rfl
    · intro c
      simp only [Console.load, Console.install, Machine.load_of_tooLarge hlarge]
      rfl
    · intro s
      simp only [finish, Errand.finish, Console.install, Machine.load_of_tooLarge hlarge]
      rfl

/-- A loop that was parked at a key wait is stopped by the load, whose flag then stays set; a new
console has never had a loop. -/
theorem load_erases_history_of_key_wait :
    let loading : Act := .call (.load [0xF5, 0x0A, 0x12, 0x02])
    let past : List Act := [.call (.load [0xF3, 0x0A]), .call .run, .turn true, loading, .turn true,
      .turn true]
    let parked := (new.after past).step (.wake 0)
    let fresh := new.step loading
    let later : List Act := [.call .run, .turn true, .call (.press 7), .turn true, .call .halt,
      .turn true, .wake 0, .call .dump]
    new.alone past ∧ (new.after past).Loads (.wake 0) [0xF5, 0x0A, 0x12, 0x02] .done ∧
      parked.2.cancel = true ∧ fresh.2.cancel = false ∧
      parked.2.observe later = fresh.2.observe later ∧
      (fresh.2.observe later).map (·.awaitingKey) =
        [false, true, true, false, false, false, false, false] ∧
      (Monitor.new.perform (.load [0xF3, 0x0A])).2.machine.memory = .holding [0xF3, 0x0A] ∧
      (parked.2.console.load (.replicate 3585 0)).2 = parked.2.console.reset := by
  intro loading past parked fresh later
  have halone : new.alone past := by decide +kernel
  have hparked : (new.after past).Loads (.wake 0) [0xF5, 0x0A, 0x12, 0x02] .done :=
    ⟨by decide +kernel, by decide +kernel⟩
  have hfresh : (new.after []).Loads loading [0xF5, 0x0A, 0x12, 0x02] .done :=
    ⟨by decide +kernel, by decide +kernel⟩
  have hflags : parked.2.cancel = true ∧ fresh.2.cancel = false := by decide +kernel
  have hnotOvertaken : new.overtaken [] = false := rfl
  obtain ⟨hheld, hlatest, hrandom⟩ :
      (new.after past).console.devices.keypad.held = new.console.devices.keypad.held ∧
        (new.after past).console.devices.keypad.latest = new.console.devices.keypad.latest ∧
        (new.after past).console.devices.feed.random = new.console.devices.feed.random := by
    decide +kernel
  have hawaiting : (fresh.2.observe later).map (·.awaitingKey) =
      [false, true, true, false, false, false, false, false] := by
    decide +kernel
  have hlarge : 3584 < (List.replicate 3585 (0 : UInt8)).length := by
    rw [List.length_replicate]
    decide
  obtain ⟨hsame, hlone, hfits, htooLarge⟩ := load_erases_history
  obtain ⟨_, hobserve⟩ := hsame past [] (.wake 0) loading _ .done .done (hlone past halone).1
    hnotOvertaken hparked hfresh hheld hlatest hrandom
  refine ⟨halone, hparked, hflags.1, hflags.2, hobserve later, hawaiting, ?_,
    (htooLarge _ hlarge).2.1 _⟩
  rw [hfits Monitor.new [0xF3, 0x0A] (by decide)]

end Shared
end ChipEight
