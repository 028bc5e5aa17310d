import ChipEight.CommandLine.Program
import ChipEight.Proofs.CommandLine.Periods
import ChipEight.Proofs.CommandLine.Requests
import ChipEight.Proofs.Console.Lockstep

/-!
What the command line shows of a program that comes to a trap: the frame, the machine and the trap
of a run of single steps on fresh devices, whatever the parser and the logger. The pace decides how
many turns fall into a period and how the ticks fall among the turns, and neither is seen in the
outcome.
-/

namespace ChipEight

open Console (Beat Keyless)
open Machine (Standing)

/-- The devices enter a dump by their timers and the latest key. -/
theorem Dump.lines_unattended {m : Machine} {d : Devices} (hd : d.Unattended) :
    lines (some m) d = lines (some m) .fresh := by
  obtain ⟨screen, keypad, timers, feed⟩ := d
  obtain rfl : keypad = .untouched := hd.keypad
  obtain rfl : timers = .zero := hd.timers
  rfl

theorem Console.after_turns (c : Console) (n : Nat) :
    c.after ((List.replicate n Beat.turn).map Beat.event) = c.turns n := by
  induction n generalizing c with
  | zero => rfl
  | succ n ih => exact ih (c.turn false)

namespace CommandLine

variable {h : Headless} {s : Standing} {t : Trap}

/-- Where a program stands after single steps on fresh devices. -/
def stepped (program : List UInt8) (steps : Nat) : Standing :=
  (Machine.load program).2.run .fresh (.replicate steps id)

/-- The instructions that those steps complete. -/
def carriedOut (program : List UInt8) (steps : Nat) : List Instruction :=
  (Machine.load program).2.completes .fresh (.replicate steps id)

/-- The outcome of a run that stands at a trap, where the logger has written `logged`. The timers
are at zero and no key was pressed. -/
def Outcome.ofTrap (s : Standing) (t : Trap) (logged : String) : Outcome where
  exitCode := 1
  output := s.devices.screen.frame.text ++ "\n" ++
    (Dump.text (Dump.lines (some s.machine) .fresh) ++ "\n")
  errors := logged ++ (t.message ++ "\n")

namespace Headless

theorem finish_of_trap (hs : h.console.StandsAt s) (ht : s.trap = some t) (sink : Sink) :
    h.finish sink = .ofTrap s t (sink h.records (Record.stop t.address (some t))) := by
  have hplace := hs.place
  simp only [ht] at hplace
  obtain ⟨hrest, htrap⟩ := hplace
  have hframe : h.console.devices.screen.frame = s.devices.screen.frame := hs.alike.frame
  have hhalt : h.console.halt = (some t, { h.console with trap := none }) := by
    rw [Console.halt, hrest.stop, Console.collect, htrap]
  have haddress : t.address = s.machine.pc := (hrest.trap t htrap).1
  simp only [finish, hhalt, Option.isSome_some, Bool.or_true, if_true, Console.dump, hrest.resting,
    Option.elim_some, ← haddress, Dump.lines_unattended hs.alike.left, hframe]
  rfl

/-! The turns of a run that has no time limit. -/

/-- The turns that the first periods allow. -/
def granted (pace : Pace) (periods : Nat) : Nat :=
  if pace.pause = 0 then burst * periods else begun pace.pause (periods * period)

theorem granted_zero (pace : Pace) : granted pace 0 = 0 := by
  rw [granted]
  split
  · rfl
  · rename_i hpause
    rw [begun, Nat.zero_mul, Nat.zero_add]
    exact Nat.div_eq_of_lt (Nat.sub_one_lt hpause)

theorem begun_mono (pause : Nat) {first last : Nat} (hle : first ≤ last) :
    begun pause first ≤ begun pause last :=
  Nat.div_le_div_right (by omega)

theorem granted_add_allowance (hlimit : h.limit = none) :
    granted h.pace h.elapsed + h.allowance = granted h.pace (h.elapsed + 1) := by
  simp only [granted, allowance, hlimit, Option.map_none, Option.getD_none, now]
  split
  · exact (Nat.mul_succ burst h.elapsed).symm
  · rw [Nat.succ_mul]
    exact Nat.add_sub_of_le (begun_mono _ (Nat.le_add_right _ _))

/-- At whatever pace, enough periods allow any number of turns. -/
theorem le_granted (pace : Pace) {turns periods : Nat} (h : turns * (pace.pause + 1) ≤ periods) :
    turns ≤ granted pace periods := by
  rw [granted]
  split
  · rename_i hpause
    calc
      turns = turns * (pace.pause + 1) := by rw [hpause, Nat.mul_one]
      _ ≤ periods := h
      _ ≤ burst * periods := Nat.le_mul_of_pos_left periods (by decide)
  · rename_i hpause
    have htime : turns * pace.pause ≤ periods * period :=
      calc
        turns * pace.pause ≤ turns * (pace.pause + 1) := Nat.mul_le_mul_left _ (Nat.le_succ _)
        _ ≤ periods := h
        _ ≤ periods * period := Nat.le_mul_of_pos_right periods (by decide)
    rw [begun, Nat.le_div_iff_mul_le (Nat.pos_of_ne_zero hpause)]
    omega

/-- One period: a tick, and then turns. -/
def beats (h : Headless) : List Beat := .touch .tick :: .replicate h.allowance .turn

theorem count_beats (h : Headless) : h.beats.count .turn = h.allowance := by
  have hne : Beat.touch .tick ≠ .turn := nofun
  rw [beats, List.count_cons_of_ne hne, List.count_replicate_self]

/-- The periods until the run is over. -/
def beatsOf (h : Headless) : Nat → List Beat
  | 0 => []
  | periods + 1 => if h.ended then [] else h.beats ++ h.pass.beatsOf periods

theorem console_pass_eq_after (h : Headless) :
    h.pass.console = h.console.after (h.beats.map Beat.event) := by
  rw [console_pass]
  exact (Console.after_turns h.console.tick h.allowance).symm

theorem console_play (h : Headless) (periods : Nat) :
    (h.play periods).console = h.console.after ((h.beatsOf periods).map Beat.event) := by
  induction periods generalizing h with
  | zero => rfl
  | succ periods ih =>
      rw [play, beatsOf]
      split
      · rfl
      · rw [ih, List.map_append, Console.after_append, console_pass_eq_after]

theorem settings_play (h : Headless) (periods : Nat) :
    (h.play periods).limit = h.limit ∧ (h.play periods).records = h.records := by
  induction periods generalizing h with
  | zero => exact ⟨rfl, rfl⟩
  | succ periods ih =>
      rw [play]
      split
      · exact ⟨rfl, rfl⟩
      · exact ih h.pass

theorem keyless_beatsOf (h : Headless) (periods : Nat) : Keyless (h.beatsOf periods) := by
  induction periods generalizing h with
  | zero => exact fun _ hmem => nomatch hmem
  | succ periods ih =>
      rw [beatsOf]
      split
      · exact fun _ hmem => nomatch hmem
      · refine Console.keyless_append ?_ (ih h.pass)
        intro byte hmem
        simp [beats] at hmem

/-- A run that is not over has taken all the turns it was allowed. -/
theorem count_beatsOf (hlimit : h.limit = none) {periods : Nat}
    (hrun : (h.play periods).ended = false) :
    granted h.pace h.elapsed + (h.beatsOf periods).count .turn =
      granted h.pace (h.elapsed + periods) := by
  induction periods generalizing h with
  | zero => rfl
  | succ periods ih =>
      rw [play] at hrun
      rw [beatsOf]
      split at hrun
      · rename_i hended
        cases hended.symm.trans hrun
      · rename_i hgoes
        rw [if_neg hgoes, List.count_append]
        have hnext : granted h.pass.pace h.pass.elapsed = granted h.pace h.elapsed + h.allowance :=
          (granted_add_allowance hlimit).symm
        calc
          granted h.pace h.elapsed + (h.beats.count .turn + (h.pass.beatsOf periods).count .turn) =
              granted h.pass.pace h.pass.elapsed + (h.pass.beatsOf periods).count .turn := by
            rw [count_beats, ← Nat.add_assoc, hnext]
          _ = granted h.pass.pace (h.pass.elapsed + periods) := ih (h := h.pass) hlimit hrun
          _ = granted h.pace (h.elapsed + (periods + 1)) := by
            rw [Nat.add_comm periods 1, ← Nat.add_assoc]
            rfl

end Headless

/-! Programs that come to a trap. -/

section

variable {program : List UInt8} {steps : Nat}

/-- The loop goes on to the trap and stops there, whatever comes between its turns. -/
theorem standsAt_stepped (hfits : program.length ≤ maxProgramSize)
    (ht : (stepped program steps).trap = some t)
    (hsettled : ∀ i ∈ carriedOut program steps, ¬ i.unsettles) {beats : List Beat}
    (hkeys : Keyless beats) :
    let c := (Console.new.load program).2.start.2.after (beats.map Beat.event)
    (steps ≤ beats.count .turn → ¬ c.running) ∧
      (¬ c.running → c.StandsAt (stepped program steps)) := by
  intro c
  have hstands : c.StandsAt (stepped program (beats.count .turn)) :=
    (Console.standsAt_start hfits).after ht hsettled hkeys
  refine ⟨?_, ?_⟩
  · intro hle hrun
    obtain ⟨more, hmore⟩ := Nat.exists_eq_add_of_le hle
    have hnone := hstands.running_iff.mp hrun
    rw [stepped, hmore, List.replicate_add, Machine.run_append_of_trap ht] at hnone
    cases hnone.symm.trans ht
  · intro hstopped
    have hne := mt hstands.running_iff.mpr hstopped
    obtain ⟨t', ht'⟩ := Option.ne_none_iff_exists'.mp hne
    have hsame : stepped program (beats.count .turn) = stepped program steps :=
      Machine.run_eq_of_traps ht' ht
    rwa [hsame] at hstands

/-- A run without a time limit is over after enough periods, and has come to the trap. -/
theorem finish_of_play (hfits : program.length ≤ maxProgramSize)
    (ht : (stepped program steps).trap = some t)
    (hsettled : ∀ i ∈ carriedOut program steps, ¬ i.unsettles)
    (hconsole : h.console = (Console.new.load program).2.start.2) (hlimit : h.limit = none)
    (helapsed : h.elapsed = 0) {periods : Nat}
    (henough : steps * (h.pace.pause + 1) ≤ periods) (sink : Sink) :
    (h.play periods).finish sink =
      .ofTrap (stepped program steps) t (sink h.records (Record.stop t.address (some t))) := by
  have hplay := h.console_play periods
  rw [hconsole] at hplay
  obtain ⟨hends, hstands⟩ := standsAt_stepped hfits ht hsettled (h.keyless_beatsOf periods)
  rw [← hplay] at hends hstands
  have hstopped : ¬ (h.play periods).console.running := by
    intro hrun
    have hgoes : (h.play periods).ended = false := by
      simp only [Headless.ended, hrun, (h.settings_play periods).1, hlimit]
      rfl
    have hcount := Headless.count_beatsOf hlimit hgoes
    rw [helapsed, Headless.granted_zero, Nat.zero_add, Nat.zero_add] at hcount
    exact hends (hcount ▸ Headless.le_granted h.pace henough) hrun
  rw [← (h.settings_play periods).2]
  exact Headless.finish_of_trap (hstands hstopped) ht sink

/-! The start of a run. -/

theorem load_eq (program : List UInt8) :
    (Console.new.load program).1 = (Machine.load program).1 ∧
      (Console.new.load program).2.resting = some (Machine.load program).2 := by
  have horderly : Console.new.Orderly := Console.orderly_new
  rw [horderly.load_eq]
  exact ⟨rfl, rfl⟩

theorem headless_of_fits (hfits : program.length ≤ maxProgramSize) (options : Options)
    (limit : Option Nat) :
    options.headless limit program =
      .ok (.start (Console.new.load program).2 (.ofRate options.rate) limit options.dump
        (Record.start options.rom program.length 0x200)) := by
  obtain ⟨haccepted, hresting⟩ := load_eq program
  rw [Machine.load_of_fits hfits] at haccepted hresting
  have hload : Console.new.load program = (.ok (), (Console.new.load program).2) :=
    Prod.ext haccepted rfl
  rw [Options.headless, hload]
  simp only [hresting]
  rfl

theorem headless_of_tooLarge (hlarge : maxProgramSize < program.length) (options : Options)
    (limit : Option Nat) :
    options.headless limit program =
      .error (.programTooLarge program.length maxProgramSize) := by
  obtain ⟨hrefused, _⟩ := load_eq program
  rw [Machine.load_of_tooLarge hlarge] at hrefused
  have hload : Console.new.load program =
      (.error (.programTooLarge program.length maxProgramSize), (Console.new.load program).2) :=
    Prod.ext hrefused rfl
  rw [Options.headless, hload]

theorem outcome_of_tooLarge (size : Nat) (sink : Sink) :
    (Failure.refused (.programTooLarge size maxProgramSize)).outcome sink =
      ⟨1, "", sink [.ofRefusal (.programTooLarge size 3584)] [] ++
        ("Error: ProgramTooLarge \x7b size: " ++ size.repr ++ ", max: 3584 \x7d\n")⟩ := by
  have hhead : "Error: ProgramTooLarge \x7b size: " =
      "Error: " ++ "ProgramTooLarge \x7b size: " := by
    decide +kernel
  have htail : ", max: 3584 \x7d\n" =
      ", max: " ++ (maxProgramSize.repr ++ (" \x7d" ++ "\n")) := by
    decide +kernel
  have hname : refusalName (.programTooLarge size maxProgramSize) =
      "ProgramTooLarge \x7b size: " ++ size.repr ++ ", max: " ++ maxProgramSize.repr ++ " \x7d" :=
    rfl
  have hsize : maxProgramSize = 3584 := rfl
  refine congrArg (Outcome.mk 1 "") ?_
  rw [hhead, htail, hname, hsize]
  simp only [String.append_assoc]

theorem ofArguments_of_unlimited {parse : Parser} {arguments : List String} {options : Options}
    (hparse : parse arguments = .ok options) (hseconds : options.seconds = none) (sink : Sink) :
    Task.ofArguments parse sink arguments = .play options none := by
  simp only [Task.ofArguments, hparse, hseconds]

theorem pause_ofRate_le (rate : Nat) : (Pace.ofRate rate).pause ≤ Pace.nanosPerSecond := by
  rw [Pace.ofRate]
  split
  · exact Nat.zero_le _
  · exact Nat.div_le_self _ _

end

/-- The only error that is logged is the trap. -/
theorem errors_of_trap {sink : Sink} {line : Record → String} (h : sink.ShowsErrors line)
    (path : String) (size : Nat) (t : Trap) :
    sink (Record.start path size 0x200) (Record.stop t.address (some t)) = line (.ofTrap t) := by
  rw [h]
  exact String.empty_append

theorem errors_of_refusal {sink : Sink} {line : Record → String} (h : sink.ShowsErrors line)
    (refusal : Refusal) : sink [.ofRefusal refusal] [] = "" := by
  rw [h]
  rfl

/-- The command line shows what single steps compute. Where a program of at most 3584 bytes comes
to a trap on fresh devices, without starting a timer or keeping bits of a random byte, its loop
comes to the same trap however the ticks and the random bytes fall among its turns, and the outcome
is made of the frame, the machine and the trap of the steps: at every rate, with a dump or without,
for whatever arguments a parser reads so. A program that is larger is refused with its size, and
nothing is shown. What a logger writes of the records stands before that in the stream of errors;
one that shows errors alone adds a line for the trap, and none for the refusal. -/
theorem outcome_is_that_of_steps :
    (∀ program steps trap, program.length ≤ 3584 → (stepped program steps).trap = some trap →
      (∀ i ∈ carriedOut program steps, ¬ i.unsettles) →
        (∀ (h : Headless) (beats : List Beat), Keyless beats →
          h.console = (Console.new.load program).2.start.2.after (beats.map Beat.event) →
            (steps ≤ beats.count .turn → ¬ h.console.running) ∧
            (¬ h.console.running → ∀ sink,
              h.finish sink = .ofTrap (stepped program steps) trap
                (sink h.records (Record.stop trap.address (some trap))))) ∧
        ∃ enough, ∀ sink readFile periods, enough ≤ periods →
          (∀ parse arguments options, parse arguments = .ok options → options.seconds = none →
            readFile options.rom = some program →
              outcome parse sink readFile arguments periods =
                .ofTrap (stepped program steps) trap
                  (sink (Record.start options.rom program.length 0x200)
                    (Record.stop trap.address (some trap)))) ∧
          ∀ parse : Parser, parse.ReadsRuns → ∀ rom rate dump, rom ≠ "" →
            (∀ r ∈ rate, r < UInt64.size) → readFile rom = some program →
              outcome parse sink readFile (runArguments rom rate dump) periods =
                .ofTrap (stepped program steps) trap
                  (sink (Record.start rom program.length 0x200)
                    (Record.stop trap.address (some trap)))) ∧
      (∀ program parse sink readFile arguments options limit periods, 3584 < program.length →
        Task.ofArguments parse sink arguments = .play options limit →
          readFile options.rom = some program →
            outcome parse sink readFile arguments periods =
              ⟨1, "", sink [.ofRefusal (.programTooLarge program.length 3584)] [] ++
                ("Error: ProgramTooLarge \x7b size: " ++ program.length.repr ++
                  ", max: 3584 \x7d\n")⟩) ∧
      ∀ (sink : Sink) (line : Record → String), sink.ShowsErrors line →
        (∀ path size trap, sink (Record.start path size 0x200)
          (Record.stop trap.address (some trap)) = line (.ofTrap trap)) ∧
        ∀ refusal, sink [.ofRefusal refusal] [] = "" := by
  refine ⟨?_, ?_, fun sink line hline => ⟨errors_of_trap hline, errors_of_refusal hline⟩⟩
  · intro program steps trap hfits ht hsettled
    refine ⟨?_, steps * (Pace.nanosPerSecond + 1), ?_⟩
    · intro h beats hkeys hconsole
      obtain ⟨hends, hstands⟩ := standsAt_stepped hfits ht hsettled hkeys
      rw [← hconsole] at hends hstands
      exact ⟨hends, fun hstopped => Headless.finish_of_trap (hstands hstopped) ht⟩
    · intro sink readFile periods henough
      have hread (parse : Parser) (arguments : List String) (options : Options)
          (hparse : parse arguments = .ok options) (hseconds : options.seconds = none)
          (hfile : readFile options.rom = some program) :
          outcome parse sink readFile arguments periods =
            .ofTrap (stepped program steps) trap
              (sink (Record.start options.rom program.length 0x200)
                (Record.stop trap.address (some trap))) := by
        have hpause : steps * ((Pace.ofRate options.rate).pause + 1) ≤ periods :=
          (Nat.mul_le_mul_left _ (Nat.succ_le_succ (pause_ofRate_le _))).trans henough
        simp only [outcome, ofArguments_of_unlimited hparse hseconds, hfile,
          headless_of_fits hfits]
        exact finish_of_play hfits ht hsettled rfl rfl rfl hpause sink
      refine ⟨hread, ?_⟩
      intro parse hparse rom rate dump hrom hrate hfile
      exact hread parse _ _ (hparse rom rate dump hrom hrate) rfl hfile
  · intro program parse sink readFile arguments options limit periods hlarge htask hfile
    simp only [outcome, htask, hfile, headless_of_tooLarge hlarge]
    exact outcome_of_tooLarge program.length sink

/-- A program that reads the delay timer, draws, takes no bit of a random byte and returns to
nothing, with the parser of the terminal and a logger that shows errors, at two rates; and a program
of one byte too many. -/
theorem outcome_is_that_of_steps_drawing :
    let program : List UInt8 := [0xF3, 0x07, 0xD0, 0x05, 0xC1, 0x00, 0x00, 0xEE]
    let trap : Trap := ⟨0x206, .stackUnderflow⟩
    let line : Record → String := fun record => "[ERROR] " ++ record.text ++ "\n"
    let sink : Sink := fun main loop =>
      String.join (((main ++ loop).filter (·.level = .error)).map line)
    let start := Headless.start (Console.new.load program).2 (.ofRate 700) none true
      (Record.start "a.ch8" program.length 0x200)
    let beats : List Beat := [.turn, .touch .tick, .turn, .turn, .touch (.supply [7]), .turn]
    let stopped := { start with console := start.console.after (beats.map Beat.event) }
    let shown := Outcome.ofTrap (stepped program 4) trap (line (.ofTrap trap))
    (¬ stopped.console.running ∧ stopped.finish sink = shown) ∧
      (∃ enough, ∀ periods, enough ≤ periods →
        outcome Terminal.parse sink (fun _ => some program) ["--ips", (0).repr, "--", "a.ch8"]
            periods = shown ∧
          outcome Terminal.parse sink (fun _ => some program) ["--dump", "--", "a.ch8"] periods =
            shown) ∧
      outcome Terminal.parse sink (fun _ => some (.replicate 3585 0)) ["--", "large.ch8"] 1 =
        ⟨1, "", "" ++ ("Error: ProgramTooLarge \x7b size: " ++ (3585).repr ++
          ", max: 3584 \x7d\n")⟩ ∧
      shown.exitCode = 1 ∧
      shown.errors =
        "[ERROR] return with an empty call stack (instruction at 0x206)\n" ++
          "return with an empty call stack (instruction at 0x206)\n" ∧
      (stepped program 4).devices.screen.frame.lines.head? =
        some ("####".toList ++ .replicate 60 '.') := by
  intro program trap line sink start beats stopped shown
  have ht : (stepped program 4).trap = some trap := by decide +kernel
  have hsettled : ∀ i ∈ carriedOut program 4, ¬ i.unsettles := by decide +kernel
  have hkeys : Keyless beats := by
    intro byte hmem
    simp [beats] at hmem
  have hlarge : 3584 < (List.replicate 3585 (0 : UInt8)).length := by
    rw [List.length_replicate]
    decide
  have hsink : sink.ShowsErrors line := fun _ _ => rfl
  have hparse := Terminal.parse_readsRuns
  obtain ⟨hfaults, htooLarge, herrors⟩ := outcome_is_that_of_steps
  obtain ⟨htrap, hrefusal⟩ := herrors sink line hsink
  obtain ⟨hbeats, enough, henough⟩ := hfaults program 4 trap (by decide) ht hsettled
  obtain ⟨hends, hfinish⟩ := hbeats stopped beats hkeys rfl
  have hstopped : ¬ stopped.console.running := hends (by decide)
  have htask : Task.ofArguments Terminal.parse sink ["--", "large.ch8"] = _ :=
    ofArguments_of_unlimited (hparse "large.ch8" none false (by decide) nofun) rfl sink
  have hrefused := htooLarge _ _ sink (fun _ => some (.replicate 3585 0)) _ _ _ 1 hlarge htask rfl
  rw [List.length_replicate, hrefusal] at hrefused
  have hshown : stopped.finish sink = shown := by
    rw [hfinish hstopped sink]
    exact congrArg (Outcome.ofTrap _ trap) (htrap "a.ch8" program.length trap)
  refine ⟨⟨hstopped, hshown⟩, ⟨enough, ?_⟩, hrefused, rfl, ?_, ?_⟩
  · intro periods hperiods
    obtain ⟨_, hruns⟩ := henough sink (fun _ => some program) periods hperiods
    have hfast := hruns _ hparse "a.ch8" (some 0) false (by decide) (by decide) rfl
    have hdump := hruns _ hparse "a.ch8" none true (by decide) nofun rfl
    rw [htrap] at hfast hdump
    exact ⟨hfast, hdump⟩
  · decide +kernel
  · decide +kernel

end CommandLine
end ChipEight
