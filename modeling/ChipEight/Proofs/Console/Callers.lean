import ChipEight.Console.Shared
import ChipEight.Proofs.Console.Lifecycle

/-!
Who has the machine when several callers share a console. As long as no run overtakes a blocked load
or reset, the console has it exactly while nothing runs, and a load or a reset returns with its own
machine in place. A run that does overtake one lets it return under the loop of that run.
-/

namespace ChipEight

namespace Errand

/-- The call puts another machine in place. -/
def installs : Errand → Bool
  | .load _ | .reset => true
  | .halt | .wait => false

variable {errand other : Errand} {c : Console} {l : Loop} {m : Machine}

theorem call_injective (h : errand.call = other.call) : errand = other := by
  cases errand <;> cases other <;> cases h <;> rfl

/-- A call of a lone caller stops the loop and does what it has to do. -/
theorem perform_call (h : errand.cancels = true) : c.perform errand.call = errand.finish c.stop := by
  cases errand with
  | wait => cases h
  | load | reset | halt => rfl

theorem perform_call_of_rest (h : c.AtRest m) (errand : Errand) :
    c.perform errand.call = errand.finish c := by
  cases hcancels : errand.cancels with
  | true => rw [perform_call hcancels, h.stop]
  | false =>
      cases errand with
      | wait =>
          simp only [call, Console.perform, h.running, Bool.false_eq_true, if_false]
          rfl
      | load | reset | halt => cases hcancels

theorem atRest_finish (h : c.AtRest m) (errand : Errand) : ∃ m, (errand.finish c).2.AtRest m := by
  cases errand with
  | load program => exact ⟨_, h.install program⟩
  | reset => exact ⟨_, h.wipe⟩
  | halt | wait => exact ⟨m, h.collect⟩

theorem loaded_of_finish {program : List UInt8}
    (h : ((Errand.load program).finish c).1 = .done) : (c.install program).2.loaded = true := by
  simp only [finish, Console.install] at h ⊢
  cases hload : (Machine.load program).1 with
  | ok done => rfl
  | error refusal =>
      simp only [hload] at h
      cases h

/-- There is nothing to collect while a loop runs. -/
theorem finish_of_work (h : c.AtWork l) (he : errand.installs = false) :
    (errand.finish c).2 = c := by
  have hsame : { c with trap := none } = c := by rw [← h.trap]
  cases errand with
  | load program => cases he
  | reset => cases he
  | halt | wait => exact hsame

end Errand

namespace Shared

open Console (Call Reply)

/-- A run is accepted while a load or a reset is blocked. -/
def overtakes (s : Shared) : Act → Bool
  | .call .run => s.console.start.1.isOk && s.blocked.any (·.errand.installs)
  | _ => false

def overtaken (s : Shared) : List Act → Bool
  | [] => false
  | act :: rest => s.overtakes act || (s.step act).2.overtaken rest

/-- What callers may rely on: the console has the machine exactly while nothing runs, what runs was
loaded, and a load or a reset that returns leaves its machine in place for the next run. -/
structure Lawful (s : Shared) : Prop where
  resting_iff : s.console.resting.isSome ↔ ¬ s.console.running
  loaded_of_running : s.console.running → s.console.loaded
  load : ∀ act program, (s.step act).1 = some (.load program, .done) →
    let c := (s.step act).2.console
    ¬ c.running ∧ c.resting = some (Machine.load program).2 ∧
      c.start.1 = .ok () ∧ c.start.2.loop = some (.ofMachine (Machine.load program).2)
  reset : ∀ act reply, (s.step act).1 = some (.reset, reply) →
    let c := (s.step act).2.console
    ¬ c.running ∧ c.resting = some .boot ∧ ¬ c.loaded

/-- A loop never runs behind the back of a load or a reset that waits for another one. -/
structure Exclusive (s : Shared) : Prop where
  orderly : s.console.Orderly
  current : s.console.running → ∀ b ∈ s.blocked, b.errand.installs → b.run = s.runs

variable {s : Shared} {act : Act} {acts : List Act} {errand : Errand} {reply : Reply}

theorem exclusive_new : new.Exclusive :=
  ⟨Console.orderly_new, nofun⟩

theorem Exclusive.of_rest {m : Machine} (h : s.console.AtRest m) : s.Exclusive :=
  ⟨.inl ⟨m, h⟩, fun hr => nomatch h.running.symm.trans hr⟩

/-! What each act preserves. -/

theorem Exclusive.finish_of_not_running (h : s.Exclusive) (hr : s.console.running = false)
    (errand : Errand) : (s.finish errand).2.Exclusive := by
  obtain ⟨m, hm⟩ := h.orderly.atRest_of_idle hr
  obtain ⟨next, hnext⟩ := errand.atRest_finish hm
  exact .of_rest hnext

theorem Exclusive.ask (h : s.Exclusive) (errand : Errand) : (s.ask errand).2.Exclusive := by
  cases hr : s.console.running with
  | false =>
      simp only [Shared.ask, hr, Bool.false_eq_true, if_false]
      exact h.finish_of_not_running hr errand
  | true =>
      simp only [Shared.ask, hr, if_true]
      refine ⟨h.orderly, ?_⟩
      intro hrunning b hb hinstalls
      rcases List.mem_append.mp hb with hb | hb
      · exact h.current hrunning b hb hinstalls
      · obtain rfl := List.mem_singleton.mp hb
        rfl

theorem Exclusive.eraseIdx (h : s.Exclusive) (k : Nat) :
    { s with blocked := s.blocked.eraseIdx k }.Exclusive :=
  ⟨h.orderly, fun hr b hb => h.current hr b (List.mem_of_mem_eraseIdx hb)⟩

theorem Exclusive.not_installs (h : s.Exclusive) {b : Blocked} (hb : b ∈ s.blocked)
    (hr : s.console.running = true) (hrun : b.run ≠ s.runs) : b.errand.installs = false := by
  cases hinstalls : b.errand.installs with
  | false => rfl
  | true => exact absurd (h.current hr b hb hinstalls) hrun

theorem Exclusive.wake (h : s.Exclusive) (k : Nat) : (s.wake k).2.Exclusive := by
  simp only [Shared.wake]
  split
  · rename_i b hb
    split
    · exact h
    · rename_i hgo
      have herased := h.eraseIdx k
      cases hr : s.console.running with
      | false => exact herased.finish_of_not_running hr b.errand
      | true =>
          have hrun : b.run ≠ s.runs := fun hrun => hgo ⟨hr, hrun⟩
          have hinstalls := h.not_installs (List.mem_of_getElem? hb) hr hrun
          obtain ⟨l, hl⟩ := h.orderly.atWork_of_running hr
          simp only [finish, b.errand.finish_of_work hl hinstalls]
          exact herased
  · exact h

theorem Exclusive.turn (h : s.Exclusive) (looked : Bool) : (s.turn looked).Exclusive :=
  ⟨h.orderly.turn _, fun hr => h.current (Console.running_of_turn hr)⟩

theorem Exclusive.start (h : s.Exclusive) (hovertakes : s.overtakes (.call .run) = false) :
    s.start.2.Exclusive := by
  have horderly := h.orderly.start
  simp only [Shared.start]
  split
  · rename_i console hstart
    rw [hstart] at horderly
    refine ⟨horderly, ?_⟩
    intro _ b hb hinstalls
    simp only [overtakes, hstart] at hovertakes
    have hany := List.any_eq_false.mp hovertakes b hb
    exact absurd hinstalls hany
  · rename_i refusal console hstart
    have hsame := h.orderly.start_of_refused (congrArg Prod.fst hstart)
    rw [hstart] at hsame
    obtain rfl : console = s.console := hsame
    exact h

theorem Exclusive.step (h : s.Exclusive) (hovertakes : s.overtakes act = false) :
    (s.step act).2.Exclusive := by
  cases act with
  | wake k => exact h.wake k
  | turn looked => exact h.turn looked
  | supply random => exact ⟨h.orderly.touch (.supply random), h.current⟩
  | call call =>
      cases call with
      | load program => exact h.ask (.load program)
      | reset => exact h.ask .reset
      | halt => exact h.ask .halt
      | wait => exact h.ask .wait
      | run => exact h.start hovertakes
      | press byte => exact ⟨h.orderly.touch (.press byte), h.current⟩
      | release byte => exact ⟨h.orderly.touch (.release byte), h.current⟩
      | tick => exact ⟨h.orderly.touch .tick, h.current⟩
      | takeFrame => exact ⟨h.orderly.touch .takeFrame, h.current⟩
      | display | dump => exact h

theorem Exclusive.after (h : s.Exclusive) (hacts : s.overtaken acts = false) :
    (s.after acts).Exclusive := by
  induction acts generalizing s with
  | nil => exact h
  | cons act rest ih =>
      rw [overtaken, Bool.or_eq_false_iff] at hacts
      exact ih (h.step hacts.1) hacts.2

/-! What a load or a reset finds when it returns. -/

theorem finish_returns {other : Errand} (hr : (s.finish other).1 = some (errand.call, reply)) :
    errand.finish s.console = (reply, (s.finish other).2.console) := by
  simp only [finish, Option.some.injEq, Prod.mk.injEq] at hr
  obtain ⟨hcall, hreply⟩ := hr
  obtain rfl := Errand.call_injective hcall
  exact Prod.ext hreply rfl

theorem ask_returns {other : Errand} (hr : (s.ask other).1 = some (errand.call, reply)) :
    s.console.running = false ∧ errand.finish s.console = (reply, (s.ask other).2.console) := by
  cases hrunning : s.console.running with
  | true =>
      simp only [ask, hrunning, if_true] at hr
      cases hr
  | false =>
      have hask : s.ask other = s.finish other := by
        simp only [ask, hrunning, Bool.false_eq_true, if_false]
      rw [hask] at hr ⊢
      exact ⟨rfl, finish_returns hr⟩

theorem Exclusive.wake_returns (h : s.Exclusive) (he : errand.installs = true) {k : Nat}
    (hr : (s.wake k).1 = some (errand.call, reply)) :
    s.console.running = false ∧ errand.finish s.console = (reply, (s.wake k).2.console) := by
  cases hb : s.blocked[k]? with
  | none =>
      simp only [Shared.wake, hb] at hr
      cases hr
  | some b =>
      by_cases hblocks : s.console.running ∧ b.run = s.runs
      · simp only [Shared.wake, hb, if_pos hblocks] at hr
        cases hr
      · simp only [Shared.wake, hb, if_neg hblocks] at hr ⊢
        have hcall := congrArg Prod.fst (Option.some.inj hr)
        refine ⟨?_, finish_returns hr⟩
        cases hrunning : s.console.running with
        | false => rfl
        | true =>
            have hrun : b.run ≠ s.runs := fun hrun => hblocks ⟨hrunning, hrun⟩
            have hnot := h.not_installs (List.mem_of_getElem? hb) hrunning hrun
            rw [Errand.call_injective hcall] at hnot
            cases hnot.symm.trans he

/-- It returns at a moment when nothing runs, and does then all that it has to do. -/
theorem Exclusive.returns (h : s.Exclusive) (he : errand.installs = true)
    (hr : (s.step act).1 = some (errand.call, reply)) :
    s.console.running = false ∧ errand.finish s.console = (reply, (s.step act).2.console) := by
  cases act with
  | turn looked => cases hr
  | supply random => cases hr
  | wake k => exact h.wake_returns he hr
  | call call =>
      cases call with
      | load program => exact ask_returns hr
      | reset => exact ask_returns hr
      | halt => exact ask_returns hr
      | wait => exact ask_returns hr
      | run =>
          simp only [Shared.step, Shared.call, Shared.start] at hr
          split at hr <;> cases errand <;> cases hr
      | _ => cases errand <;> cases hr

theorem Exclusive.lawful (h : s.Exclusive) : s.Lawful where
  resting_iff := h.orderly.lawful.resting_iff
  loaded_of_running := h.orderly.lawful.loaded_of_running
  load act program hr := by
    have hinstalls : (Errand.load program).installs = true := rfl
    obtain ⟨hidle, hfinish⟩ := h.returns hinstalls hr
    obtain ⟨m, hm⟩ := h.orderly.atRest_of_idle hidle
    have hrest := hm.install program
    have hloaded := Errand.loaded_of_finish (congrArg Prod.fst hfinish)
    have hconsole : (s.console.install program).2 = (s.step act).2.console :=
      congrArg Prod.snd hfinish
    rw [← hconsole]
    refine ⟨by simp [hrest.running], hrest.resting, ?_⟩
    rw [hrest.start_of_loaded hloaded]
    exact ⟨rfl, rfl⟩
  reset act reply hr := by
    have hinstalls : Errand.reset.installs = true := rfl
    obtain ⟨hidle, hfinish⟩ := h.returns hinstalls hr
    obtain ⟨m, hm⟩ := h.orderly.atRest_of_idle hidle
    have hconsole : s.console.wipe = (s.step act).2.console := congrArg Prod.snd hfinish
    rw [← hconsole]
    exact ⟨by simp [hm.wipe.running], rfl, nofun⟩

/-- However many callers there are and in whatever order they come, as long as no run is accepted
while a load or a reset is blocked, the console is lawful between any two acts. -/
theorem lawful_unless_overtaken (h : new.overtaken acts = false) : (new.after acts).Lawful :=
  (exclusive_new.after h).lawful

/-- A load behind a wait, both blocked by the same loop. -/
theorem lawful_unless_overtaken_by_nobody :
    let acts : List Act :=
      [.call (.load [0x12, 0x00]), .call .run, .call .wait, .call (.load [0x00, 0xE0]), .turn true]
    let s := new.after acts
    new.overtaken acts = false ∧ s.blocked.length = 2 ∧
      (s.step (.wake 1)).1 = some (.load [0x00, 0xE0], .done) ∧
      (s.step (.wake 1)).2.console.resting = some (Machine.load [0x00, 0xE0]).2 := by
  intro acts s
  obtain ⟨hacts, hblocked, hreturns⟩ : new.overtaken acts = false ∧ s.blocked.length = 2 ∧
      (s.step (.wake 1)).1 = some (.load [0x00, 0xE0], .done) := by
    decide +kernel
  have hlawful := lawful_unless_overtaken hacts
  obtain ⟨_, hresting, _⟩ := hlawful.load (.wake 1) [0x00, 0xE0] hreturns
  exact ⟨hacts, hblocked, hreturns, hresting⟩

/-- The loop that blocks a load or a reset stops, and another caller runs the console before the
blocked one looks again. The load returns under the live loop, and when that loop is stopped it
hands its machine back over the loaded one, so that the next run is of the program before. The
reset leaves a loop that runs without a program. -/
theorem not_lawful_overtaken :
    let overtake (blocked : Call) : Shared :=
      new.after [.call (.load [0x12, 0x00]), .call .run, .call blocked, .turn true, .call .run]
    let loaded := (overtake (.load [0x00, 0xE0])).step (.wake 0)
    let reset := (overtake .reset).step (.wake 0)
    let again := loaded.2.after [.call .halt, .turn true, .wake 0, .call .run]
    (loaded.1 = some (.load [0x00, 0xE0], .done) ∧ loaded.2.console.running ∧
        loaded.2.console.resting.isSome ∧
        again.console.loop.map (·.machine.memory[0x200]) = some 0x12) ∧
      (reset.1 = some (.reset, .done) ∧ reset.2.console.running ∧ ¬ reset.2.console.loaded) ∧
      ¬ ∀ acts, (new.after acts).Lawful := by
  intro overtake loaded reset again
  obtain ⟨hload, hrunning, hfacts⟩ : loaded.1 = some (.load [0x00, 0xE0], .done) ∧
      loaded.2.console.running ∧ loaded.2.console.resting.isSome ∧
      again.console.loop.map (·.machine.memory[0x200]) = some 0x12 := by
    decide +kernel
  have hreset : reset.1 = some (.reset, .done) ∧ reset.2.console.running ∧
      ¬ reset.2.console.loaded := by
    decide +kernel
  refine ⟨⟨hload, hrunning, hfacts⟩, hreset, ?_⟩
  intro hlawful
  obtain ⟨hidle, _⟩ := (hlawful _).load (.wake 0) [0x00, 0xE0] hload
  exact hidle hrunning

/-! A lone caller. -/

theorem ask_of_idle (h : s.console.Orderly) (hidle : s.console.running = false) (errand : Errand) :
    s.ask errand =
      (some (errand.call, (s.console.perform errand.call).1),
        { s with console := (s.console.perform errand.call).2 }) := by
  obtain ⟨m, hm⟩ := h.atRest_of_idle hidle
  rw [Errand.perform_call_of_rest hm, ask, hidle, if_neg Bool.false_ne_true]
  rfl

theorem ask_of_running (hrunning : s.console.running = true) (errand : Errand) :
    s.ask errand =
      (none, { s with
        cancel := s.cancel || errand.cancels
        blocked := s.blocked ++ [⟨errand, s.runs⟩] }) := by
  rw [ask, if_pos hrunning]

/-- A load, a reset or a halt that is blocked finishes as that of a console with one caller, if the
loop takes two turns that look for the cancellation and nobody else comes. -/
theorem wake_of_alone (h : s.console.Orderly) (hrunning : s.console.running = true)
    (hfree : s.blocked = []) (hcancels : errand.cancels = true) :
    (((s.ask errand).2.turn true).turn true).wake 0 =
      (some (errand.call, (s.console.perform errand.call).1),
        { s with console := (s.console.perform errand.call).2, cancel := true }) := by
  rw [ask_of_running hrunning, hcancels, Bool.or_true, hfree, Errand.perform_call hcancels]
  change wake { s with console := s.console.stop, cancel := true, blocked := [⟨errand, s.runs⟩] } 0
    = _
  simp only [wake, List.getElem?_cons_zero, h.running_of_stop, Bool.false_eq_true, false_and,
    if_false]
  rw [← hfree]
  rfl

end Shared
end ChipEight
