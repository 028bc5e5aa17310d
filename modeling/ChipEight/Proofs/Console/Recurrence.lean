import ChipEight.Proofs.Console.TrapReports

/-!
A trap comes back. Until a program is loaded or the console is reset, whatever callers do with a
machine that met a trap, no instruction of it completes: it lies in the console, or in a loop whose
next turn ends on the trap again.
-/

namespace ChipEight

namespace Loop

variable {l : Loop} {f : Fault}

theorem produced_of_fault (hp : l.parked = none) (hm : ∀ d, l.machine.step d = (.error f, d))
    (cancelled : Bool) (d : Devices) : l.produced cancelled d = [] := by
  cases cancelled with
  | true => exact produced_of_cancelled hp
  | false =>
      have hgo : ¬ l.GivesUp false d := by simp [GivesUp, hp]
      have hl : l.ParksAtWaits := fun hparked => absurd hp hparked
      rw [produced, if_neg hgo, hl.turn_of_fault hm]
      rfl

end Loop

namespace Console

open Devices (Touch)

/-- The event puts another machine in place. -/
def Event.replaces : Event → Bool
  | .call (.load _) | .call .reset => true
  | _ => false

/-- The machine that the console or its loop has meets the trap at its next step, and no loop is
past the start of it. -/
structure Stuck (c : Console) (m : Machine) (t : Trap) : Prop where
  place : c.AtRest m ∨ c.AtWork (.ofMachine m)
  loaded : c.loaded = true
  address : t.address = m.pc
  fault : ∀ d, m.step d = (.error t.fault, d)

variable {c : Console} {m : Machine} {t : Trap}

theorem Reachable.exists_stuck (h : c.Reachable) (ht : c.trap = some t) :
    ∃ m, c.AtRest m ∧ c.Stuck m t := by
  obtain ⟨hloaded, _⟩ := h.orderly.lawful.trap t ht
  rcases h.orderly with ⟨m, hm⟩ | ⟨l, hl⟩
  · obtain ⟨haddress, hfault⟩ := hm.trap t ht
    exact ⟨m, hm, .inl hm, hloaded, haddress, hfault⟩
  · cases hl.trap.symm.trans ht

theorem Stuck.of_place {c' : Console} (h : c.Stuck m t) (hloaded : c'.loaded = c.loaded)
    (hplace : c'.AtRest m ∨ c'.AtWork (.ofMachine m)) : c'.Stuck m t :=
  ⟨hplace, hloaded.trans h.loaded, h.address, h.fault⟩

/-! The turns of a stuck loop. -/

theorem Stuck.turn_of_work (h : c.Stuck m t) (hw : c.AtWork (.ofMachine m)) :
    c.turn false = c.handBack m (some t) := by
  have htrap : (⟨m.pc, t.fault⟩ : Trap) = t := by rw [← h.address]
  rw [hw.turn_of_fault h.fault]
  exact congrArg (fun trap => c.handBack m (some trap)) htrap

theorem Stuck.produced (h : c.Stuck m t) (cancelled : Bool) : c.produced cancelled = [] := by
  rcases h.place with hr | hw
  · exact produced_of_idle hr.loop
  · rw [produced_of_loop hw.loop]
    exact Loop.produced_of_fault rfl h.fault cancelled c.devices

theorem Stuck.turn (h : c.Stuck m t) (cancelled : Bool) : (c.turn cancelled).Stuck m t := by
  rcases h.place with hr | hw
  · rwa [turn_of_idle hr.loop]
  · cases cancelled with
    | true =>
        rw [hw.turn_of_cancelled rfl]
        exact h.of_place rfl (.inl (hw.handBack rfl m none nofun))
    | false =>
        rw [h.turn_of_work hw]
        refine h.of_place rfl (.inl (hw.handBack rfl m (some t) ?_))
        intro t' ht'
        obtain rfl := Option.some.inj ht'
        exact ⟨h.address, h.fault⟩

theorem Stuck.stop (h : c.Stuck m t) : c.stop.Stuck m t ∧ c.stop.AtRest m := by
  refine ⟨(h.turn true).turn true, ?_⟩
  rcases h.place with hr | hw
  · rwa [hr.stop]
  · rw [hw.stop_of_unparked rfl]
    exact hw.handBack rfl m none nofun

/-! Everything else that may happen to it. -/

theorem Stuck.touch (h : c.Stuck m t) (event : Touch) : (c.touch event).Stuck m t :=
  h.of_place rfl (h.place.imp (·.touch event) (·.touch event))

theorem Stuck.start (h : c.Stuck m t) : c.start.2.Stuck m t := by
  rcases h.place with hr | hw
  · have hw := hr.work_of_start h.loaded
    exact ⟨.inr hw, hw.loaded, h.address, h.fault⟩
  · rwa [hw.start]

theorem Stuck.collect (h : c.Stuck m t) (hr : c.AtRest m) : c.collect.2.Stuck m t :=
  h.of_place rfl (.inl hr.collect)

theorem Stuck.handle (h : c.Stuck m t) {event : Event} (he : event.replaces = false) :
    (c.handle event).Stuck m t := by
  cases event with
  | turn cancelled => exact h.turn cancelled
  | supply random => exact h.touch (.supply random)
  | call call =>
      cases call with
      | load program => cases he
      | reset => cases he
      | run => exact h.start
      | halt => exact h.stop.1.collect h.stop.2
      | wait =>
          rcases h.place with hr | hw
          · simp only [Console.handle, perform, hr.running, Bool.false_eq_true, if_false]
            exact h.collect hr
          · rwa [handle_of_wait_running hw.running]
      | press byte => exact h.touch (.press byte)
      | release byte => exact h.touch (.release byte)
      | tick => exact h.touch .tick
      | takeFrame => exact h.touch .takeFrame
      | display | dump => exact h

theorem Stuck.statesOf (h : c.Stuck m t) {event : Event} (he : event.replaces = false) :
    c.statesOf event = [] := by
  cases event with
  | turn cancelled => exact h.produced cancelled
  | supply random => rfl
  | call call =>
      cases call with
      | load program => cases he
      | reset => cases he
      | halt => rw [Console.statesOf, h.produced, (h.turn true).produced, List.append_nil]
      | _ => rfl

theorem Stuck.after (h : c.Stuck m t) {events : List Event}
    (he : ∀ event ∈ events, event.replaces = false) :
    (c.after events).Stuck m t ∧ c.states events = [] := by
  induction events generalizing c with
  | nil => exact ⟨h, rfl⟩
  | cons event rest ih =>
      obtain ⟨hfirst, hrest⟩ := List.forall_mem_cons.mp he
      obtain ⟨hstuck, hstates⟩ := ih (h.handle hfirst) hrest
      exact ⟨hstuck, by rw [states, h.statesOf hfirst, hstates, List.nil_append]⟩

/-! Running it once more. -/

/-- The run of a stuck machine to its trap, with touches before the turn that ends it. -/
def retry (meanwhile : List Touch) : List Event :=
  .call .run :: meanwhile.map touchEvent ++ [.turn false]

theorem replaces_of_mem_retry {meanwhile : List Touch} {event : Event}
    (he : event ∈ retry meanwhile) : event.replaces = false := by
  simp only [retry, List.mem_cons, List.mem_append, List.mem_map, List.not_mem_nil, or_false,
    List.cons_append] at he
  rcases he with rfl | ⟨touch, _, rfl⟩ | rfl
  · rfl
  · cases touch <;> rfl
  · rfl

theorem Stuck.after_retry (h : c.Stuck m t) (hr : c.AtRest m) (meanwhile : List Touch) :
    c.after (retry meanwhile) = { c.touches meanwhile with trap := some t } := by
  have hwork := (hr.work_of_start h.loaded).touches meanwhile
  have hstuck : (c.start.2.touches meanwhile).Stuck m t :=
    ⟨.inr hwork, hwork.loaded, h.address, h.fault⟩
  have hcalls : c.after (retry meanwhile) =
      (c.start.2.after (meanwhile.map touchEvent)).turn false := by
    rw [retry, after_append]
    rfl
  rw [hcalls, after_touches, hstuck.turn_of_work hwork, hr.start_of_loaded h.loaded]
  simp only [handBack, touches, ← hr.resting, ← hr.loop, ← hr.running]

/-- Once a trap has stopped a loop, it stays with the machine through any history without a load or
a reset, with any number of further runs in it: no instruction completes. While a further run goes
on, its next turn ends on the same trap. At any other moment the machine is the same and may be run
again, and then the turn of that run ends on the same trap and leaves the whole console as it was,
up to what is done to the devices meanwhile. -/
theorem trap_recurs_until_replaced (h : c.Reachable) (ht : c.trap = some t) {events : List Event}
    (he : ∀ event ∈ events, event.replaces = false) :
    let later := c.after events
    c.states events = [] ∧
      (later.running → .call .run ∈ events ∧
        later.turn false =
          { later with resting := c.resting, loop := none, trap := some t, running := false }) ∧
      (¬ later.running → later.resting = c.resting ∧ (later.perform .run).1 = .done ∧
        ∀ meanwhile, later.states (retry meanwhile) = [] ∧
          later.after (retry meanwhile) = { later.touches meanwhile with trap := some t }) := by
  intro later
  obtain ⟨m, hrest, hstuck⟩ := h.exists_stuck ht
  obtain ⟨hlater, hstates⟩ := hstuck.after he
  refine ⟨hstates, ?_, ?_⟩
  · intro hr
    refine ⟨?_, ?_⟩
    · rcases h.orderly.running_after hr with ⟨hrunning, _⟩ | ⟨before, during, rfl, _⟩
      · cases hrest.running.symm.trans hrunning
      · exact List.mem_append_right before List.mem_cons_self
    · rcases hlater.place with hidle | hw
      · cases hidle.running.symm.trans hr
      · rw [hlater.turn_of_work hw, hrest.resting]
        rfl
  · intro hr
    have hidle : later.AtRest m := by
      rcases hlater.place with hidle | hw
      · exact hidle
      · exact absurd hw.running hr
    refine ⟨hidle.resting.trans hrest.resting.symm, ?_, ?_⟩
    · rw [perform, hidle.start_of_loaded hlater.loaded]
      rfl
    · intro meanwhile
      exact ⟨(hlater.after fun _ => replaces_of_mem_retry).2, hlater.after_retry hidle meanwhile⟩

/-- A program that asks for key sixteen, run again with a key held and the timers going. -/
theorem trap_recurs_until_replaced_on_key_sixteen :
    let stopped := new.after
      [.call (.load [0x60, 0x10, 0xE0, 0x9E]), .call .run, .turn false, .turn false]
    let events : List Event :=
      [.call (.press 0x3), .call .run, .call .tick, .turn false, .call .wait, .call .run, .call .halt]
    let later := stopped.after events
    stopped.trap = some ⟨0x202, .invalidKeyIndex 0x10⟩ ∧ later.trap = none ∧
      later.after (retry [.takeFrame]) =
        { later.touches [.takeFrame] with trap := some ⟨0x202, .invalidKeyIndex 0x10⟩ } := by
  intro stopped events later
  have hreach : stopped.Reachable := Reachable.new.after _
  have htrap : stopped.trap = some ⟨0x202, .invalidKeyIndex 0x10⟩ := by decide +kernel
  have hcollected : later.trap = none := by decide +kernel
  have hkept : ∀ event ∈ events, event.replaces = false := by decide
  have hidle : ¬ later.running := by decide +kernel
  obtain ⟨_, _, hagain⟩ := trap_recurs_until_replaced hreach htrap hkept
  obtain ⟨_, _, hretry⟩ := hagain hidle
  exact ⟨htrap, hcollected, (hretry [.takeFrame]).2⟩

end Console
end ChipEight
