import ChipEight.Proofs.Console.States

/-!
Who hears of a trap. A stopped loop leaves its trap in a slot that one kind of event fills and five
empty, so what a halt or a wait reports is told from the history: the last run that was accepted,
the turn at which it met its trap, and nothing since that reports or drops it.
-/

namespace ChipEight.Console

/-- The event ends what the last run came to: a new run begins, another machine is put in place, or
a caller is told. -/
def clears (c : Console) : Event → Bool
  | .call .run => c.start.1.isOk
  | .call (.load _) | .call .reset | .call .halt => true
  | .call .wait => !c.running
  | _ => false

def uncleared (c : Console) : List Event → Bool
  | [] => true
  | event :: rest => !c.clears event && (c.handle event).uncleared rest

/-- The next instruction of the loop faults. -/
def Meets (c : Console) (t : Trap) : Prop :=
  ∃ l, c.loop = some l ∧ t.address = l.machine.pc ∧ (l.machine.step c.devices).1 = .error t.fault

/-- The last run that was accepted has met the trap, and nothing has cleared it since. -/
def Owes (c : Console) (events : List Event) (t : Trap) : Prop :=
  ∃ before during since,
    events = before ++ .call .run :: (during ++ .turn false :: since) ∧
      (c.after before).start.1 = .ok () ∧
      let started := (c.after before).start.2
      let last := started.after during
      started.uncleared during ∧ last.Meets t ∧ (last.turn false).uncleared since

variable {c : Console} {l : Loop} {m : Machine} {t : Trap} {event : Event} {events : List Event}

theorem uncleared_cons (hfirst : c.clears event = false) :
    c.uncleared (event :: events) = (c.handle event).uncleared events := by
  rw [uncleared, hfirst, Bool.not_false, Bool.true_and]

theorem uncleared_cons_of_clears (hfirst : c.clears event = true) :
    c.uncleared (event :: events) = false := by
  rw [uncleared, hfirst, Bool.not_true, Bool.false_and]

/-! How an event fills the slot. -/

theorem AtRest.not_meets (h : c.AtRest m) : ¬ c.Meets t := by
  rintro ⟨l, hl, _⟩
  cases h.loop.symm.trans hl

theorem AtWork.trap_of_cancelled (h : c.AtWork l) : (c.turn true).trap = none := by
  cases hp : l.parked with
  | none =>
      rw [h.turn_of_cancelled hp]
      rfl
  | some before =>
      obtain ⟨answer, ha, _⟩ := c.devices.keypad.exists_answer_of_cancelled before
      obtain ⟨m, hturn, _⟩ := h.turn_of_answer hp ha
      rw [hturn]
      exact h.trap

theorem AtWork.trap_of_stop (h : c.AtWork l) : c.stop.trap = none := by
  cases hp : l.parked with
  | none =>
      rw [h.stop_of_unparked hp]
      rfl
  | some before =>
      obtain ⟨m, hstop, _⟩ := h.stop_of_parked hp
      rw [hstop]
      rfl

/-- A turn leaves a trap exactly if it is the one that the next instruction meets. -/
theorem AtWork.trap_of_turn (h : c.AtWork l) : (c.turn false).trap = some t ↔ c.Meets t := by
  constructor
  · intro ht
    cases hturn : l.turn false c.devices with
    | mk outcome devices =>
        cases outcome with
        | goOn next =>
            rw [turn_of_goOn h.loop hturn] at ht
            cases h.trap.symm.trans ht
        | stop m trap =>
            rw [turn_of_stop h.loop hturn] at ht
            obtain ⟨rfl, _, htrap⟩ := Loop.turn_stop h.parks hturn
            obtain ⟨haddress, hagain⟩ := htrap t ht
            exact ⟨l, h.loop, haddress, congrArg Prod.fst (hagain c.devices)⟩
  · rintro ⟨l', hl', haddress, hfault⟩
    obtain rfl := Option.some.inj (h.loop.symm.trans hl')
    rw [h.turn_of_fault (Machine.step_eq_of_error hfault), ← haddress]
    rfl

theorem Orderly.trap_of_turn (h : c.Orderly) (cancelled : Bool) :
    (c.turn cancelled).trap = some t ↔ c.trap = some t ∨ cancelled = false ∧ c.Meets t := by
  rcases h with ⟨m, h⟩ | ⟨l, h⟩
  · rw [turn_of_idle h.loop]
    simp only [h.not_meets, and_false, or_false]
  · cases cancelled with
    | true => simp only [h.trap_of_cancelled, h.trap, reduceCtorEq, false_and, or_false]
    | false => simp only [h.trap_of_turn, h.trap, reduceCtorEq, true_and, false_or]

theorem Orderly.trap_of_clears (h : c.Orderly) (hclears : c.clears event = true) :
    (c.handle event).trap = none := by
  cases event with
  | turn cancelled => cases hclears
  | supply random => cases hclears
  | call call =>
      cases call with
      | load program => rfl
      | reset => rfl
      | halt => rfl
      | run =>
          rcases h with ⟨m, h⟩ | ⟨l, h⟩
          · cases hl : c.loaded with
            | true =>
                rw [Console.handle, Console.perform, h.start_of_loaded hl]
                rfl
            | false =>
                simp only [Console.clears, h.start_of_not_loaded hl] at hclears
                cases hclears
          · simp only [Console.clears, h.start] at hclears
            cases hclears
      | wait =>
          rw [Console.clears, Bool.not_eq_true'] at hclears
          simp only [Console.handle, Console.perform, hclears, Bool.false_eq_true, if_false]
          rfl
      | _ => cases hclears

theorem Orderly.handle_of_run_refused (h : c.Orderly) (hclears : c.clears (.call .run) = false) :
    c.handle (.call .run) = c := by
  cases hstart : c.start.1 with
  | ok done =>
      simp only [Console.clears, hstart] at hclears
      cases hclears
  | error refusal => exact h.start_of_refused hstart

theorem handle_of_wait_running (hr : c.running = true) : c.handle (.call .wait) = c := by
  simp only [handle, perform, hr, if_true]

theorem Orderly.trap_of_call (h : c.Orderly) {call : Call}
    (hclears : c.clears (.call call) = false) : (c.handle (.call call)).trap = c.trap := by
  cases call with
  | load program => cases hclears
  | reset => cases hclears
  | halt => cases hclears
  | run => rw [h.handle_of_run_refused hclears]
  | wait =>
      rw [Console.clears, Bool.not_eq_false'] at hclears
      rw [handle_of_wait_running hclears]
  | _ => rfl

/-- A trap is in the slot after an event if it was there and was not cleared, or if the event was the
turn that met it. -/
theorem Orderly.trap_of_handle (h : c.Orderly) (event : Event) :
    (c.handle event).trap = some t ↔
      c.clears event = false ∧ c.trap = some t ∨ event = .turn false ∧ c.Meets t := by
  cases hclears : c.clears event with
  | true =>
      have hturn : event ≠ .turn false := by
        rintro rfl
        cases hclears
      simp only [h.trap_of_clears hclears, hturn, reduceCtorEq, false_and, or_false]
  | false =>
      cases event with
      | turn cancelled =>
          simp only [Console.handle, h.trap_of_turn, Event.turn.injEq, true_and]
      | supply random => simp only [Console.handle, reduceCtorEq, true_and, false_and, or_false]
      | call call =>
          simp only [h.trap_of_call hclears, reduceCtorEq, true_and, false_and, or_false]

/-! Where a loop comes from. -/

theorem Orderly.running_of_handle (h : c.Orderly) (hr : (c.handle event).running = true) :
    c.clears event = false ∧ c.running = true ∨ event = .call .run ∧ c.start.1 = .ok () := by
  cases event with
  | turn cancelled => exact .inl ⟨rfl, running_of_turn hr⟩
  | supply random => exact .inl ⟨rfl, hr⟩
  | call call =>
      cases call with
      | load program => cases h.running_of_stop.symm.trans hr
      | reset => cases h.running_of_stop.symm.trans hr
      | halt => cases h.running_of_stop.symm.trans hr
      | run =>
          cases hstart : c.start.1 with
          | ok done => exact .inr ⟨rfl, rfl⟩
          | error refusal =>
              have hclears : c.clears (.call .run) = false := by
                simp only [Console.clears, hstart]
                rfl
              rw [h.handle_of_run_refused hclears] at hr
              exact .inl ⟨hclears, hr⟩
      | wait =>
          cases hrunning : c.running with
          | true => exact .inl ⟨by rw [Console.clears, hrunning, Bool.not_true], rfl⟩
          | false =>
              simp only [Console.handle, Console.perform, hrunning] at hr
              cases hrunning.symm.trans hr
      | _ => exact .inl ⟨rfl, hr⟩

/-- What runs after a history ran before it and was never stopped, or is the last run in it. -/
theorem Orderly.running_after (h : c.Orderly) (hr : (c.after events).running = true) :
    c.running = true ∧ c.uncleared events ∨
      ∃ before during, events = before ++ .call .run :: during ∧
        (c.after before).start.1 = .ok () ∧ (c.after before).start.2.uncleared during := by
  induction events generalizing c with
  | nil => exact .inl ⟨hr, rfl⟩
  | cons event rest ih =>
      rcases ih (h.handle event) hr with ⟨hrunning, hrest⟩ | ⟨before, during, hsplit, hrun⟩
      · rcases h.running_of_handle hrunning with ⟨hclears, hrunning⟩ | ⟨rfl, hstart⟩
        · exact .inl ⟨hrunning, by rwa [uncleared_cons hclears]⟩
        · exact .inr ⟨[], rest, rfl, hstart, hrest⟩
      · exact .inr ⟨event :: before, during, by rw [hsplit, List.cons_append], hrun⟩

theorem Orderly.trap_after (h : c.Orderly) :
    (c.after events).trap = some t ↔
      c.trap = some t ∧ c.uncleared events ∨
        ∃ taken since, events = taken ++ .turn false :: since ∧
          (c.after taken).Meets t ∧ ((c.after taken).turn false).uncleared since := by
  induction events generalizing c with
  | nil =>
      constructor
      · exact fun ht => .inl ⟨ht, rfl⟩
      · rintro (⟨ht, _⟩ | ⟨taken, since, hsplit, _⟩)
        · exact ht
        · cases List.append_eq_nil_iff.mp hsplit.symm |>.2
  | cons event rest ih =>
      refine (ih (h.handle event)).trans ?_
      rw [h.trap_of_handle]
      constructor
      · rintro (⟨⟨hclears, ht⟩ | ⟨rfl, hmeets⟩, hrest⟩ | ⟨taken, since, hsplit, hmeets⟩)
        · exact .inl ⟨ht, by rwa [uncleared_cons hclears]⟩
        · exact .inr ⟨[], rest, rfl, hmeets, hrest⟩
        · exact .inr ⟨event :: taken, since, by rw [hsplit, List.cons_append], hmeets⟩
      · rintro (⟨ht, hall⟩ | ⟨taken, since, hsplit, hmeets, hsince⟩)
        · rw [uncleared, Bool.and_eq_true, Bool.not_eq_true'] at hall
          exact .inl ⟨.inl ⟨hall.1, ht⟩, hall.2⟩
        · cases taken with
          | nil =>
              obtain ⟨rfl, rfl⟩ := List.cons.inj hsplit
              exact .inl ⟨.inr ⟨rfl, hmeets⟩, hsince⟩
          | cons first taken =>
              obtain ⟨rfl, rfl⟩ := List.cons.inj hsplit
              exact .inr ⟨taken, since, rfl, hmeets, hsince⟩

theorem Orderly.running_of_meets (h : c.Orderly) (hmeets : c.Meets t) : c.running = true := by
  rcases h with ⟨m, h⟩ | ⟨l, h⟩
  · exact absurd hmeets h.not_meets
  · exact h.running

theorem after_run (c : Console) (before during : List Event) :
    c.after (before ++ .call .run :: during) = (c.after before).start.2.after during :=
  after_append c before (.call .run :: during)

/-- Told from the beginning, or from an event that clears, the slot holds what the history owes. -/
theorem Orderly.trap_after_iff_owes (h : c.Orderly)
    (hstart : c.trap = none ∧ c.running = false ∨
      ∃ event rest, events = event :: rest ∧ c.clears event = true) :
    (c.after events).trap = some t ↔ c.Owes events t := by
  rw [h.trap_after]
  constructor
  · rintro (⟨ht, hall⟩ | ⟨taken, since, hsplit, hmeets, hsince⟩)
    · rcases hstart with ⟨hnone, _⟩ | ⟨event, rest, rfl, hclears⟩
      · cases hnone.symm.trans ht
      · cases (uncleared_cons_of_clears hclears).symm.trans hall
    · have hrunning := (h.after taken).running_of_meets hmeets
      rcases h.running_after hrunning with ⟨hr, htaken⟩ | ⟨before, during, rfl, haccepted, hduring⟩
      · rcases hstart with ⟨_, hidle⟩ | ⟨event, rest, rfl, hclears⟩
        · cases hidle.symm.trans hr
        · cases taken with
          | nil =>
              obtain ⟨rfl, _⟩ := List.cons.inj hsplit
              cases hclears
          | cons first taken =>
              obtain ⟨rfl, _⟩ := List.cons.inj hsplit
              cases (uncleared_cons_of_clears hclears).symm.trans htaken
      · rw [after_run] at hmeets hsince
        refine ⟨before, during, since, ?_, haccepted, hduring, hmeets, hsince⟩
        rw [hsplit, List.append_assoc, List.cons_append]
  · rintro ⟨before, during, since, rfl, _, _, hmeets, hsince⟩
    refine .inr ⟨before ++ .call .run :: during, since, ?_, ?_, ?_⟩
    · rw [List.append_assoc, List.cons_append]
    · rwa [after_run]
    · rwa [after_run]

theorem Orderly.reply_of_halt (h : c.Orderly) :
    (c.perform .halt).1 = .stopped (if c.running then none else c.trap) := by
  rcases h with ⟨m, h⟩ | ⟨l, h⟩
  · simp only [Console.perform, halt, h.stop, h.running, Bool.false_eq_true, if_false]
    rfl
  · simp only [h.running, if_true]
    exact congrArg Reply.stopped h.trap_of_stop

theorem Orderly.reply_of_collecting (h : c.Orderly) {call : Call}
    (hcall : call = .halt ∨ call = .wait) :
    (c.perform call).1 = .stopped (some t) ↔ c.trap = some t := by
  rcases h with ⟨m, h⟩ | ⟨l, h⟩
  · have hreply : (c.perform call).1 = .stopped c.trap := by
      rcases hcall with rfl | rfl
      · simp only [Orderly.reply_of_halt (.inl ⟨m, h⟩), h.running, Bool.false_eq_true, if_false]
      · simp only [Console.perform, h.running, Bool.false_eq_true, if_false]
        rfl
    rw [hreply, Reply.stopped.injEq]
  · have hreply : (c.perform call).1 ≠ .stopped (some t) := by
      rcases hcall with rfl | rfl
      · simp only [Orderly.reply_of_halt (.inr ⟨l, h⟩), h.running, if_true, ne_eq,
          Reply.stopped.injEq, reduceCtorEq, not_false_eq_true]
      · simp only [Console.perform, h.running, if_true, ne_eq, reduceCtorEq, not_false_eq_true]
    simp only [hreply, h.trap, reduceCtorEq]

/-- A halt or a wait reports a trap exactly when the last accepted run met it and nothing has
reported or dropped it since: no further run, load or reset, and no halt or wait before this one.
Whatever came before such an event has no part in what is reported after it. A run that a halt
stops has met no trap. -/
theorem traps_reported_once_by_their_run (past : List Event) {call : Call}
    (hcall : call = .halt ∨ call = .wait) (t : Trap) :
    let c := new.after past
    ((c.perform call).1 = .stopped (some t) ↔ new.Owes past t) ∧
      (∀ event later, c.clears event →
        (((c.after (event :: later)).perform call).1 = .stopped (some t) ↔
          c.Owes (event :: later) t)) ∧
      (c.running → (c.perform .halt).1 = .stopped none) := by
  intro c
  have horderly : c.Orderly := orderly_new.after past
  refine ⟨?_, ?_, ?_⟩
  · rw [horderly.reply_of_collecting hcall]
    exact orderly_new.trap_after_iff_owes (.inl ⟨rfl, rfl⟩)
  · intro event later hclears
    rw [(horderly.after _).reply_of_collecting hcall]
    exact horderly.trap_after_iff_owes (.inr ⟨event, later, rfl, hclears⟩)
  · intro hr
    rw [horderly.reply_of_halt, if_pos hr]

/-- A wait is told of a return with nothing to return to. A run that is stopped at once drops it. -/
theorem traps_reported_once_by_their_run_on_empty_stack :
    let past : List Event := [.call (.load [0x00, 0xEE]), .call .run, .turn false]
    let t : Trap := ⟨0x200, .stackUnderflow⟩
    let c := new.after past
    ((c.perform .wait).1 = .stopped (some t) ∧ new.Owes past t) ∧
      c.clears (.call .run) ∧ ¬ c.Owes [.call .run, .turn true] t := by
  intro past t c
  obtain ⟨hreport, hlater, _⟩ := traps_reported_once_by_their_run past (.inr rfl) t
  have hreply : (c.perform .wait).1 = .stopped (some t) := by decide +kernel
  have hclears : c.clears (.call .run) := by decide +kernel
  have hnothing : ((c.after [.call .run, .turn true]).perform .wait).1 = .stopped none := by
    decide +kernel
  refine ⟨⟨hreply, hreport.mp hreply⟩, hclears, ?_⟩
  intro howes
  cases hnothing.symm.trans ((hlater _ _ hclears).mpr howes)

end ChipEight.Console
