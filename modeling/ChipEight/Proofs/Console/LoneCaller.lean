import ChipEight.Proofs.Console.Callers
import ChipEight.Proofs.Console.Returns
import ChipEight.Proofs.Console.States

/-!
A console with a lone caller, who makes no call before the last one has returned. Its flag and the
numbers of its runs add nothing to what the console does: it goes through a history of calls, where
a call takes place at the moment when it returns, and a loop finds the flag set only while it blocks
a load, a reset or a halt. The other way round, every history whose turns are not cancelled is gone
through by a lone caller, whose blocked calls return after two turns that look at the flag.
-/

namespace ChipEight

open Console (Call Event Reply)

namespace Console

/-- The call that an event makes, and its reply. -/
def answer? (c : Console) : Event → Option (Call × Reply)
  | .call call => some (call, (c.perform call).1)
  | .turn _ | .supply _ => none

def answers (c : Console) : List Event → List (Call × Reply)
  | [] => []
  | event :: rest => (c.answer? event).toList ++ (c.handle event).answers rest

theorem answers_append (c : Console) (first second : List Event) :
    c.answers (first ++ second) = c.answers first ++ (c.after first).answers second := by
  induction first generalizing c with
  | nil => rfl
  | cons event rest ih =>
      simp only [List.cons_append, answers, ih, List.append_assoc]
      rfl

/-- The call as one that a running loop blocks. -/
def Call.errand? : Call → Option Errand
  | .load program => some (.load program)
  | .reset => some .reset
  | .halt => some .halt
  | .wait => some .wait
  | _ => none

theorem ofStart_ne_stillRunning (outcome : Except Refusal Unit) :
    Reply.ofStart outcome ≠ .stillRunning := by
  intro h
  cases outcome <;> cases h

theorem ofKey_ne_stillRunning (outcome : Except Fault Unit) :
    Reply.ofKey outcome ≠ .stillRunning := by
  intro h
  cases outcome <;> cases h

/-- Only a wait goes on. -/
theorem perform_ne_stillRunning {c : Console} {call : Call}
    (h : c.running = true → call ≠ .wait) : (c.perform call).1 ≠ .stillRunning := by
  intro hreply
  cases call with
  | load program => exact ofStart_ne_stillRunning (c.load program).1 hreply
  | run => exact ofStart_ne_stillRunning c.start.1 hreply
  | press byte => exact ofKey_ne_stillRunning (c.press byte).1 hreply
  | release byte => exact ofKey_ne_stillRunning (c.release byte).1 hreply
  | wait =>
      cases hr : c.running with
      | true => exact h hr rfl
      | false =>
          simp only [perform, hr, Bool.false_eq_true, if_false] at hreply
          cases hreply
  | halt | reset | tick | display | takeFrame | dump => cases hreply

theorem filter_answer {c : Console} {call : Call} (h : (c.perform call).1 ≠ .stillRunning) :
    (c.answer? (.call call)).toList.filter (·.2 ≠ .stillRunning) =
      [(call, (c.perform call).1)] :=
  List.filter_cons_of_pos (decide_eq_true h)

end Console

namespace Shared

def Act.isCall : Act → Bool
  | .call _ => true
  | .wake _ | .turn _ | .supply _ => false

/-- Nobody calls while somebody is blocked. -/
def alone (s : Shared) : List Act → Bool
  | [] => true
  | act :: rest => (s.blocked.isEmpty || !act.isCall) && (s.step act).2.alone rest

/-- What an act is to the console. A call takes place when it returns. -/
def event? (s : Shared) : Act → Option Event
  | .turn looked => some (.turn (looked && s.cancel))
  | .supply random => some (.supply random)
  | .call call => (s.call call).1.map fun returned => .call returned.1
  | .wake i => (s.wake i).1.map fun returned => .call returned.1

def history (s : Shared) : List Act → List Event
  | [] => []
  | act :: rest => (s.event? act).toList ++ (s.step act).2.history rest

def returned (s : Shared) : List Act → List (Call × Reply)
  | [] => []
  | act :: rest => (s.step act).1.toList ++ (s.step act).2.returned rest

/-- At most one caller is blocked, by the loop that runs now if any does, and that loop is to stop
just if it blocks a load, a reset or a halt. -/
structure Lone (s : Shared) : Prop where
  orderly : s.console.Orderly
  single : s.blocked.length ≤ 1
  current : ∀ b ∈ s.blocked, b.run = s.runs
  cancel : s.console.running = true → s.cancel = s.blocked.any (·.errand.cancels)

/-- The act is to the console what its event is: the call that returns gets the reply that it would
get at that moment, and leaves what it would leave. -/
structure Plays (s : Shared) (act : Act) : Prop where
  console : (s.step act).2.console = s.console.after (s.event? act).toList
  returned : (s.step act).1.toList = s.console.answers (s.event? act).toList

variable {s : Shared} {act : Act} {acts : List Act} {m : Machine} {errand : Errand}

theorem alone_cons {rest : List Act} (h : s.alone (act :: rest)) :
    (act.isCall → s.blocked = []) ∧ (s.step act).2.alone rest := by
  simp only [alone, Bool.and_eq_true, Bool.or_eq_true, Bool.not_eq_true', List.isEmpty_iff] at h
  refine ⟨fun hcall => ?_, h.2⟩
  rcases h.1 with hfree | hother
  · exact hfree
  · cases hcall.symm.trans hother

theorem lone_new : new.Lone :=
  ⟨Console.orderly_new, Nat.zero_le 1, nofun, nofun⟩

theorem lone_of_rest (h : s.console.AtRest m) (hfree : s.blocked = []) : s.Lone := by
  refine ⟨.inl ⟨m, h⟩, ?_, ?_, ?_⟩
  · rw [hfree]
    exact Nat.zero_le 1
  · rw [hfree]
    nofun
  · intro hr
    cases h.running.symm.trans hr

theorem lone_finish (h : s.console.AtRest m) (hfree : s.blocked = []) (errand : Errand) :
    (s.finish errand).2.Lone := by
  obtain ⟨next, hnext⟩ := errand.atRest_finish h
  exact lone_of_rest hnext hfree

theorem Lone.ask (h : s.Lone) (hfree : s.blocked = []) (errand : Errand) :
    (s.ask errand).2.Lone := by
  cases hr : s.console.running with
  | false =>
      simp only [Shared.ask, hr, Bool.false_eq_true, if_false]
      obtain ⟨m, hm⟩ := h.orderly.atRest_of_idle hr
      exact lone_finish hm hfree errand
  | true =>
      have hcancel := h.cancel hr
      simp only [hfree, List.any_nil] at hcancel
      simp only [Shared.ask, hr, if_true, hfree, hcancel, List.nil_append, Bool.false_or]
      refine ⟨h.orderly, Nat.le_refl 1, ?_, ?_⟩
      · intro b hb
        obtain rfl := List.mem_singleton.mp hb
        rfl
      · intro _
        simp only [List.any_cons, List.any_nil, Bool.or_false]

/-- A caller who is woken while a loop runs goes on waiting for it. Otherwise the call returns, and
nobody is blocked any more. -/
theorem Lone.wake_eq (h : s.Lone) (i : Nat) :
    s.wake i = (none, s) ∨
      ∃ errand, (∃ m, s.console.AtRest m) ∧ s.wake i = { s with blocked := [] }.finish errand := by
  cases hb : s.blocked[i]? with
  | none =>
      refine .inl ?_
      simp only [Shared.wake, hb]
  | some b =>
      have hrun := h.current b (List.mem_of_getElem? hb)
      cases hr : s.console.running with
      | true =>
          refine .inl ?_
          simp only [Shared.wake, hb, hr, hrun, and_self, if_true]
      | false =>
          obtain ⟨hi, _⟩ := List.getElem?_eq_some_iff.mp hb
          have herased : s.blocked.eraseIdx i = [] := by
            have hsingle := h.single
            apply List.eq_nil_of_length_eq_zero
            rw [List.length_eraseIdx_of_lt hi]
            omega
          refine .inr ⟨b.errand, h.orderly.atRest_of_idle hr, ?_⟩
          simp only [Shared.wake, hb, hr, Bool.false_eq_true, false_and, if_false, herased]

theorem Lone.start (h : s.Lone) (hfree : s.blocked = []) : s.start.2.Lone := by
  have horderly := h.orderly.start
  cases hs : s.console.start with
  | mk outcome console =>
      rw [hs] at horderly
      cases outcome with
      | ok done =>
          simp only [Shared.start, hs, hfree]
          refine ⟨horderly, Nat.zero_le 1, ?_, fun _ => rfl⟩
          intro b hb
          cases hb
      | error refusal =>
          have hsame := h.orderly.start_of_refused (congrArg Prod.fst hs)
          rw [hs] at hsame
          obtain rfl : console = s.console := hsame
          simp only [Shared.start, hs]
          exact h

/-- An act that leaves the loop alone. -/
theorem Lone.touch (h : s.Lone) (event : Devices.Touch) :
    { s with console := s.console.touch event }.Lone :=
  ⟨h.orderly.touch event, h.single, h.current, h.cancel⟩

theorem Lone.turn (h : s.Lone) (looked : Bool) : (s.turn looked).Lone :=
  ⟨h.orderly.turn _, h.single, h.current, fun hr => h.cancel (Console.running_of_turn hr)⟩

theorem Lone.step (h : s.Lone) (hcall : act.isCall → s.blocked = []) : (s.step act).2.Lone := by
  cases act with
  | turn looked => exact h.turn looked
  | supply random => exact h.touch (.supply random)
  | wake i =>
      simp only [Shared.step]
      rcases h.wake_eq i with hwake | ⟨errand, ⟨m, hm⟩, hwake⟩
      · rw [hwake]
        exact h
      · rw [hwake]
        exact lone_finish (s := { s with blocked := [] }) hm rfl errand
  | call call =>
      have hfree := hcall rfl
      cases call with
      | load program => exact h.ask hfree (.load program)
      | reset => exact h.ask hfree .reset
      | halt => exact h.ask hfree .halt
      | wait => exact h.ask hfree .wait
      | run => exact h.start hfree
      | press byte => exact h.touch (.press byte)
      | release byte => exact h.touch (.release byte)
      | tick => exact h.touch .tick
      | takeFrame => exact h.touch .takeFrame
      | display | dump => exact h

/-- When the call of a lone caller returns, nobody is blocked. -/
theorem Lone.blocked_of_returned (h : s.Lone) (hcall : act.isCall → s.blocked = [])
    (hreturned : (s.step act).1.isSome) : (s.step act).2.blocked = [] := by
  cases act with
  | turn | supply => cases hreturned
  | wake i =>
      simp only [Shared.step] at hreturned ⊢
      rcases h.wake_eq i with hwake | ⟨errand, _, hwake⟩
      · rw [hwake] at hreturned
        cases hreturned
      · rw [hwake]
        rfl
  | call call =>
      have hfree := hcall rfl
      have hask (errand : Errand) (hsome : (s.ask errand).1.isSome) :
          (s.ask errand).2.blocked = [] := by
        rw [Shared.ask] at hsome ⊢
        split at hsome
        · cases hsome
        · rw [if_neg ‹_›]
          exact hfree
      cases call with
      | load program => exact hask (.load program) hreturned
      | reset => exact hask .reset hreturned
      | halt => exact hask .halt hreturned
      | wait => exact hask .wait hreturned
      | run =>
          simp only [Shared.step, Shared.call, Shared.start]
          split <;> exact hfree
      | press | release | tick | display | takeFrame | dump => exact hfree

/-! What each act is to the console. -/

theorem plays_of_blocked (hevent : s.event? act = none) (hstep : (s.step act).1 = none)
    (hconsole : (s.step act).2.console = s.console) : s.Plays act := by
  refine ⟨?_, ?_⟩
  · rw [hevent, hconsole]
    rfl
  · rw [hevent, hstep]
    rfl

theorem plays_of_returned (call : Call) (hevent : s.event? act = some (.call call))
    (hstep : (s.step act).1 = some (call, (s.console.perform call).1))
    (hconsole : (s.step act).2.console = (s.console.perform call).2) : s.Plays act := by
  refine ⟨?_, ?_⟩
  · rw [hevent, hconsole]
    rfl
  · rw [hevent, hstep]
    rfl

theorem plays_finish {other : Shared} (hs : s.step act = other.finish errand)
    (hother : other.console = s.console) (hm : s.console.AtRest m)
    (hevent : s.event? act = (s.step act).1.map fun returned => .call returned.1) :
    s.Plays act := by
  have hperform := Errand.perform_call_of_rest hm errand
  have hfinish : (s.step act).1 = some (errand.call, (s.console.perform errand.call).1) ∧
      (s.step act).2.console = (s.console.perform errand.call).2 := by
    rw [hs, hperform, ← hother]
    exact ⟨rfl, rfl⟩
  refine plays_of_returned errand.call ?_ hfinish.1 hfinish.2
  rw [hevent, hfinish.1, Option.map_some]

theorem Lone.plays_ask (h : s.Lone) (errand : Errand) (hs : s.step act = s.ask errand)
    (hevent : s.event? act = (s.step act).1.map fun returned => .call returned.1) :
    s.Plays act := by
  cases hr : s.console.running with
  | true =>
      simp only [Shared.ask, hr, if_true] at hs
      refine plays_of_blocked ?_ (by rw [hs]) (by rw [hs])
      rw [hevent, hs, Option.map_none]
  | false =>
      obtain ⟨m, hm⟩ := h.orderly.atRest_of_idle hr
      simp only [Shared.ask, hr, Bool.false_eq_true, if_false] at hs
      exact plays_finish hs rfl hm hevent

theorem plays_run (s : Shared) : s.Plays (.call .run) := by
  obtain ⟨hreturned, hconsole⟩ := s.start_eq
  refine plays_of_returned .run ?_ hreturned hconsole
  rw [event?, Shared.call, hreturned, Option.map_some]

theorem Lone.plays (h : s.Lone) (act : Act) : s.Plays act := by
  cases act with
  | turn looked => exact ⟨rfl, rfl⟩
  | supply random => exact ⟨rfl, rfl⟩
  | wake i =>
      rcases h.wake_eq i with hwake | ⟨errand, ⟨m, hm⟩, hwake⟩
      · exact plays_of_blocked (by rw [event?, hwake, Option.map_none])
          (by rw [Shared.step, hwake]) (by rw [Shared.step, hwake])
      · exact plays_finish hwake rfl hm rfl
  | call call =>
      cases call with
      | load program => exact h.plays_ask (.load program) rfl rfl
      | reset => exact h.plays_ask .reset rfl rfl
      | halt => exact h.plays_ask .halt rfl rfl
      | wait => exact h.plays_ask .wait rfl rfl
      | run => exact plays_run s
      | press byte => exact plays_of_returned (.press byte) rfl rfl rfl
      | release byte => exact plays_of_returned (.release byte) rfl rfl rfl
      | tick => exact plays_of_returned .tick rfl rfl rfl
      | display => exact plays_of_returned .display rfl rfl rfl
      | takeFrame => exact plays_of_returned .takeFrame rfl rfl rfl
      | dump => exact plays_of_returned .dump rfl rfl rfl

/-! Whole runs. -/

theorem Lone.after (h : s.Lone) (hacts : s.alone acts) : (s.after acts).Lone := by
  induction acts generalizing s with
  | nil => exact h
  | cons act rest ih =>
      obtain ⟨hcall, hrest⟩ := alone_cons hacts
      exact ih (h.step hcall) hrest

theorem Lone.console_after (h : s.Lone) (hacts : s.alone acts) :
    (s.after acts).console = s.console.after (s.history acts) := by
  induction acts generalizing s with
  | nil => rfl
  | cons act rest ih =>
      obtain ⟨hcall, hrest⟩ := alone_cons hacts
      have hconsole := ih (h.step hcall) hrest
      rw [history, Console.after_append, ← (h.plays act).console, ← hconsole]
      rfl

theorem Lone.returned_eq (h : s.Lone) (hacts : s.alone acts) :
    s.returned acts = s.console.answers (s.history acts) := by
  induction acts generalizing s with
  | nil => rfl
  | cons act rest ih =>
      obtain ⟨hcall, hrest⟩ := alone_cons hacts
      have hplays := h.plays act
      rw [history, Console.answers_append, ← hplays.console, ← hplays.returned,
        ← ih (h.step hcall) hrest, returned]

theorem after_append (s : Shared) (first second : List Act) :
    s.after (first ++ second) = (s.after first).after second :=
  List.foldl_append

theorem alone_append (s : Shared) (first second : List Act) :
    s.alone (first ++ second) = (s.alone first && (s.after first).alone second) := by
  induction first generalizing s with
  | nil => rfl
  | cons act rest ih =>
      simp only [List.cons_append, alone, ih, Bool.and_assoc]
      rfl

theorem returned_append (s : Shared) (first second : List Act) :
    s.returned (first ++ second) = s.returned first ++ (s.after first).returned second := by
  induction first generalizing s with
  | nil => rfl
  | cons act rest ih =>
      simp only [List.cons_append, returned, ih, List.append_assoc]
      rfl

/-! The acts that bring about an event. -/

/-- The turns look at the flag. A call that the loop blocks is made, and its caller woken when the
loop has taken two turns; a wait that would go on is not made. -/
def enacted (c : Console) : Event → List Act
  | .turn _ => [.turn true]
  | .supply random => [.supply random]
  | .call call =>
      match call.errand? with
      | some errand =>
          if !c.running then [.call call]
          else if errand.cancels then [.call call, .turn true, .turn true, .wake 0]
          else []
      | none => [.call call]

def script (c : Console) : List Event → List Act
  | [] => []
  | event :: rest => enacted c event ++ script (c.handle event) rest

/-- The acts bring about the event and leave nobody blocked. -/
structure Enacts (s : Shared) (event : Event) (acts : List Act) : Prop where
  alone : s.alone acts = true
  console : (s.after acts).console = s.console.handle event
  blocked : (s.after acts).blocked = []
  returned : s.returned acts = (s.console.answer? event).toList.filter (·.2 ≠ .stillRunning)

variable {event : Event}

/-- A single act does, unless it is a wait that goes on. -/
theorem enacts_one (hfree : s.blocked = []) (hblocked : (s.step act).2.blocked = [])
    (hconsole : (s.step act).2.console = s.console.handle event)
    (hreturned : (s.step act).1 = s.console.answer? event)
    (hwait : s.console.running = true → event ≠ .call .wait) : s.Enacts event [act] := by
  refine ⟨?_, hconsole, hblocked, ?_⟩
  · simp only [alone, hfree, List.isEmpty_nil, Bool.true_or, Bool.true_and]
  · rw [returned, returned, hreturned, List.append_nil]
    cases event with
    | turn | supply => rfl
    | call call =>
        have hreply : (s.console.perform call).1 ≠ .stillRunning :=
          Console.perform_ne_stillRunning fun hr hcall => hwait hr (congrArg Event.call hcall)
        exact (Console.filter_answer hreply).symm

theorem call_errand (s : Shared) (errand : Errand) : s.call errand.call = s.ask errand := by
  cases errand <;> rfl

theorem Lone.enacts_turn (h : s.Lone) (hfree : s.blocked = []) :
    s.Enacts (.turn false) [.turn true] := by
  refine enacts_one hfree hfree ?_ rfl (fun _ => nofun)
  cases hr : s.console.running with
  | true =>
      have hcancel := h.cancel hr
      rw [hfree, List.any_nil] at hcancel
      simp only [Shared.step, Shared.turn, hcancel, Bool.and_false]
      rfl
  | false =>
      obtain ⟨m, hm⟩ := h.orderly.atRest_of_idle hr
      simp only [Shared.step, Shared.turn, Console.handle, Console.turn_of_idle hm.loop]

theorem Lone.enacts_idle (h : s.Lone) (hfree : s.blocked = []) (hr : s.console.running = false)
    (errand : Errand) : s.Enacts (.call errand.call) [.call errand.call] := by
  have hstep : s.step (.call errand.call) = _ :=
    (call_errand s errand).trans (ask_of_idle h.orderly hr errand)
  refine enacts_one hfree ?_ ?_ ?_ fun hrunning => nomatch hr.symm.trans hrunning
  · rw [hstep, hfree]
  · rw [hstep]
    rfl
  · rw [hstep]
    rfl

theorem Lone.enacts_blocked (h : s.Lone) (hfree : s.blocked = []) (hr : s.console.running = true)
    (hcancels : errand.cancels = true) :
    s.Enacts (.call errand.call) [.call errand.call, .turn true, .turn true, .wake 0] := by
  have hwake := wake_of_alone h.orderly hr hfree hcancels
  have hcall : s.step (.call errand.call) = s.ask errand := call_errand s errand
  have hblocked : (s.ask errand).1 = none := congrArg Prod.fst (ask_of_running hr errand)
  have hreply : (s.console.perform errand.call).1 ≠ .stillRunning := by
    refine Console.perform_ne_stillRunning fun _ hwait => ?_
    obtain rfl : errand = .wait := Errand.call_injective hwait
    cases hcancels
  have hafter : s.after [.call errand.call, .turn true, .turn true, .wake 0] =
      { s with console := (s.console.perform errand.call).2, cancel := true } := by
    change ((((s.step (.call errand.call)).2.turn true).turn true).wake 0).2 = _
    rw [hcall, hwake]
  refine ⟨?_, congrArg console hafter, ?_, ?_⟩
  · simp only [alone, hfree, Act.isCall, List.isEmpty_nil, Bool.not_false, Bool.or_true,
      Bool.true_or, Bool.and_true]
  · rw [hafter, hfree]
  · rw [returned, hcall, hblocked]
    change ((((s.ask errand).2.turn true).turn true).wake 0).1.toList ++ [] = _
    rw [hwake]
    exact (Console.filter_answer hreply).symm

/-- A wait that would go on is no act at all. -/
theorem enacts_waiting (hfree : s.blocked = []) (hr : s.console.running = true) :
    s.Enacts (.call .wait) [] := by
  have hperform : s.console.perform .wait = (.stillRunning, s.console) := if_pos hr
  refine ⟨rfl, ?_, hfree, ?_⟩
  · rw [Console.handle, hperform]
    rfl
  · rw [Console.answer?, hperform]
    rfl

theorem Lone.enacts_errand (h : s.Lone) (hfree : s.blocked = []) (errand : Errand) :
    s.Enacts (.call errand.call) (enacted s.console (.call errand.call)) := by
  have herrand : errand.call.errand? = some errand := by cases errand <;> rfl
  cases hr : s.console.running with
  | false =>
      simp only [enacted, herrand, hr, Bool.not_false, if_true]
      exact h.enacts_idle hfree hr errand
  | true =>
      simp only [enacted, herrand, hr, Bool.not_true, Bool.false_eq_true, if_false]
      split
      · rename_i hcancels
        exact h.enacts_blocked hfree hr hcancels
      · rename_i hwaits
        cases errand with
        | wait => exact enacts_waiting hfree hr
        | load | reset | halt => exact absurd rfl hwaits

theorem enacts_run (hfree : s.blocked = []) : s.Enacts (.call .run) [.call .run] := by
  obtain ⟨hreturned, hconsole⟩ := s.start_eq
  refine enacts_one hfree ?_ hconsole hreturned (fun _ => nofun)
  simp only [Shared.step, Shared.call, Shared.start]
  split <;> exact hfree

theorem Lone.enacts (h : s.Lone) (hfree : s.blocked = []) (hevent : event ≠ .turn true) :
    s.Enacts event (enacted s.console event) := by
  cases event with
  | supply random => exact enacts_one hfree hfree rfl rfl (fun _ => nofun)
  | turn cancelled =>
      cases cancelled with
      | true => exact absurd rfl hevent
      | false => exact h.enacts_turn hfree
  | call call =>
      cases call with
      | load program => exact h.enacts_errand hfree (.load program)
      | reset => exact h.enacts_errand hfree .reset
      | halt => exact h.enacts_errand hfree .halt
      | wait => exact h.enacts_errand hfree .wait
      | run => exact enacts_run hfree
      | press | release | tick | display | takeFrame | dump =>
          exact enacts_one hfree hfree rfl rfl (fun _ => nofun)

theorem not_overtakes_of_alone (hcall : act.isCall → s.blocked = []) : s.overtakes act = false := by
  cases act with
  | call call =>
      rw [overtakes.eq_def]
      split
      · rw [hcall rfl, List.any_nil, Bool.and_false]
      · rfl
  | wake | turn | supply => rfl

/-- A lone caller never runs the console behind the back of a blocked load or reset. -/
theorem not_overtaken_of_alone (hacts : s.alone acts) : s.overtaken acts = false := by
  induction acts generalizing s with
  | nil => rfl
  | cons act rest ih =>
      obtain ⟨hcall, hrest⟩ := alone_cons hacts
      rw [overtaken, not_overtakes_of_alone hcall, ih hrest, Bool.or_self]

/-- A lone caller plays a history whose turns are not cancelled. -/
theorem Lone.plays_script {events : List Event} (h : s.Lone) (hfree : s.blocked = [])
    (hevents : .turn true ∉ events) :
    s.alone (script s.console events) ∧ (s.after (script s.console events)).blocked = [] ∧
      (s.after (script s.console events)).console = s.console.after events ∧
        s.returned (script s.console events) =
          (s.console.answers events).filter (·.2 ≠ .stillRunning) := by
  induction events generalizing s with
  | nil => exact ⟨rfl, hfree, rfl, rfl⟩
  | cons event rest ih =>
      rw [List.mem_cons, not_or] at hevents
      have henacts := h.enacts hfree (Ne.symm hevents.1)
      have hnext := ih (h.after henacts.alone) henacts.blocked hevents.2
      rw [henacts.console] at hnext
      obtain ⟨halone, hblocked, hconsole, hreturned⟩ := hnext
      refine ⟨?_, ?_, ?_, ?_⟩
      · rw [script, alone_append, henacts.alone, halone, Bool.and_self]
      · rw [script, after_append, hblocked]
      · rw [script, after_append, hconsole]
        rfl
      · rw [script, returned_append, henacts.returned, hreturned, ← List.filter_append]
        rfl

/-- Whatever a lone caller does, the console goes through the history of the calls that return,
which get the replies that they get there, and while it runs the flag is set just if the caller is
blocked with a call that stops the loop. And the caller can go through every history whose turns are
not cancelled, but for the waits that would go on. -/
theorem lone_caller_has_history :
    (∀ acts, new.alone acts →
      (new.after acts).console = Console.new.after (new.history acts) ∧
        new.returned acts = Console.new.answers (new.history acts) ∧
          ((new.after acts).console.running →
            (new.after acts).cancel = (new.after acts).blocked.any (·.errand.cancels))) ∧
      ∀ events, .turn true ∉ events →
        new.alone (script .new events) ∧ (new.after (script .new events)).blocked = [] ∧
          (new.after (script .new events)).console = Console.new.after events ∧
            new.returned (script .new events) =
              (Console.new.answers events).filter (·.2 ≠ .stillRunning) :=
  ⟨fun _ hacts => ⟨lone_new.console_after hacts, lone_new.returned_eq hacts,
    (lone_new.after hacts).cancel⟩, fun _ hevents => lone_new.plays_script rfl hevents⟩

end Shared
end ChipEight
