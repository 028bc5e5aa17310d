import ChipEight.Proofs.Console.States

/-!
Halting and starting again is transparent. A run that was split by pauses, between instructions or
inside a key wait, produces the machines of a run without pauses, on the same touches and with the
turns of the cancelled waits left out, and ends at the same console, whatever was touched during the
pauses.

The run without pauses comes to each key wait only when the wait is to be answered. So where the run
with pauses is parked in a wait that will be cancelled, the other one has not parked yet; at all
other times the two consoles are equal.
-/

namespace ChipEight.Console

open Devices (Touch)

/-- What happens while nobody halts the loop. -/
inductive Beat where
  | turn
  | touch (event : Touch)
  deriving DecidableEq

inductive Move where
  | beat (b : Beat)
  /-- A halt, touches of the resting console, and a run. -/
  | pause (meanwhile : List Touch)

def Beat.event : Beat → Event
  | .turn => .turn false
  | .touch event => touchEvent event

def Beat.touch? : Beat → Option Touch
  | .turn => none
  | .touch event => some event

def Move.touches : Move → List Touch
  | .beat b => b.touch?.toList
  | .pause meanwhile => meanwhile

def pause (meanwhile : List Touch) : List Event :=
  .call .halt :: meanwhile.map touchEvent ++ [.call .run]

/-- A pause that comes after the run has ended is none: it only touches. -/
def Move.events (c : Console) : Move → List Event
  | .beat b => [b.event]
  | .pause meanwhile => if c.running then Console.pause meanwhile else meanwhile.map touchEvent

/-- The events of a run that is split by pauses. -/
def history (c : Console) : List Move → List Event
  | [] => []
  | move :: rest => move.events c ++ (c.after (move.events c)).history rest

/-- The presses that the loop is parked with, if it is parked. -/
def parked? (c : Console) : Option UInt64 := c.loop.bind Loop.parked

/-- The loop is parked and no key has been pressed since. -/
def keyless (c : Console) : Bool := c.parked? = some c.devices.keypad.presses

/-- The loop is parked and will find a key. -/
def keyed (c : Console) : Bool := c.parked?.isSome && !c.keyless

/-- The loop is parked in a wait that a pause will cancel. -/
def willCancel (c : Console) : List Move → Bool
  | [] => false
  | .beat .turn :: rest => c.keyless && c.willCancel rest
  | .beat (.touch event) :: rest => (c.touch event).willCancel rest
  | .pause _ :: _ => c.keyless

/-- What is left of a halt when the run is not paused: the turn that takes a key. -/
def haltBeats (c : Console) : List Beat := if c.keyed then [.turn] else []

/-- What is left of a move when the run is not paused: a turn that would park the loop, or leave it
parked, in a wait to be cancelled is left out. -/
def beats (c : Console) (rest : List Move) : Move → List Beat
  | .beat .turn => if (c.turn false).willCancel rest then [] else [.turn]
  | .beat (.touch event) => [.touch event]
  | .pause meanwhile => c.haltBeats ++ meanwhile.map .touch

/-- The run without pauses. -/
def unbroken (c : Console) : List Move → List Beat
  | [] => []
  | move :: rest => c.beats rest move ++ (c.after (move.events c)).unbroken rest

variable {c : Console} {l : Loop} {m : Machine} {before : UInt64} {rest : List Move}

theorem map_event_touches (events : List Touch) :
    (events.map Beat.touch).map Beat.event = events.map touchEvent := by
  rw [List.map_map]
  rfl

theorem filterMap_touch_touches (events : List Touch) :
    (events.map Beat.touch).filterMap Beat.touch? = events := by
  rw [List.filterMap_map]
  exact List.filterMap_some

theorem touches_beats (c : Console) (rest : List Move) (move : Move) :
    (c.beats rest move).filterMap Beat.touch? = move.touches := by
  cases move with
  | beat beat =>
      cases beat with
      | turn =>
          simp only [beats]
          split <;> rfl
      | touch event => rfl
  | pause meanwhile =>
      have hhalt : c.haltBeats.filterMap Beat.touch? = [] := by
        simp only [haltBeats]
        split <;> rfl
      rw [beats, List.filterMap_append, filterMap_touch_touches, hhalt]
      rfl

/-- The run without pauses is touched as the other one is, in the same order. -/
theorem touches_unbroken (c : Console) (moves : List Move) :
    (c.unbroken moves).filterMap Beat.touch? = moves.flatMap Move.touches := by
  induction moves generalizing c with
  | nil => rfl
  | cons move rest ih =>
      rw [unbroken, List.filterMap_append, touches_beats, ih, List.flatMap_cons]

/-! Being parked. -/

theorem AtRest.parked? (h : c.AtRest m) : c.parked? = none := by
  rw [Console.parked?, h.loop, Option.bind_none]

theorem AtWork.parked? (h : c.AtWork l) : c.parked? = l.parked := by
  rw [Console.parked?, h.loop, Option.bind_some]

theorem willCancel_of_unparked (hp : c.parked? = none) (moves : List Move) :
    c.willCancel moves = false := by
  have hk : c.keyless = false := by simp [keyless, hp]
  induction moves generalizing c with
  | nil => rfl
  | cons move rest ih =>
      cases move with
      | beat beat =>
          cases beat with
          | turn => rw [willCancel, hk, Bool.false_and]
          | touch event =>
              have hp' : (c.touch event).parked? = none := hp
              exact ih hp' (by simp [keyless, hp'])
      | pause meanwhile => exact hk

theorem AtWork.keyless_iff (h : c.AtWork l) (hp : l.parked = some before) :
    c.keyless = true ↔ c.devices.keypad.presses = before := by
  rw [keyless, h.parked?, hp, decide_eq_true_iff, Option.some.injEq, eq_comm]

/-! The console of the run without pauses. -/

/-- The console with its loop not parked yet. -/
def calm (c : Console) : Console :=
  match c.loop with
  | some l => c.awake l.machine
  | none => c

/-- Where the run without pauses is when the other one is at `c` with these moves to come. -/
def lead (c : Console) (moves : List Move) : Console :=
  if c.willCancel moves then c.calm else c

theorem lead_of_willCancel {moves : List Move} (hc : c.willCancel moves = true) :
    c.lead moves = c.calm := if_pos hc

theorem lead_of_not_willCancel {moves : List Move} (hc : c.willCancel moves = false) :
    c.lead moves = c := if_neg (Bool.eq_false_iff.mp hc)

theorem lead_of_unparked (hp : c.parked? = none) (moves : List Move) : c.lead moves = c :=
  lead_of_not_willCancel (willCancel_of_unparked hp moves)

theorem AtWork.calm_eq (h : c.AtWork l) : c.calm = c.awake l.machine := by
  simp only [calm, h.loop]

theorem AtWork.awake_of_unparked (h : c.AtWork l) (hp : l.parked = none) :
    c.awake l.machine = c := by
  have hwaiting := h.waiting_of_unparked hp
  have hloop : c.loop = some (.ofMachine l.machine) := by
    rw [h.loop, Loop.ofMachine, ← hp]
  rw [Console.awake, ← hloop, Keypad.endWait, ← hwaiting]

theorem calm_touch (c : Console) (event : Touch) : (c.touch event).calm = c.calm.touch event := by
  cases hl : c.loop with
  | none => simp only [calm, touch, hl]
  | some l => simp only [calm, touch, hl, awake, Keypad.endWait, Devices.touch_mark]

theorem lead_touch (c : Console) (event : Touch) (rest : List Move) :
    (c.lead (.beat (.touch event) :: rest)).touch event = (c.touch event).lead rest := by
  have hsame : c.willCancel (.beat (.touch event) :: rest) = (c.touch event).willCancel rest := rfl
  cases hc : (c.touch event).willCancel rest with
  | true => rw [lead_of_willCancel hc, lead_of_willCancel (hsame.trans hc), calm_touch]
  | false => rw [lead_of_not_willCancel hc, lead_of_not_willCancel (hsame.trans hc)]

/-! Turns. -/

theorem AtWork.turn_of_keyless (h : c.AtWork l) (hk : c.keyless = true) : c.turn false = c := by
  cases hp : l.parked with
  | none => simp [keyless, h.parked?, hp] at hk
  | some before =>
      exact h.turn_of_no_answer hp (Keypad.answer?_eq_none_iff.mpr ((h.keyless_iff hp).mp hk))

/-- A turn that ends in a wait has found no key there, or has just come to it. -/
theorem Orderly.exists_of_parked_turn (h : c.Orderly) (hparked : (c.turn false).parked? ≠ none) :
    ∃ l, c.AtWork l ∧
      ((∃ before, l.parked = some before ∧ c.devices.keypad.answer? before false = none) ∨
        l.parked = none ∧ Loop.awaitsKey l.machine) := by
  rcases h with ⟨m, h⟩ | ⟨l, h⟩
  · rw [turn_of_idle h.loop] at hparked
    exact absurd h.parked? hparked
  · refine ⟨l, h, ?_⟩
    cases hp : l.parked with
    | some before =>
        refine .inl ⟨before, rfl, ?_⟩
        cases ha : c.devices.keypad.answer? before false with
        | none => rfl
        | some answer =>
            obtain ⟨m, hturn, _⟩ := h.turn_of_answer hp ha
            rw [hturn] at hparked
            exact absurd (h.awake m).parked? hparked
    | none =>
        refine .inr ⟨rfl, ?_⟩
        by_contra hw
        rcases h.turn_of_step hp hw with ⟨m, hwork⟩ | hrest
        · exact hparked hwork.parked?
        · exact hparked hrest.parked?

/-- A turn that leaves the loop in a wait to be cancelled produces nothing, and the run without
pauses is there already. -/
theorem Orderly.lead_turn_of_willCancel (h : c.Orderly)
    (hc : (c.turn false).willCancel rest = true) :
    c.lead (.beat .turn :: rest) = (c.turn false).calm ∧ c.produced false = [] := by
  have hparked : (c.turn false).parked? ≠ none := by
    intro hnone
    rw [willCancel_of_unparked hnone] at hc
    cases hc
  obtain ⟨l, h, ⟨before, hp, ha⟩ | ⟨hp, hw⟩⟩ := h.exists_of_parked_turn hparked
  · have hk : c.keyless = true := (h.keyless_iff hp).mpr (Keypad.answer?_eq_none_iff.mp ha)
    rw [h.turn_of_no_answer hp ha] at hc ⊢
    refine ⟨lead_of_willCancel ?_, ?_⟩
    · rw [willCancel, hk, hc, Bool.and_self]
    · rw [produced_of_loop h.loop, Loop.produced_of_no_answer hp ha]
  · refine ⟨?_, ?_⟩
    · rw [lead_of_unparked (h.parked?.trans hp), (h.parks_of_awaitsKey hp hw).calm_eq,
        h.turn_of_awaitsKey hp hw]
      exact (h.awake_of_unparked hp).symm
    · rw [produced_of_loop h.loop, Loop.produced_of_awaitsKey hp hw]

/-- Any other turn is a turn of both runs. -/
theorem Orderly.lead_turn_of_not_willCancel (h : c.Orderly)
    (hc : (c.turn false).willCancel rest = false) : c.lead (.beat .turn :: rest) = c := by
  apply lead_of_not_willCancel
  rw [willCancel]
  cases hk : c.keyless with
  | false => rfl
  | true =>
      rcases h with ⟨m, h⟩ | ⟨l, h⟩
      · simp [keyless, h.parked?] at hk
      · rwa [h.turn_of_keyless hk] at hc

/-! Pauses. -/

theorem AtWork.start_handBack (h : c.AtWork (.ofMachine m)) :
    (c.handBack m none).start = (.ok (), c) := by
  rw [(h.handBack rfl m none nofun).start_of_loaded h.loaded]
  simp only [Console.handBack]
  rw [← h.resting, ← h.loop, ← h.trap, ← h.running]

/-- Once it is stopped, a console that goes on is one that was touched. -/
theorem after_pause {c' : Console} (h : c'.AtWork (.ofMachine m))
    (hstop : c.stop = c'.handBack m none) (meanwhile : List Touch) :
    c.after (pause meanwhile) = c'.touches meanwhile := by
  have hhalt : c.handle (.call .halt) = c'.handBack m none := by
    change c.stop.collect.2 = _
    rw [hstop]
    rfl
  change (c.handle (.call .halt)).after (meanwhile.map touchEvent ++ [.call .run]) = _
  rw [hhalt, after_append, after_touches]
  exact congrArg Prod.snd (h.touches meanwhile).start_handBack

theorem states_pause (c : Console) (meanwhile : List Touch) :
    c.states (pause meanwhile) = c.statesOf (.call .halt) := by
  change c.statesOf _ ++ (c.handle _).states (_ ++ [.call .run]) = _
  rw [states_append, states_touches]
  exact List.append_nil _

/-- At a halt that stops `c` both runs come to `c'`: one has its machine back from there, the other
goes on from there after what is left of the halt. -/
structure MeetsAtHalt (c : Console) (moves : List Move) (c' : Console) (m : Machine) : Prop where
  work : c'.AtWork (.ofMachine m)
  stop : c.stop = c'.handBack m none
  after : (c.lead moves).after (c.haltBeats.map Beat.event) = c'
  states : (c.lead moves).states (c.haltBeats.map Beat.event) = c.statesOf (.call .halt)

variable {meanwhile : List Touch}

theorem AtWork.meetsAtHalt_of_unparked (h : c.AtWork l) (hp : l.parked = none) :
    MeetsAtHalt c (.pause meanwhile :: rest) c l.machine := by
  have hunparked := h.parked?.trans hp
  have hbeats : c.haltBeats = [] := by simp [haltBeats, keyed, hunparked]
  have hidle : (c.turn true).loop = none := by
    rw [h.turn_of_cancelled hp]
    rfl
  refine ⟨h.awake_of_unparked hp ▸ h.awake l.machine, h.stop_of_unparked hp, ?_, ?_⟩
  · rw [hbeats, lead_of_unparked hunparked]
    rfl
  · rw [hbeats, statesOf, produced_of_loop h.loop, Loop.produced_of_cancelled hp,
      produced_of_idle hidle]
    rfl

theorem AtWork.statesOf_halt_of_awake (h : c.AtWork l) (hturn : c.turn true = c.awake m) :
    c.statesOf (.call .halt) = c.produced true := by
  rw [statesOf, hturn, produced_of_loop (h.awake m).loop, Loop.produced_of_cancelled rfl,
    List.append_nil]

theorem AtWork.meetsAtHalt_of_keyless (h : c.AtWork l) (hp : l.parked = some before)
    (hk : c.keyless = true) :
    MeetsAtHalt c (.pause meanwhile :: rest) (c.awake l.machine) l.machine := by
  have hgone : c.devices.keypad.answer? before true = some none :=
    Keypad.answer?_of_not_pressed ((h.keyless_iff hp).mp hk) true
  have hbeats : c.haltBeats = [] := by simp [haltBeats, keyed, hk]
  obtain ⟨m, hturn, hm⟩ := h.turn_of_answer hp hgone
  obtain rfl := hm rfl
  have hlead : c.lead (.pause meanwhile :: rest) = c.calm := lead_of_willCancel hk
  refine ⟨h.awake _, h.stop_of_awake hturn, ?_, ?_⟩
  · rw [hbeats, hlead, h.calm_eq]
    rfl
  · rw [hbeats, h.statesOf_halt_of_awake hturn, produced_of_loop h.loop,
      Loop.produced_of_gives_up hp hgone]
    rfl

theorem AtWork.meetsAtHalt_of_keyed (h : c.AtWork l) (hp : l.parked = some before)
    (hk : c.keyless = false) :
    ∃ m, MeetsAtHalt c (.pause meanwhile :: rest) (c.awake m) m := by
  have hpress : c.devices.keypad.presses ≠ before :=
    mt (h.keyless_iff hp).mpr (Bool.eq_false_iff.mp hk)
  have hbeats : c.haltBeats = [.turn] := by simp [haltBeats, keyed, hk, h.parked?, hp]
  have hsame : c.turn false = c.turn true := by
    simp only [Console.turn, h.loop, Loop.turn_of_key hp hpress]
  obtain ⟨m, hturn, _⟩ := h.turn_of_answer hp (Keypad.answer?_of_pressed hpress true)
  have hlead : c.lead (.pause meanwhile :: rest) = c := lead_of_not_willCancel hk
  refine ⟨m, h.awake m, h.stop_of_awake hturn, ?_, ?_⟩
  · rw [hbeats, hlead]
    exact hsame.trans hturn
  · rw [hbeats, hlead, h.statesOf_halt_of_awake hturn, produced_of_loop h.loop,
      Loop.produced_of_key hp hpress, ← produced_of_loop h.loop]
    exact List.append_nil _

theorem AtWork.exists_meetsAtHalt (h : c.AtWork l) (meanwhile : List Touch) (rest : List Move) :
    ∃ c' m, MeetsAtHalt c (.pause meanwhile :: rest) c' m := by
  cases hp : l.parked with
  | none => exact ⟨_, _, h.meetsAtHalt_of_unparked hp⟩
  | some before =>
      cases hk : c.keyless with
      | true => exact ⟨_, _, h.meetsAtHalt_of_keyless hp hk⟩
      | false =>
          obtain ⟨m, hmeets⟩ := h.meetsAtHalt_of_keyed hp hk
          exact ⟨_, m, hmeets⟩

/-! Whole runs. -/

/-- By a move the two runs stay together and produce the same machines. -/
structure Together (c : Console) (move : Move) (rest : List Move) : Prop where
  after : (c.lead (move :: rest)).after ((c.beats rest move).map Beat.event) =
    (c.after (move.events c)).lead rest
  states : (c.lead (move :: rest)).states ((c.beats rest move).map Beat.event) =
    c.states (move.events c)

theorem Orderly.together_turn (h : c.Orderly) (rest : List Move) :
    Together c (.beat .turn) rest := by
  cases hc : (c.turn false).willCancel rest with
  | true =>
      obtain ⟨hlead, hproduced⟩ := h.lead_turn_of_willCancel hc
      have hbeats : c.beats rest (.beat .turn) = [] := if_pos hc
      refine ⟨?_, ?_⟩
      · rw [hbeats, hlead]
        exact (lead_of_willCancel hc).symm
      · rw [hbeats]
        exact ((List.append_nil _).trans hproduced).symm
  | false =>
      have hbeats : c.beats rest (.beat .turn) = [.turn] := if_neg (Bool.eq_false_iff.mp hc)
      have hlead := h.lead_turn_of_not_willCancel hc
      refine ⟨?_, ?_⟩
      · rw [hbeats, hlead]
        exact (lead_of_not_willCancel hc).symm
      · rw [hbeats, hlead]
        rfl

theorem together_touch (c : Console) (event : Touch) (rest : List Move) :
    Together c (.beat (.touch event)) rest := by
  refine ⟨?_, (states_touches _ [event]).trans (states_touches c [event]).symm⟩
  have htouch := lead_touch c event rest
  rw [← handle_touchEvent, ← handle_touchEvent] at htouch
  exact htouch

theorem AtRest.together_pause (h : c.AtRest m) (meanwhile : List Touch) (rest : List Move) :
    Together c (.pause meanwhile) rest := by
  have hevents : Move.events c (.pause meanwhile) = meanwhile.map touchEvent :=
    if_neg (Bool.eq_false_iff.mp h.running)
  have hbeats : c.beats rest (.pause meanwhile) = meanwhile.map .touch := by
    simp [beats, haltBeats, keyed, h.parked?]
  refine ⟨?_, ?_⟩
  · rw [hevents, hbeats, map_event_touches, lead_of_unparked h.parked?, after_touches,
      lead_of_unparked (h.touches meanwhile).parked?]
  · rw [hevents, hbeats, map_event_touches, states_touches, states_touches]

theorem AtWork.together_pause (h : c.AtWork l) (meanwhile : List Touch) (rest : List Move) :
    Together c (.pause meanwhile) rest := by
  obtain ⟨c', m, hmeets⟩ := h.exists_meetsAtHalt meanwhile rest
  have hevents : Move.events c (.pause meanwhile) = pause meanwhile := if_pos h.running
  have hunparked := (hmeets.work.touches meanwhile).parked?
  refine ⟨?_, ?_⟩
  · rw [hevents, beats, List.map_append, map_event_touches, after_append, hmeets.after,
      after_touches, after_pause hmeets.work hmeets.stop, lead_of_unparked hunparked]
  · rw [hevents, beats, List.map_append, map_event_touches, states_append, hmeets.states,
      states_touches, List.append_nil, states_pause]

theorem Orderly.together (h : c.Orderly) (move : Move) (rest : List Move) :
    Together c move rest := by
  cases move with
  | beat b =>
      cases b with
      | turn => exact h.together_turn rest
      | touch event => exact together_touch c event rest
  | pause meanwhile =>
      rcases h with ⟨m, h⟩ | ⟨l, h⟩
      · exact h.together_pause meanwhile rest
      · exact h.together_pause meanwhile rest

theorem Orderly.lead_history (h : c.Orderly) (moves : List Move) :
    (c.lead moves).after ((c.unbroken moves).map Beat.event) = c.after (c.history moves) ∧
      (c.lead moves).states ((c.unbroken moves).map Beat.event) = c.states (c.history moves) := by
  induction moves generalizing c with
  | nil => exact ⟨rfl, rfl⟩
  | cons move rest ih =>
      obtain ⟨hafter, hstates⟩ := h.together move rest
      obtain ⟨hrest, hrestStates⟩ := ih (h.after (move.events c))
      rw [unbroken, history, List.map_append]
      refine ⟨?_, ?_⟩
      · rw [after_append, after_append, hafter, hrest]
      · rw [states_append, states_append, hafter, hstates, hrestStates]

/-- A cancelled key wait is a step to the machine that waits. So a program that is paused, at any
moments and with any touches meanwhile, produces the machines of a run that is never paused, touched
as it was, and ends at the same console: the same machine, devices and trap. -/
theorem pauses_are_transparent (h : c.Reachable) (hl : c.loop = some (.ofMachine m))
    (moves : List Move) :
    (∀ (waiting : Machine) (x : Register) (d : Devices), waiting.next = .ok (.awaitKey x) →
        d.feed.takeAnswer.1 = none →
          waiting.step d = (.ok waiting, { d with feed := d.feed.takeAnswer.2 })) ∧
      c.states ((c.unbroken moves).map Beat.event) = c.states (c.history moves) ∧
      c.after ((c.unbroken moves).map Beat.event) = c.after (c.history moves) ∧
      (c.unbroken moves).filterMap Beat.touch? = moves.flatMap Move.touches := by
  have hunparked : c.parked? = none := by
    rw [Console.parked?, hl]
    rfl
  obtain ⟨hafter, hstates⟩ := h.orderly.lead_history moves
  rw [lead_of_unparked hunparked] at hafter hstates
  refine ⟨?_, hstates, hafter, touches_unbroken c moves⟩
  intro waiting x d hwaiting hnone
  rw [Machine.step_awaitKey hwaiting, hnone]
  rfl

/-- A program that waits for a key. The wait is cancelled once, and a press ends it afterwards. -/
theorem pauses_are_transparent_in_key_wait :
    let started := (new.handle (.call (.load [0xF3, 0x0A]))).handle (.call .run)
    let moves : List Move :=
      [.beat .turn, .pause [.tick], .beat .turn, .beat (.touch (.press 7)), .beat .turn]
    let whole : List Beat := [.touch .tick, .turn, .touch (.press 7), .turn]
    started.Reachable ∧ started.loop = some (.ofMachine (Machine.load [0xF3, 0x0A]).2) ∧
      started.unbroken moves = whole ∧
      (started.states (started.history moves)).map (fun m => (m.pc, m.register 3)) =
        [(0x202, 7)] ∧
      started.after (whole.map Beat.event) = started.after (started.history moves) := by
  intro started moves whole
  have hreach : started.Reachable := .event _ (.event _ .new)
  have hloop : started.loop = some (.ofMachine (Machine.load [0xF3, 0x0A]).2) := rfl
  have hwhole : started.unbroken moves = whole := by decide +kernel
  obtain ⟨_, hstates, hafter, _⟩ := pauses_are_transparent hreach hloop moves
  refine ⟨hreach, hloop, hwhole, ?_, ?_⟩
  · rw [← hstates, hwhole]
    decide +kernel
  · rw [← hwhole]
    exact hafter

end ChipEight.Console
