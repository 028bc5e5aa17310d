import ChipEight.Proofs.Console.Cancellation
import ChipEight.Proofs.Console.History
import ChipEight.Proofs.Keypad.FreshPress

/-!
What threads do in pieces comes to what callers do at one moment. A stop counts from the moment it
sets the flag, a start from the moment it takes the flag back, and a movement of the loop's thread
counts as a turn when it finishes an instruction, parks, or hands the machine back. Every other piece
changes nothing that anybody sees.
-/

namespace ChipEight

namespace Console

theorem unparked_of_start {c : Console} {l : Loop} (h : c.start.1 = .ok ())
    (hl : c.start.2.loop = some l) : l.parked = none := by
  obtain ⟨resting, loop, trap, loaded, running, devices⟩ := c
  cases running with
  | true => cases h
  | false =>
      cases loaded with
      | false => cases h
      | true =>
          cases resting with
          | none => cases h
          | some m =>
              cases hl
              rfl

end Console

namespace Place

/-- The thread is where the loop itself says that it is. -/
def Suits (l : Loop) (pad : Keypad) (cancelled : Bool) : Place → Prop
  | .checking | .ready => l.parked = none
  | .waiting (.looking before) | .waiting (.parking before) =>
      Loop.awaitsKey l.machine ∧ l.parked = some before ∧ pad.presses = before
  | .waiting (.parked before _) => Loop.awaitsKey l.machine ∧ l.parked = some before
  | .waiting (.returned _) => False
  | .leaving none => l.parked = none ∧ cancelled
  | .leaving (some trap) =>
      l.parked = none ∧ trap.address = l.machine.pc ∧ ∀ d, l.machine.step d = (.error trap.fault, d)

variable {place : Place} {l : Loop} {pad : Keypad} {cancelled : Bool} {event : Keypad.Event}

theorem Suits.cancel (h : place.Suits l pad cancelled) : place.Suits l pad true := by
  cases place with
  | leaving trap =>
      cases trap with
      | none => exact ⟨h.1, rfl⟩
      | some trap => exact h
  | checking | ready => exact h
  | waiting waiter => cases waiter <;> exact h

theorem Suits.deliver (h : place.Suits l pad cancelled)
    (hfree : event.takesKeypad → place.hasKeypad = false) :
    (place.hear event).Suits l (pad.deliver event).2 cancelled := by
  cases place with
  | checking | ready => exact h
  | leaving trap => cases trap <;> exact h
  | waiting waiter =>
      simp only [hear, Keypad.Waiter.hear]
      cases waiter with
      | looking before | parking before =>
          have hkept : event.takesKeypad = false := by
            by_contra htakes
            cases hfree (by simpa using htakes)
          have hsame : (pad.deliver event).2.presses = pad.presses :=
            (Keypad.deliver_of_not_pressed (Keypad.pressed_of_not_takesKeypad hkept)).2
          split <;> exact ⟨h.1, h.2.1, hsame.trans h.2.2⟩
      | parked before notified => split <;> exact h
      | returned key => exact h.elim

end Place

namespace Threads

variable {s next : Threads} {act : Act} {errand : Errand} {event : Keypad.Event} {l : Loop}

def Placed (s : Threads) : Prop :=
  ∀ l, s.shared.console.loop = some l →
    s.place.Suits l s.shared.console.devices.keypad s.cancelled

theorem placed_new : new.Placed := nofun

theorem Placed.calm (h : s.Placed) (hc : Calm s next) : next.Placed := by
  intro l hl
  rw [hc.place, hc.keypad, hc.cancelled]
  exact h l (hc.loop ▸ hl)

theorem Placed.deliver (h : s.Placed) (hs : s.deliver event = some next) : next.Placed := by
  obtain ⟨rfl, hfree⟩ := deliver_eq hs
  intro l hl
  exact (h l hl).deliver hfree

theorem Placed.proceed (h : s.Placed) (hg : s.Guarded) (hs : s.proceed = some next) :
    next.Placed := by
  obtain ⟨piece, hp⟩ := exists_holder_of_proceed hs
  have hfits := hg.holder piece hp
  cases piece with
  | cancel errand =>
      rw [proceed_of_cancel hp] at hs
      cases hs
      exact fun l hl => (h l hl).cancel
  | interrupt errand =>
      rw [proceed_of_interrupt hp] at hs
      obtain ⟨heard, hheard, rfl⟩ := Option.map_eq_some_iff.mp hs
      exact fun l hl => h.deliver hheard l hl
  | block errand =>
      rw [proceed_of_block hp hfits.2.1] at hs
      cases hs
      exact h
  | clear =>
      rw [proceed_of_clear hp] at hs
      cases hs
      intro l hl
      cases (hg.loop hl).symm.trans (Console.not_running_of_start hfits)
  | launch =>
      rw [proceed_of_launch hp] at hs
      cases hs
      exact fun l hl => Console.unparked_of_start hfits.1 hl

/-! A movement of the loop's thread is a turn, or nothing. -/

/-- The thread is again where the loop says that it is, and everything shared is as it was, or as a
turn leaves it. -/
structure Turns (s next : Threads) : Prop where
  placed : next.Placed
  holder : next.holder = s.holder
  shared : next.shared = s.shared ∨ ∃ looked, next.shared = s.shared.turn looked

theorem turns_of_goOn {loop : Loop} {devices : Devices} (looked : Bool)
    (hl : s.shared.console.loop = some l)
    (hturn : l.turn (looked && s.shared.cancel) s.shared.console.devices = (.goOn loop, devices))
    (hparked : loop.parked = none) : Turns s (s.settle (.goOn loop, devices)) := by
  refine ⟨?_, rfl, .inr ⟨looked, ?_⟩⟩
  · rintro _ ⟨⟩
    exact hparked
  · simp only [settle, Shared.turn, Console.turn_of_goOn hl hturn]

/-- A fault changes nothing before the machine is handed back. -/
theorem turns_of_step (hl : s.shared.console.loop = some l) (hparked : l.parked = none)
    (hawaits : ¬ Loop.awaitsKey l.machine) :
    Turns s (s.settle (l.step s.shared.console.devices)) := by
  cases hstep : l.step s.shared.console.devices with
  | mk turn devices =>
      cases turn with
      | goOn loop =>
          obtain ⟨m, _, rfl⟩ := Loop.step_goOn hstep
          apply turns_of_goOn false hl _ rfl
          rw [Bool.false_and, Loop.turn_of_unparked hparked, if_neg hawaits, hstep]
      | stop m trap =>
          obtain ⟨f, hf, rfl, rfl⟩ := Loop.step_stop hstep
          have hfault := Machine.step_eq_of_error (congrArg Prod.fst hf)
          obtain rfl : devices = s.shared.console.devices :=
            congrArg Prod.snd (hf.symm.trans (hfault _))
          refine ⟨?_, rfl, .inl rfl⟩
          intro l' hl'
          obtain rfl := Option.some.inj (hl.symm.trans hl')
          exact ⟨hparked, rfl, hfault⟩

theorem turns_of_wake {answer : Option Key} (looked : Bool) (hl : s.shared.console.loop = some l)
    (hawaits : Loop.awaitsKey l.machine)
    (hturn : l.turn (looked && s.shared.cancel) s.shared.console.devices =
      l.wake answer s.shared.console.devices) :
    Turns s (s.settle (l.wake answer s.shared.console.devices)) := by
  obtain ⟨x, hx⟩ := Loop.exists_awaitKey hawaits
  rw [Loop.wake_eq hx] at hturn ⊢
  exact turns_of_goOn looked hl hturn rfl

theorem turns_of_advance {waiter : Keypad.Waiter} (hl : s.shared.console.loop = some l)
    (hsuits : (Place.waiting waiter).Suits l s.shared.console.devices.keypad s.cancelled) :
    Turns s (s.advance l waiter) := by
  have hstay : ∀ moved : Keypad.Waiter,
      (Place.waiting moved).Suits l s.shared.console.devices.keypad s.cancelled →
        Turns s { s with place := .waiting moved } := by
    intro moved hmoved
    refine ⟨?_, rfl, .inl rfl⟩
    intro l' hl'
    obtain rfl := Option.some.inj (hl.symm.trans hl')
    exact hmoved
  cases waiter with
  | looking before =>
      obtain ⟨hawaits, hparked, hsame⟩ := hsuits
      cases hcancel : s.shared.cancel with
      | true =>
          simp only [advance, Keypad.Waiter.advance, hcancel, if_true]
          apply turns_of_wake true hl hawaits
          rw [hcancel, Loop.turn_of_parked hparked, Keypad.answer?_of_not_pressed hsame]
          rfl
      | false =>
          simp only [advance, Keypad.Waiter.advance, if_neg (Bool.eq_false_iff.mp hcancel)]
          exact hstay (.parking before) ⟨hawaits, hparked, hsame⟩
  | parking before => exact hstay (.parked before false) ⟨hsuits.1, hsuits.2.1⟩
  | parked before notified =>
      obtain ⟨hawaits, hparked⟩ := hsuits
      by_cases hpressed : s.shared.console.devices.keypad.presses = before
      · simp only [advance, Keypad.Waiter.advance, hpressed, if_true]
        exact hstay (.looking before) ⟨hawaits, hparked, hpressed⟩
      · simp only [advance, Keypad.Waiter.advance, hpressed, if_false]
        apply turns_of_wake false hl hawaits
        rw [Loop.turn_of_parked hparked, Keypad.answer?_of_pressed hpressed]
  | returned key => exact hsuits.elim

/-- The turn that stops the loop is the one that hands the machine back. -/
theorem turns_of_leave {trap : Option Trap} (hl : s.shared.console.loop = some l)
    (hsuits : (Place.leaving trap).Suits l s.shared.console.devices.keypad s.cancelled) :
    Turns s { s with shared.console := s.shared.console.handBack l.machine trap } := by
  have hstop : ∃ looked, l.turn (looked && s.shared.cancel) s.shared.console.devices =
      (.stop l.machine trap, s.shared.console.devices) := by
    cases trap with
    | none =>
        obtain ⟨hparked, hcancelled⟩ := hsuits
        have hcancel : s.shared.cancel = true := hcancelled
        exact ⟨true, by rw [hcancel, Bool.and_self, Loop.turn_of_cancelled hparked]⟩
    | some trap =>
        obtain ⟨address, fault⟩ := trap
        obtain ⟨hparked, rfl, hfault⟩ := hsuits
        have hparks : l.ParksAtWaits := fun h => absurd hparked h
        exact ⟨false, by rw [Bool.false_and, hparks.turn_of_fault hfault]⟩
  obtain ⟨looked, hturn⟩ := hstop
  refine ⟨?_, rfl, .inr ⟨looked, ?_⟩⟩
  · intro l' hl'
    cases hl'
  · simp only [Shared.turn, Console.turn_of_stop hl hturn]

theorem turns_of_move (hl : s.shared.console.loop = some l) (hplaced : s.Placed)
    (hs : s.move l = some next) : Turns s next := by
  have hsuits := hplaced l hl
  simp only [move] at hs
  split at hs
  · rename_i hplace
    rw [hplace] at hsuits
    cases hs
    refine ⟨?_, rfl, .inl rfl⟩
    intro l' hl'
    obtain rfl := Option.some.inj (hl.symm.trans hl')
    cases hcancel : s.shared.cancel with
    | true => exact ⟨hsuits, hcancel⟩
    | false => exact hsuits
  · rename_i hplace
    rw [hplace] at hsuits
    split at hs
    · rename_i hawaits
      cases hs
      refine ⟨?_, rfl, .inr ⟨false, ?_⟩⟩
      · rintro _ ⟨⟩
        exact ⟨hawaits, rfl, rfl⟩
      · have hturn : l.turn (false && s.shared.cancel) s.shared.console.devices =
            l.park s.shared.console.devices := by
          rw [Bool.false_and, Loop.turn_of_unparked hsuits, if_pos hawaits]
        simp only [Shared.turn, Console.turn_of_goOn hl hturn]
        rfl
    · rename_i hawaits
      cases hs
      exact turns_of_step hl hsuits hawaits
  · rename_i waiter hplace
    rw [hplace] at hsuits
    cases hs
    exact turns_of_advance hl hsuits
  · rename_i trap hplace
    rw [hplace] at hsuits
    split at hs
    · cases hs
    · cases hs
      exact turns_of_leave hl hsuits

end Threads

/-! The whole. -/

/-- What is shared, if the call of the caller that has the console counts already where it does. -/
def Piece.counted (shared : Shared) : Piece → Shared
  | .cancel _ | .clear => shared
  | .interrupt errand | .block errand =>
      { shared with blocked := shared.blocked ++ [⟨errand, shared.runs⟩] }
  | .launch => shared.start.2

namespace Shared

variable {s : Shared}

theorem start_of_ok (h : s.console.start.1 = .ok ()) :
    s.start.2 =
      { s with console := s.console.start.2, runs := s.runs + 1, cancel := false } := by
  cases hstart : s.console.start with
  | mk reply console =>
      obtain rfl : reply = .ok () := (congrArg Prod.fst hstart).symm.trans h
      simp only [start, hstart]

theorem start_of_refused {refusal : Refusal} (h : s.console.start.1 = .error refusal) :
    s.start.2 = { s with console := s.console.start.2 } := by
  cases hstart : s.console.start with
  | mk reply console =>
      obtain rfl : reply = .error refusal := (congrArg Prod.fst hstart).symm.trans h
      simp only [start, hstart]

end Shared

/-- A touch of the devices is the same before the call counts and after it. -/
theorem Piece.counted_withDevices (piece : Piece) (shared : Shared) (devices : Devices) :
    piece.counted { shared with console.devices := devices } =
      { piece.counted shared with console.devices := devices } := by
  cases piece with
  | cancel _ | clear | interrupt _ | block _ => rfl
  | launch =>
      obtain ⟨hreply, hconsole⟩ := shared.console.start_withDevices devices
      simp only [counted]
      cases hstart : shared.console.start.1 with
      | ok _ =>
          rw [Shared.start_of_ok hstart, Shared.start_of_ok (hreply.trans hstart), hconsole]
      | error refusal =>
          rw [Shared.start_of_refused hstart, Shared.start_of_refused (hreply.trans hstart),
            hconsole]

/-- A turn and the stop of another caller do not touch the same things. -/
theorem Piece.counted_turn {piece : Piece} (h : piece ≠ .launch) (shared : Shared) (looked : Bool) :
    piece.counted (shared.turn looked) = (piece.counted shared).turn looked := by
  cases piece with
  | launch => exact absurd rfl h
  | cancel _ | clear | interrupt _ | block _ => rfl

namespace Threads

variable {s next : Threads} {act : Act} {errand : Errand} {event : Keypad.Event} {l : Loop}

def whole (s : Threads) : Shared := s.holder.elim s.shared (Piece.counted s.shared)

/-- Nothing that is seen as a whole has happened, or one act. -/
def Follows (s next : Threads) : Prop :=
  next.whole = s.whole ∨ ∃ act, next.whole = (s.whole.step act).2

theorem whole_of_free (h : s.holder = none) : s.whole = s.shared := by
  rw [whole, h, Option.elim_none]

theorem whole_of_holder {piece : Piece} (h : s.holder = some piece) :
    s.whole = piece.counted s.shared := by
  rw [whole, h, Option.elim_some]

/-- What does nothing but touch the devices does so before or after the call that counts. -/
theorem whole_withDevices (s : Threads) (devices : Devices) (place : Place) :
    whole { s with shared.console.devices := devices, place } =
      { s.whole with console.devices := devices } := by
  cases hholder : s.holder with
  | none =>
      rw [whole_of_free hholder]
      rfl
  | some piece =>
      rw [whole_of_holder hholder]
      exact piece.counted_withDevices s.shared devices

theorem devices_whole (s : Threads) : s.whole.console.devices = s.shared.console.devices :=
  congrArg (fun shared => shared.console.devices)
    (whole_withDevices s s.shared.console.devices s.place)

theorem follows_of_touch (act : Shared.Act) (devices : Devices) (place : Place)
    (hact : ∀ t : Shared, t.console.devices = s.shared.console.devices →
      (t.step act).2 = { t with console.devices := devices }) :
    Follows s { s with shared.console.devices := devices, place } :=
  .inr ⟨act, by rw [whole_withDevices, hact _ s.devices_whole]⟩

theorem follows_of_deliver (hs : s.deliver event = some next)
    (hevent : (∃ byte, event = .press byte) ∨ ∃ byte, event = .release byte) : Follows s next := by
  obtain ⟨rfl, _⟩ := deliver_eq hs
  rcases hevent with ⟨byte, rfl⟩ | ⟨byte, rfl⟩
  · apply follows_of_touch (.call (.press byte)) _ _
    intro t ht
    rw [← ht]
    rfl
  · apply follows_of_touch (.call (.release byte)) _ _
    intro t ht
    rw [← ht]
    rfl

theorem follows_of_free (act : Shared.Act) (hfree : s.holder = none)
    (hholder : next.holder = s.holder) (hact : next.shared = (s.shared.step act).2) :
    Follows s next :=
  .inr ⟨act, by rw [whole_of_free hfree, whole_of_free (hholder.trans hfree), hact]⟩

theorem follows_of_ask (hs : s.ask errand = some next) : Follows s next := by
  obtain ⟨hfree, ⟨_, _, rfl⟩ | ⟨_, rfl⟩⟩ := ask_eq hs
  · exact .inl (whole_of_free hfree).symm
  · refine follows_of_free (.call errand.call) hfree rfl ?_
    cases errand <;> rfl

theorem follows_of_start (hs : s.start = some next) : Follows s next := by
  obtain ⟨hfree, ⟨_, rfl⟩ | ⟨refusal, hrefused, rfl⟩⟩ := start_eq hs
  · exact .inl (whole_of_free hfree).symm
  · exact follows_of_free (.call .run) hfree rfl (Shared.start_of_refused hrefused).symm

theorem follows_of_wake {k : Nat} (hs : s.wake k = some next) : Follows s next := by
  obtain ⟨hfree, rfl⟩ := wake_eq hs
  exact follows_of_free (.wake k) hfree rfl rfl

theorem follows_of_call {call : Console.Call} (hs : s.call call = some next) : Follows s next := by
  cases call with
  | load program => exact follows_of_ask hs
  | reset => exact follows_of_ask hs
  | halt => exact follows_of_ask hs
  | wait => exact follows_of_ask hs
  | run => exact follows_of_start hs
  | press byte => exact follows_of_deliver hs (.inl ⟨byte, rfl⟩)
  | release byte => exact follows_of_deliver hs (.inr ⟨byte, rfl⟩)
  | dump =>
      obtain rfl := dump_eq hs
      exact .inl rfl
  | display =>
      cases hs
      exact .inl rfl
  | tick =>
      cases hs
      apply follows_of_touch (.call .tick) _ _
      intro t ht
      rw [← ht]
      rfl
  | takeFrame =>
      cases hs
      apply follows_of_touch (.call .takeFrame) _ _
      intro t ht
      rw [← ht]
      rfl

theorem Guarded.follows_of_proceed (h : s.Guarded) (hs : s.proceed = some next) :
    Follows s next := by
  obtain ⟨piece, hp⟩ := exists_holder_of_proceed hs
  have hfits := h.holder piece hp
  cases piece with
  | cancel errand =>
      obtain ⟨hcancels, hrunning⟩ := hfits
      have hr : s.shared.console.running = true := hrunning
      rw [proceed_of_cancel hp] at hs
      cases hs
      refine .inr ⟨.call errand.call, ?_⟩
      rw [whole_of_holder hp]
      have hask : (s.shared.step (.call errand.call)).2 = (s.shared.ask errand).2 := by
        cases errand <;> rfl
      simp only [Piece.counted, hask, Shared.ask, hr, if_true, hcancels, Bool.or_true]
      rfl
  | interrupt errand =>
      rw [proceed_of_interrupt hp] at hs
      obtain ⟨heard, hheard, rfl⟩ := Option.map_eq_some_iff.mp hs
      obtain ⟨rfl, _⟩ := deliver_eq hheard
      rw [Follows, whole_of_holder hp]
      exact .inl rfl
  | block errand =>
      rw [proceed_of_block hp hfits.2.1] at hs
      cases hs
      rw [Follows, whole_of_holder hp]
      exact .inl rfl
  | clear =>
      rw [proceed_of_clear hp] at hs
      cases hs
      refine .inr ⟨.call .run, ?_⟩
      rw [whole_of_holder hp]
      have hcleared : { s.shared with cancel := false }.console.start.1 = .ok () := hfits
      exact (Shared.start_of_ok hcleared).trans (Shared.start_of_ok hfits).symm
  | launch =>
      obtain ⟨hstart, hcancelled⟩ := hfits
      have hcancel : s.shared.cancel = false := hcancelled
      rw [proceed_of_launch hp] at hs
      cases hs
      left
      rw [whole_of_holder hp, Piece.counted, Shared.start_of_ok hstart, ← hcancel]
      rfl

theorem Guarded.follows_of_turns (h : s.Guarded) (hrunning : s.running = true)
    (ht : Turns s next) : Follows s next := by
  rcases ht.shared with hsame | ⟨looked, hturn⟩
  · left
    rw [whole, whole, ht.holder, hsame]
  · refine .inr ⟨.turn looked, ?_⟩
    rw [whole, whole, ht.holder, hturn]
    cases hp : s.holder with
    | none => rfl
    | some piece =>
        apply Piece.counted_turn
        rintro rfl
        have hidle := Console.not_running_of_start (h.holder _ hp).1
        cases hrunning.symm.trans hidle

/-! Runs. -/

theorem Guarded.follows (h : s.Guarded) (hplaced : s.Placed) (hs : s.step act = some next) :
    Follows s next ∧ next.Placed := by
  cases act with
  | call call =>
      refine ⟨follows_of_call hs, ?_⟩
      rcases calm_or_deliver_of_call hs with hcalm | ⟨event, hdeliver⟩
      · exact hplaced.calm hcalm
      · exact hplaced.deliver hdeliver
  | proceed => exact ⟨h.follows_of_proceed hs, hplaced.proceed h hs⟩
  | wake k => exact ⟨follows_of_wake hs, hplaced.calm (calm_wake hs)⟩
  | loop =>
      obtain ⟨l, hl, hmove⟩ := Option.bind_eq_some_iff.mp hs
      have ht := turns_of_move hl hplaced hmove
      exact ⟨h.follows_of_turns (h.loop hl) ht, ht.placed⟩
  | supply random =>
      cases hs
      refine ⟨?_, hplaced.calm (calm_touch rfl)⟩
      apply follows_of_touch (.supply random) _ _
      intro t ht
      rw [← ht]
      rfl

theorem Guarded.exists_acts (h : s.Guarded) (hplaced : s.Placed) {acts : List Act}
    (ha : s.after acts = some next) :
    ∃ wholeActs, next.whole = s.whole.after wholeActs := by
  induction acts generalizing s with
  | nil =>
      cases ha
      exact ⟨[], rfl⟩
  | cons act rest ih =>
      obtain ⟨mid, hs, hrest⟩ := Option.bind_eq_some_iff.mp ha
      obtain ⟨hfollows, hmid⟩ := h.follows hplaced hs
      obtain ⟨wholeActs, hwhole⟩ := ih (h.step hs) hmid hrest
      rcases hfollows with hsame | ⟨wholeAct, hone⟩
      · exact ⟨wholeActs, by rw [hwhole, hsame]⟩
      · refine ⟨wholeAct :: wholeActs, ?_⟩
        rw [hwhole, hone]
        rfl

/-- However the pieces of the callers and of the loop's thread are mixed, what is shared comes out as
after calls and turns that are not divided; and whenever nobody is in the middle of a call, that is
all that there is to see. -/
theorem exists_acts_of_after {acts : List Act} (h : new.after acts = some s) :
    ∃ wholeActs, s.whole = Shared.new.after wholeActs ∧
      (s.holder = none → s.shared = Shared.new.after wholeActs) := by
  obtain ⟨wholeActs, hwhole⟩ := guarded_new.exists_acts placed_new h
  exact ⟨wholeActs, hwhole, fun hfree => (whole_of_free hfree).symm.trans hwhole⟩

end Threads
end ChipEight
