import ChipEight.Console.Threads
import ChipEight.Proofs.Console.Returns

/-!
A cancellation reaches the loop that it is meant for. The flag stands from the moment a caller sets
it until the loop has handed its machine back, the loop completes at most one more instruction, and
a key wait that has missed the flag is woken, since nobody can notify it between its look at the flag
and its parking.
-/

namespace ChipEight

namespace Place

/-- In a key wait that the flag cannot reach any more without a notice. -/
def deaf : Place → Bool
  | .waiting (.parking _) | .waiting (.parked _ false) => true
  | _ => false

/-- The instructions that may still come to their end before the next look at the flag. -/
def budget : Place → Nat
  | .ready | .waiting _ => 1
  | .checking | .leaving _ => 0

theorem deaf_hear {place : Place} {event : Keypad.Event} (h : (place.hear event).deaf) :
    place.deaf := by
  cases place with
  | waiting waiter =>
      simp only [hear, Keypad.Waiter.hear] at h
      split at h
      · cases waiter with
        | parked before notified => cases h
        | looking _ | parking _ | returned _ => exact h
      · exact h
  | checking | ready | leaving _ => exact h

theorem budget_hear (place : Place) (event : Keypad.Event) :
    (place.hear event).budget = place.budget := by
  cases place <;> rfl

theorem budget_le (place : Place) : place.budget ≤ 1 := by
  cases place with
  | ready | waiting _ => exact Nat.le_refl 1
  | checking | leaving _ => exact Nat.zero_le 1

/-- A notice leaves no wait deaf, if it can be given at all. -/
theorem not_deaf_interrupt {place : Place} (h : place.hasKeypad = false) :
    ¬ (place.hear .interrupt).deaf := by
  intro hdeaf
  cases place with
  | waiting waiter =>
      cases waiter with
      | parking before => cases h
      | looking _ | parked _ _ | returned _ => cases hdeaf
  | checking | ready | leaving _ => cases hdeaf

/-- A wait that finds the flag set ends, so it does not become deaf. -/
theorem deaf_of_advance {pad : Keypad} {waiter : Keypad.Waiter}
    (h : (Place.waiting (waiter.advance pad true).1).deaf) : (Place.waiting waiter).deaf := by
  cases waiter with
  | looking before => cases h
  | parking before => rfl
  | parked before notified =>
      simp only [Keypad.Waiter.advance] at h
      split at h <;> cases h
  | returned key => cases h

end Place

namespace Threads

def running (s : Threads) : Bool := s.shared.console.running

def cancelled (s : Threads) : Bool := s.shared.cancel

end Threads

/-- What the holder of the console has found: a running loop to stop, or a machine to run. -/
def Piece.Fits (s : Threads) : Piece → Prop
  | .cancel errand => errand.cancels = true ∧ s.running = true
  | .interrupt errand | .block errand =>
      errand.cancels = true ∧ s.running = true ∧ s.cancelled = true
  | .clear => s.shared.console.start.1 = .ok ()
  | .launch => s.shared.console.start.1 = .ok () ∧ s.cancelled = false

theorem Piece.Fits.congr {s next : Threads} {piece : Piece} (h : piece.Fits s)
    (hrunning : next.running = s.running) (hcancelled : next.cancelled = s.cancelled)
    (hstart : next.shared.console.start.1 = s.shared.console.start.1) : piece.Fits next := by
  cases piece with
  | cancel errand => exact ⟨h.1, hrunning.trans h.2⟩
  | interrupt errand | block errand => exact ⟨h.1, hrunning.trans h.2.1, hcancelled.trans h.2.2⟩
  | clear => exact hstart.trans h
  | launch => exact ⟨hstart.trans h.1, hcancelled.trans h.2⟩

namespace Threads

structure Guarded (s : Threads) : Prop where
  busy : s.shared.console.loop.isSome = s.running
  holder : ∀ piece, s.holder = some piece → piece.Fits s
  deaf : s.cancelled → s.place.deaf → ∃ errand, s.holder = some (.interrupt errand)

/-- An act of a caller that touches neither the flag nor the loop, and may take the console. -/
structure Calm (s next : Threads) : Prop where
  running : next.running = s.running
  loop : next.shared.console.loop = s.shared.console.loop
  keypad : next.shared.console.devices.keypad = s.shared.console.devices.keypad
  runs : next.shared.runs = s.shared.runs
  cancelled : next.cancelled = s.cancelled
  place : next.place = s.place
  holder : next.holder = s.holder ∧ next.shared.console.start.1 = s.shared.console.start.1 ∨
    s.holder = none ∧ ∀ piece, next.holder = some piece → piece.Fits next

variable {s next : Threads} {act : Act} {errand : Errand} {event : Keypad.Event} {l : Loop}

/-! What each act is. -/

theorem ask_eq (hs : s.ask errand = some next) :
    s.holder = none ∧
      (s.running = true ∧ errand.cancels = true ∧ next = { s with holder := some (.cancel errand) } ∨
        (s.running = true → errand.cancels = false) ∧
          next = { s with shared := (s.shared.ask errand).2 }) := by
  simp only [ask] at hs
  split at hs
  · cases hs
  · rename_i htaken
    refine ⟨by simpa using htaken, ?_⟩
    split at hs
    · rename_i hstops
      cases hs
      obtain ⟨hrunning, hcancels⟩ := Bool.and_eq_true_iff.mp hstops
      exact .inl ⟨hrunning, hcancels, rfl⟩
    · rename_i hwaits
      cases hs
      refine .inr ⟨fun hrunning => ?_, rfl⟩
      have hr : s.shared.console.running = true := hrunning
      simpa [hr] using hwaits

theorem start_eq (hs : s.start = some next) :
    s.holder = none ∧
      (s.shared.console.start.1 = .ok () ∧ next = { s with holder := some .clear } ∨
        ∃ refusal, s.shared.console.start.1 = .error refusal ∧
          next = { s with shared.console := s.shared.console.start.2 }) := by
  simp only [start] at hs
  split at hs
  · cases hs
  · rename_i htaken
    refine ⟨by simpa using htaken, ?_⟩
    split at hs
    · rename_i console hstart
      cases hs
      exact .inl ⟨congrArg Prod.fst hstart, rfl⟩
    · rename_i refusal console hstart
      cases hs
      rw [hstart]
      exact .inr ⟨refusal, rfl, rfl⟩

theorem dump_eq (hs : s.call .dump = some next) : next = s := by
  change (if s.holder.isSome then none else some s) = some next at hs
  split at hs
  · cases hs
  · exact (Option.some.inj hs).symm

theorem wake_eq {k : Nat} (hs : s.wake k = some next) :
    s.holder = none ∧ next = { s with shared := (s.shared.wake k).2 } := by
  simp only [wake] at hs
  split at hs
  · cases hs
  · rename_i htaken
    cases hs
    exact ⟨by simpa using htaken, rfl⟩

theorem deliver_eq (hs : s.deliver event = some next) :
    next = { s with
      shared.console.devices.keypad := (s.shared.console.devices.keypad.deliver event).2
      place := s.place.hear event } ∧
      (event.takesKeypad → s.place.hasKeypad = false) := by
  simp only [deliver] at hs
  split at hs
  · cases hs
  · rename_i hfree
    cases hs
    exact ⟨rfl, fun htakes => by simpa [htakes] using hfree⟩

theorem proceed_of_cancel (hp : s.holder = some (.cancel errand)) :
    s.proceed = some { s with shared.cancel := true, holder := some (.interrupt errand) } := by
  simp only [proceed, hp]

theorem proceed_of_interrupt (hp : s.holder = some (.interrupt errand)) :
    s.proceed =
      (s.deliver .interrupt).map fun next => { next with holder := some (.block errand) } := by
  simp only [proceed, hp]

/-- The loop that a stop has found still runs when the stop lets go of the console. -/
theorem proceed_of_block (hp : s.holder = some (.block errand)) (hrunning : s.running = true) :
    s.proceed = some { s with
      shared.blocked := s.shared.blocked ++ [⟨errand, s.shared.runs⟩]
      holder := none } := by
  have hr : s.shared.console.running = true := hrunning
  simp only [proceed, hp, hr, if_true]

theorem proceed_of_clear (hp : s.holder = some .clear) :
    s.proceed = some { s with shared.cancel := false, holder := some .launch } := by
  simp only [proceed, hp]

theorem proceed_of_launch (hp : s.holder = some .launch) :
    s.proceed = some { s with
      shared.console := s.shared.console.start.2
      shared.runs := s.shared.runs + 1
      place := .checking
      holder := none } := by
  simp only [proceed, hp]

theorem exists_holder_of_proceed (hs : s.proceed = some next) : ∃ piece, s.holder = some piece := by
  cases hp : s.holder with
  | none =>
      simp only [proceed, hp] at hs
      cases hs
  | some piece => exact ⟨piece, rfl⟩

/-! What each act changes. -/

theorem calm_finish (hholder : s.holder = none) (errand : Errand) :
    Calm s { s with shared := (s.shared.finish errand).2 } := by
  obtain ⟨hloop, hrunning, hkeypad⟩ := s.shared.console.loop_finish errand
  exact ⟨hrunning, hloop, hkeypad, rfl, rfl, rfl,
    .inr ⟨hholder, fun _ hp => nomatch hholder.symm.trans hp⟩⟩

theorem calm_touch {devices : Devices}
    (hkeypad : devices.keypad = s.shared.console.devices.keypad) :
    Calm s { s with shared.console.devices := devices } :=
  ⟨rfl, rfl, hkeypad, rfl, rfl, rfl,
    .inl ⟨rfl, (s.shared.console.start_withDevices devices).1⟩⟩

theorem calm_ask (hs : s.ask errand = some next) : Calm s next := by
  obtain ⟨hholder, ⟨hrunning, hcancels, rfl⟩ | ⟨hwaits, rfl⟩⟩ := ask_eq hs
  · refine ⟨rfl, rfl, rfl, rfl, rfl, rfl, .inr ⟨hholder, ?_⟩⟩
    rintro _ ⟨⟩
    exact ⟨hcancels, hrunning⟩
  · cases hrunning : s.shared.console.running with
    | false =>
        simp only [Shared.ask, hrunning, Bool.false_eq_true, if_false]
        exact calm_finish hholder errand
    | true =>
        simp only [Shared.ask, hrunning, if_true, hwaits hrunning, Bool.or_false]
        exact ⟨rfl, rfl, rfl, rfl, rfl, rfl, .inl ⟨rfl, rfl⟩⟩

theorem calm_start (hs : s.start = some next) : Calm s next := by
  obtain ⟨hholder, ⟨hstart, rfl⟩ | ⟨refusal, hrefused, rfl⟩⟩ := start_eq hs
  · refine ⟨rfl, rfl, rfl, rfl, rfl, rfl, .inr ⟨hholder, ?_⟩⟩
    rintro _ ⟨⟩
    exact hstart
  · obtain ⟨hloop, hrunning, hdevices⟩ := Console.loop_start_of_refused hrefused
    exact ⟨hrunning, hloop, congrArg Devices.keypad hdevices, rfl, rfl, rfl,
      .inr ⟨hholder, fun _ hp => nomatch hholder.symm.trans hp⟩⟩

theorem calm_wake {k : Nat} (hs : s.wake k = some next) : Calm s next := by
  obtain ⟨hholder, rfl⟩ := wake_eq hs
  simp only [Shared.wake]
  split
  · split
    · exact ⟨rfl, rfl, rfl, rfl, rfl, rfl, .inl ⟨rfl, rfl⟩⟩
    · rename_i b _ _
      obtain ⟨hloop, hrunning, hkeypad⟩ := s.shared.console.loop_finish b.errand
      refine ⟨hrunning, hloop, hkeypad, rfl, rfl, rfl, .inr ⟨hholder, ?_⟩⟩
      intro _ hp
      cases hholder.symm.trans hp
  · exact ⟨rfl, rfl, rfl, rfl, rfl, rfl, .inl ⟨rfl, rfl⟩⟩

/-- A caller presses or releases a key, or calls for something else. -/
theorem calm_or_deliver_of_call {call : Console.Call} (hs : s.call call = some next) :
    Calm s next ∨ ∃ event, s.deliver event = some next := by
  cases call with
  | load program => exact .inl (calm_ask hs)
  | reset => exact .inl (calm_ask hs)
  | halt => exact .inl (calm_ask hs)
  | wait => exact .inl (calm_ask hs)
  | run => exact .inl (calm_start hs)
  | press byte => exact .inr ⟨.press byte, hs⟩
  | release byte => exact .inr ⟨.release byte, hs⟩
  | dump =>
      obtain rfl := dump_eq hs
      exact .inl ⟨rfl, rfl, rfl, rfl, rfl, rfl, .inl ⟨rfl, rfl⟩⟩
  | display =>
      cases hs
      exact .inl ⟨rfl, rfl, rfl, rfl, rfl, rfl, .inl ⟨rfl, rfl⟩⟩
  | tick | takeFrame =>
      cases hs
      exact .inl (calm_touch rfl)

/-! What each act preserves. -/

theorem guarded_new : new.Guarded :=
  ⟨rfl, nofun, nofun⟩

theorem Guarded.calm (h : s.Guarded) (hc : Calm s next) : next.Guarded where
  busy := by rw [hc.loop, hc.running, h.busy]
  holder piece hp := by
    rcases hc.holder with ⟨hsame, hstart⟩ | ⟨_, hfits⟩
    · exact (h.holder piece (hsame ▸ hp)).congr hc.running hc.cancelled hstart
    · exact hfits piece hp
  deaf hcancelled hdeaf := by
    rw [hc.cancelled] at hcancelled
    rw [hc.place] at hdeaf
    obtain ⟨errand, hholder⟩ := h.deaf hcancelled hdeaf
    rcases hc.holder with ⟨hsame, _⟩ | ⟨hnone, _⟩
    · exact ⟨errand, hsame.trans hholder⟩
    · cases hnone.symm.trans hholder

theorem Guarded.deliver (h : s.Guarded) (hs : s.deliver event = some next) : next.Guarded := by
  obtain ⟨rfl, _⟩ := deliver_eq hs
  refine ⟨h.busy, ?_, fun hcancelled hdeaf => h.deaf hcancelled (Place.deaf_hear hdeaf)⟩
  intro piece hp
  exact (h.holder piece hp).congr rfl rfl (s.shared.console.start_withDevices _).1

theorem Guarded.proceed (h : s.Guarded) (hs : s.proceed = some next) : next.Guarded := by
  obtain ⟨piece, hp⟩ := exists_holder_of_proceed hs
  have hfits := h.holder piece hp
  cases piece with
  | cancel errand =>
      rw [proceed_of_cancel hp] at hs
      cases hs
      refine ⟨h.busy, ?_, fun _ _ => ⟨errand, rfl⟩⟩
      rintro _ ⟨⟩
      exact ⟨hfits.1, hfits.2, rfl⟩
  | interrupt errand =>
      rw [proceed_of_interrupt hp] at hs
      obtain ⟨heard, hheard, rfl⟩ := Option.map_eq_some_iff.mp hs
      obtain ⟨rfl, hfree⟩ := deliver_eq hheard
      refine ⟨h.busy, ?_, fun _ hdeaf => absurd hdeaf (Place.not_deaf_interrupt (hfree rfl))⟩
      rintro _ ⟨⟩
      exact hfits
  | block errand =>
      rw [proceed_of_block hp hfits.2.1] at hs
      cases hs
      refine ⟨h.busy, nofun, fun hcancelled hdeaf => ?_⟩
      obtain ⟨other, hother⟩ := h.deaf hcancelled hdeaf
      cases hp.symm.trans hother
  | clear =>
      rw [proceed_of_clear hp] at hs
      cases hs
      refine ⟨h.busy, ?_, nofun⟩
      rintro _ ⟨⟩
      exact ⟨hfits, rfl⟩
  | launch =>
      rw [proceed_of_launch hp] at hs
      cases hs
      exact ⟨Console.isSome_loop_start h.busy, nofun, nofun⟩

/-! The thread of the loop. -/

/-- A movement of the loop's thread. If the flag is set, the thread does not go on from a look at it
to another instruction, nor does a key wait go on from one to its parking. -/
structure Moved (s next : Threads) : Prop where
  holder : next.holder = s.holder
  cancelled : next.cancelled = s.cancelled
  runs : next.shared.runs = s.shared.runs
  busy : next.shared.console.loop.isSome = next.running
  running : s.holder.isSome → next.running = s.running
  budget : s.cancelled → next.place.budget + (s.completes .loop).toNat ≤ s.place.budget
  deaf : s.cancelled → next.place.deaf → s.place.deaf

theorem settle_eq (s : Threads) (hbusy : s.shared.console.loop.isSome = s.running)
    (hrunning : s.running = true) (result : Turn × Devices) :
    ∃ console place, s.settle result = { s with shared.console := console, place } ∧
      console.running = true ∧ console.loop.isSome = true ∧ place.budget = 0 ∧ ¬ place.deaf := by
  rcases result with ⟨_ | _, devices⟩
  · exact ⟨_, _, rfl, hrunning, rfl, rfl, nofun⟩
  · exact ⟨_, _, rfl, hrunning, hbusy.trans hrunning, rfl, nofun⟩

theorem moved_of_settle (hbusy : s.shared.console.loop.isSome = s.running)
    (hrunning : s.running = true) (hbudget : s.place.budget = 1) (result : Turn × Devices) :
    Moved s (s.settle result) := by
  obtain ⟨console, place, hsettle, hstill, hloop, hspent, hdeaf⟩ :=
    settle_eq s hbusy hrunning result
  rw [hsettle]
  refine ⟨rfl, rfl, rfl, hloop.trans hstill.symm, fun _ => hstill.trans hrunning.symm, ?_, ?_⟩
  · intro _
    rw [hbudget, hspent, Nat.zero_add]
    exact Bool.toNat_le _
  · exact fun _ hd => absurd hd hdeaf

theorem moved_of_advance {waiter : Keypad.Waiter} (hl : s.shared.console.loop = some l)
    (hrunning : s.running = true) (hplace : s.place = .waiting waiter) :
    Moved s (s.advance l waiter) := by
  have hbusy : s.shared.console.loop.isSome = s.running := by rw [hl, hrunning, Option.isSome_some]
  have hbudget : s.place.budget = 1 := by rw [hplace, Place.budget]
  simp only [advance]
  split
  · exact moved_of_settle hbusy hrunning hbudget _
  · rename_i waiter' keypad hnot hadvance
    have hgoes : waiter'.ended = false := by
      cases waiter' with
      | returned key => exact absurd rfl (hnot key)
      | looking _ | parking _ | parked _ _ => rfl
    refine ⟨rfl, rfl, rfl, hbusy, fun _ => rfl, ?_, ?_⟩
    · intro _
      have hcompletes : s.completes .loop = false := by
        simp only [completes, hl, hplace, hadvance, hgoes]
      rw [hcompletes, hbudget]
      exact Nat.le_refl 1
    · intro hcancelled hdeaf
      have hcancel : s.shared.cancel = true := hcancelled
      rw [hcancel] at hadvance
      rw [hplace]
      apply Place.deaf_of_advance
      rw [hadvance]
      exact hdeaf

theorem moved_of_move (hl : s.shared.console.loop = some l) (hrunning : s.running = true)
    (hs : s.move l = some next) : Moved s next := by
  have hbusy : s.shared.console.loop.isSome = s.running := by rw [hl, hrunning, Option.isSome_some]
  simp only [move] at hs
  split at hs
  · rename_i hplace
    cases hs
    have hcompletes : s.completes .loop = false := by simp only [completes, hl, hplace]
    refine ⟨rfl, rfl, rfl, hbusy, fun _ => rfl, ?_, ?_⟩
    · intro hcancelled
      have hcancel : s.shared.cancel = true := hcancelled
      rw [hcompletes, hplace]
      simp [hcancel, Place.budget]
    · intro hcancelled hdeaf
      have hcancel : s.shared.cancel = true := hcancelled
      simp [hcancel, Place.deaf] at hdeaf
  · rename_i hplace
    split at hs
    · rename_i hwaits
      cases hs
      have hcompletes : s.completes .loop = false := by
        simp only [completes, hl, hplace, hwaits, Bool.not_true]
      refine ⟨rfl, rfl, rfl, rfl.trans hrunning.symm, fun _ => rfl, ?_, nofun⟩
      intro _
      rw [hcompletes, hplace]
      exact Nat.le_refl 1
    · cases hs
      exact moved_of_settle hbusy hrunning (by rw [hplace, Place.budget]) _
  · rename_i waiter hplace
    cases hs
    exact moved_of_advance hl hrunning hplace
  · rename_i trap hplace
    split at hs
    · cases hs
    · rename_i hholder
      cases hs
      have hcompletes : s.completes .loop = false := by simp only [completes, hl, hplace]
      refine ⟨rfl, rfl, rfl, rfl, fun hh => absurd hh hholder, ?_, fun _ hdeaf => hdeaf⟩
      intro _
      rw [hcompletes]
      exact Nat.le_refl _

theorem Guarded.loop (h : s.Guarded) (hl : s.shared.console.loop = some l) : s.running = true := by
  rw [← h.busy, hl, Option.isSome_some]

theorem Guarded.move (h : s.Guarded) (hrunning : s.running = true) (hm : Moved s next) :
    next.Guarded where
  busy := hm.busy
  holder piece hp := by
    rw [hm.holder] at hp
    have hstill := hm.running (by rw [hp, Option.isSome_some])
    have hfits := h.holder piece hp
    cases piece with
    | cancel errand => exact ⟨hfits.1, hstill.trans hfits.2⟩
    | interrupt errand | block errand =>
        exact ⟨hfits.1, hstill.trans hfits.2.1, hm.cancelled.trans hfits.2.2⟩
    | clear => cases hrunning.symm.trans (Console.not_running_of_start hfits)
    | launch => cases hrunning.symm.trans (Console.not_running_of_start hfits.1)
  deaf hcancelled hdeaf := by
    rw [hm.cancelled] at hcancelled
    rw [hm.holder]
    exact h.deaf hcancelled (hm.deaf hcancelled hdeaf)

/-! Acts of all kinds. -/

/-- Who acts: a caller beside the console's holder, the holder, or the thread of the loop. -/
theorem kinds_of_step (hs : s.step act = some next) :
    (act ≠ .loop ∧
        (Calm s next ∨ (∃ event, s.deliver event = some next) ∨ s.proceed = some next)) ∨
      act = .loop ∧ ∃ l, s.shared.console.loop = some l ∧ s.move l = some next := by
  cases act with
  | call call =>
      rcases calm_or_deliver_of_call hs with hcalm | hdeliver
      · exact .inl ⟨nofun, .inl hcalm⟩
      · exact .inl ⟨nofun, .inr (.inl hdeliver)⟩
  | proceed => exact .inl ⟨nofun, .inr (.inr hs)⟩
  | wake k => exact .inl ⟨nofun, .inl (calm_wake hs)⟩
  | supply random =>
      cases hs
      exact .inl ⟨nofun, .inl (calm_touch rfl)⟩
  | loop => exact .inr ⟨rfl, Option.bind_eq_some_iff.mp hs⟩

theorem Guarded.step (h : s.Guarded) (hs : s.step act = some next) : next.Guarded := by
  rcases kinds_of_step hs with ⟨_, hcalm | ⟨event, hdeliver⟩ | hproceed⟩ | ⟨_, l, hl, hmove⟩
  · exact h.calm hcalm
  · exact h.deliver hdeliver
  · exact h.proceed hproceed
  · exact h.move (h.loop hl) (moved_of_move hl (h.loop hl) hmove)

theorem after_append (s : Threads) (acts later : List Act) :
    s.after (acts ++ later) = (s.after acts).bind (·.after later) := by
  induction acts generalizing s with
  | nil => rfl
  | cons act rest ih =>
      simp only [List.cons_append, after, Option.bind_assoc]
      exact congrArg _ (funext fun next => ih next)

theorem Guarded.after (h : s.Guarded) {acts : List Act} (ha : s.after acts = some next) :
    next.Guarded := by
  induction acts generalizing s with
  | nil =>
      cases ha
      exact h
  | cons act rest ih =>
      obtain ⟨mid, hs, hrest⟩ := Option.bind_eq_some_iff.mp ha
      exact ih (h.step hs) hrest

/-! A run that was cancelled. -/

/-- What an act leaves of a run whose flag is set, if it brings `count` instructions to their end. -/
structure Heeds (s : Threads) (count : Nat) (next : Threads) : Prop where
  cancelled : next.cancelled
  runs : next.shared.runs = s.shared.runs
  budget : next.place.budget + count ≤ s.place.budget
  deaf : next.place.deaf → s.place.deaf

theorem completes_of_ne_loop (h : act ≠ .loop) : s.completes act = false := by
  cases act with
  | loop => exact absurd rfl h
  | call _ | proceed | wake _ | supply _ => rfl

theorem Guarded.heeds_proceed (h : s.Guarded) (hs : s.proceed = some next)
    (hrunning : s.running = true) (hcancelled : s.cancelled = true) :
    Heeds s 0 next := by
  obtain ⟨piece, hp⟩ := exists_holder_of_proceed hs
  cases piece with
  | cancel errand =>
      rw [proceed_of_cancel hp] at hs
      cases hs
      exact ⟨rfl, rfl, Nat.le_refl _, id⟩
  | interrupt errand =>
      rw [proceed_of_interrupt hp] at hs
      obtain ⟨heard, hheard, rfl⟩ := Option.map_eq_some_iff.mp hs
      obtain ⟨rfl, _⟩ := deliver_eq hheard
      exact ⟨hcancelled, rfl, Nat.le_of_eq (Place.budget_hear _ _), Place.deaf_hear⟩
  | block errand =>
      rw [proceed_of_block hp hrunning] at hs
      cases hs
      exact ⟨hcancelled, rfl, Nat.le_refl _, id⟩
  | clear => cases hrunning.symm.trans (Console.not_running_of_start (h.holder _ hp))
  | launch => cases hrunning.symm.trans (Console.not_running_of_start (h.holder _ hp).1)

theorem Guarded.heeds (h : s.Guarded) (hs : s.step act = some next) (hrunning : s.running = true)
    (hcancelled : s.cancelled = true) : Heeds s (s.completes act).toNat next := by
  rcases kinds_of_step hs with ⟨hact, hkind⟩ | ⟨rfl, l, hl, hmove⟩
  · rw [completes_of_ne_loop hact]
    rcases hkind with hcalm | ⟨event, hdeliver⟩ | hproceed
    · refine ⟨hcalm.cancelled.trans hcancelled, hcalm.runs, ?_, ?_⟩
      · exact Nat.le_of_eq (congrArg Place.budget hcalm.place)
      · rw [hcalm.place]
        exact id
    · obtain ⟨rfl, _⟩ := deliver_eq hdeliver
      exact ⟨hcancelled, rfl, Nat.le_of_eq (Place.budget_hear _ _), Place.deaf_hear⟩
    · exact h.heeds_proceed hproceed hrunning hcancelled
  · have hm := moved_of_move hl hrunning hmove
    exact ⟨hm.cancelled.trans hcancelled, hm.runs, hm.budget hcancelled, hm.deaf hcancelled⟩

/-- The run that is in progress goes on from the first state to the last, and brings `n`
instructions to their end in between. -/
inductive Continues : Threads → Nat → Threads → Prop where
  | stay {s : Threads} : s.running → Continues s 0 s
  | step {s mid next : Threads} {n : Nat} {act : Act} :
      Continues s n mid → mid.step act = some next → next.running →
        Continues s (n + (mid.completes act).toNat) next

theorem Continues.running {n : Nat} (h : Continues s n next) : next.running = true := by
  cases h with
  | stay hrunning => exact hrunning
  | step _ _ hrunning => exact hrunning

theorem Guarded.continues (h : s.Guarded) (hcancelled : s.cancelled = true) {n : Nat}
    (hc : Continues s n next) : next.Guarded ∧ Heeds s n next := by
  induction hc with
  | stay _ => exact ⟨h, hcancelled, rfl, Nat.le_refl _, id⟩
  | step hbefore hs _ ih =>
      obtain ⟨hmid, hheeds⟩ := ih
      have hlast := hmid.heeds hs hbefore.running hheeds.cancelled
      refine ⟨hmid.step hs, hlast.cancelled, hlast.runs.trans hheeds.runs, ?_, ?_⟩
      · have hfirst := hheeds.budget
        have hsecond := hlast.budget
        omega
      · exact fun hdeaf => hheeds.deaf (hlast.deaf hdeaf)

/-- Once a stop has set the flag for the run in progress, it stays set as long as that run goes on,
and the run brings at most one more instruction to its end. Once that stop has given its notice, the
loop is never parked without one; and wherever a loop is parked without one under a set flag, the
stop that set it is about to give it. -/
theorem cancellation_is_never_lost {acts : List Act} (h : new.after acts = some s) :
    (∀ errand next, s.holder = some (.cancel errand) → s.step .proceed = some next →
        next.running ∧ next.cancelled ∧
          ∀ n later, Continues next n later →
            later.cancelled ∧ later.shared.runs = next.shared.runs ∧ n ≤ 1) ∧
      (∀ errand next, s.holder = some (.interrupt errand) → s.step .proceed = some next →
        ∀ n later before, Continues next n later →
          later.place ≠ .waiting (.parked before false)) ∧
      ∀ before, s.cancelled → s.place = .waiting (.parked before false) →
        ∃ errand, s.holder = some (.interrupt errand) := by
  have hguarded := guarded_new.after h
  refine ⟨?_, ?_, ?_⟩
  · intro errand next hp hs
    have hnext := hguarded.step hs
    obtain ⟨_, hrunning⟩ := hguarded.holder _ hp
    simp only [Threads.step, proceed_of_cancel hp] at hs
    cases hs
    refine ⟨hrunning, rfl, ?_⟩
    intro n later hc
    obtain ⟨_, hheeds⟩ := hnext.continues rfl hc
    have hbudget := Nat.le_trans hheeds.budget (Place.budget_le _)
    exact ⟨hheeds.cancelled, hheeds.runs, by omega⟩
  · intro errand next hp hs n later before hc hparked
    have hnext := hguarded.step hs
    obtain ⟨_, _, hcancelled⟩ := hguarded.holder _ hp
    simp only [Threads.step, proceed_of_interrupt hp] at hs
    obtain ⟨heard, hheard, rfl⟩ := Option.map_eq_some_iff.mp hs
    obtain ⟨rfl, hfree⟩ := deliver_eq hheard
    obtain ⟨_, hheeds⟩ := hnext.continues hcancelled hc
    apply Place.not_deaf_interrupt (hfree rfl)
    apply hheeds.deaf
    rw [hparked]
    rfl
  · intro before hcancelled hparked
    exact hguarded.deaf hcancelled (by rw [hparked]; rfl)

/-- A halt sets the flag between the look of a key wait and its parking. -/
theorem cancellation_is_never_lost_parking :
    ∃ s next later,
      new.after [.call (.load [0xF0, 0x0A]), .call .run, .proceed, .proceed, .loop, .loop, .loop,
        .call .halt] = some s ∧
      s.holder = some (.cancel .halt) ∧ s.step .proceed = some next ∧ Continues next 0 later ∧
      later.place = .waiting (.parked 0 false) ∧ later.cancelled ∧
      ∃ errand, later.holder = some (.interrupt errand) := by
  let acts : List Act :=
    [.call (.load [0xF0, 0x0A]), .call .run, .proceed, .proceed, .loop, .loop, .loop, .call .halt]
  have hview : ((new.after acts).bind fun s => (s.step .proceed).bind fun next =>
      (next.step .loop).map fun later =>
        (s.holder, next.completes .loop, later.running, later.place)) =
      some (some (.cancel .halt), false, true, .waiting (.parked 0 false)) := by
    decide +kernel
  obtain ⟨s, hs, hview⟩ := Option.bind_eq_some_iff.mp hview
  obtain ⟨next, hnext, hview⟩ := Option.bind_eq_some_iff.mp hview
  obtain ⟨later, hlater, hview⟩ := Option.map_eq_some_iff.mp hview
  simp only [Prod.mk.injEq] at hview
  obtain ⟨hholder, hcompletes, hrunning, hplace⟩ := hview
  obtain ⟨hset, _, _⟩ := cancellation_is_never_lost hs
  obtain ⟨hstill, _, hkept⟩ := hset .halt next hholder hnext
  have hgoes : Continues next 0 later := by
    have hstep := Continues.step (.stay hstill) hlater hrunning
    rwa [hcompletes] at hstep
  have hcancelled := (hkept 0 later hgoes).1
  have hafter : new.after (acts ++ [.proceed, .loop]) = some later := by
    rw [after_append, hs]
    simp only [Option.bind_some, after, hnext, hlater]
  obtain ⟨_, _, hparked⟩ := cancellation_is_never_lost hafter
  exact ⟨s, next, later, hs, hholder, hnext, hgoes, hplace, hcancelled, hparked 0 hcancelled hplace⟩

end Threads
end ChipEight
