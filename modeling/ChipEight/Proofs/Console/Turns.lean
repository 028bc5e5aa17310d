import ChipEight.Console.Loop
import ChipEight.Proofs.Machine.Faults
import ChipEight.Proofs.Machine.KeyWait

/-!
What a turn of the loop comes to. A loop that goes on has taken one step of its machine or none; a
loop that stops hands its machine back as it was, and if it stops on a trap, with the devices as
they were.
-/

namespace ChipEight

namespace Keypad

variable {pad : Keypad} {before : UInt64}

theorem answer?_of_pressed (h : pad.presses ≠ before) (cancelled : Bool) :
    pad.answer? before cancelled = some pad.latest := by
  rw [answer?, if_pos h]

theorem answer?_of_not_pressed (h : pad.presses = before) (cancelled : Bool) :
    pad.answer? before cancelled = if cancelled then some none else none := by
  rw [answer?, if_neg (not_not_intro h)]

theorem answer?_eq_none_iff : pad.answer? before false = none ↔ pad.presses = before := by
  refine ⟨?_, fun h => answer?_of_not_pressed h false⟩
  intro ha
  by_contra hpress
  rw [answer?_of_pressed hpress] at ha
  cases ha

/-- A wait that is cancelled is over, and with a key only if one was pressed. -/
theorem exists_answer_of_cancelled (pad : Keypad) (before : UInt64) :
    ∃ answer, pad.answer? before true = some answer ∧ (pad.presses = before → answer = none) := by
  by_cases hpress : pad.presses = before
  · exact ⟨none, answer?_of_not_pressed hpress true, fun _ => rfl⟩
  · exact ⟨pad.latest, answer?_of_pressed hpress true, fun heq => absurd heq hpress⟩

end Keypad

namespace Loop

variable {l next : Loop} {m : Machine} {d d' : Devices} {trap : Option Trap} {cancelled : Bool}

/-- A loop parks at key waits only. -/
def ParksAtWaits (l : Loop) : Prop := l.parked ≠ none → awaitsKey l.machine

theorem parksAtWaits_ofMachine (m : Machine) : (ofMachine m).ParksAtWaits :=
  fun h => absurd rfl h

theorem exists_awaitKey (h : awaitsKey m) : ∃ x, m.next = .ok (.awaitKey x) := by
  simp only [awaitsKey] at h
  split at h
  · exact ⟨_, ‹_›⟩
  · cases h

theorem step_goOn (h : l.step d = (.goOn next, d')) :
    ∃ m, l.machine.step d = (.ok m, d') ∧ next = ofMachine m := by
  simp only [step] at h
  split at h
  · cases h
    exact ⟨_, ‹_›, rfl⟩
  · cases h

theorem step_stop (h : l.step d = (.stop m trap, d')) :
    ∃ f, l.machine.step d = (.error f, d') ∧ m = l.machine ∧ trap = some ⟨l.machine.pc, f⟩ := by
  simp only [step] at h
  split at h
  · cases h
  · cases h
    exact ⟨_, ‹_›, rfl, rfl⟩

/-- A key wait takes whatever answer it gets, so waking never stops a loop. -/
theorem wake_ne_stop (h : awaitsKey l.machine) (answer : Option Key) :
    l.wake answer d ≠ (.stop m trap, d') := by
  intro hw
  obtain ⟨x, hx⟩ := exists_awaitKey h
  obtain ⟨f, hf, _, _⟩ := step_stop hw
  rw [Machine.step_of_next hx] at hf
  have hnone := (Machine.decides_execute _ _ _ f).mp (congrArg Prod.fst hf)
  cases hnone

/-- Waking takes the machine past its key wait, and the devices out of it. -/
theorem wake_eq {x : Register} (hx : l.machine.next = .ok (.awaitKey x)) (answer : Option Key)
    (d : Devices) :
    l.wake answer d =
      (.goOn (ofMachine (l.machine.afterWait x answer)),
        { d with keypad := d.keypad.endWait, feed.answers := [] }) := by
  simp only [wake, step, Machine.step_awaitKey hx]
  rfl

theorem turn_of_parked {before : UInt64} (hp : l.parked = some before) (cancelled : Bool)
    (d : Devices) :
    l.turn cancelled d =
      match d.keypad.answer? before cancelled with
      | some answer => l.wake answer d
      | none => (.goOn l, d) := by
  cases ha : d.keypad.answer? before cancelled <;> simp only [turn, hp, ha]

theorem turn_of_cancelled (hp : l.parked = none) (d : Devices) :
    l.turn true d = (.stop l.machine none, d) := by
  simp only [turn, hp, if_true]

theorem turn_of_unparked (hp : l.parked = none) (d : Devices) :
    l.turn false d = if awaitsKey l.machine then l.park d else l.step d := by
  simp only [turn, hp, Bool.false_eq_true, if_false]

/-- A key wait never faults, so a machine that does is not parked. -/
theorem not_awaitsKey_of_fault {f : Fault} (hm : ∀ d, m.step d = (.error f, d)) :
    ¬ awaitsKey m := by
  intro hw
  obtain ⟨x, hx⟩ := exists_awaitKey hw
  have hstep := (Machine.step_awaitKey hx .fresh).symm.trans (hm .fresh)
  cases congrArg Prod.fst hstep

theorem ParksAtWaits.turn_of_fault (hl : l.ParksAtWaits) {f : Fault}
    (hm : ∀ d, l.machine.step d = (.error f, d)) (d : Devices) :
    l.turn false d = (.stop l.machine (some ⟨l.machine.pc, f⟩), d) := by
  have hw := not_awaitsKey_of_fault hm
  have hp : l.parked = none := by
    by_contra hp
    exact hw (hl hp)
  rw [turn_of_unparked hp, if_neg hw]
  simp only [step, hm]

theorem turn_goOn (hl : l.ParksAtWaits) (h : l.turn cancelled d = (.goOn next, d')) :
    next.ParksAtWaits ∧
      (next.machine = l.machine ∨ ∃ d₁, l.machine.step d₁ = (.ok next.machine, d')) := by
  simp only [turn] at h
  split at h
  · split at h
    · obtain ⟨m, hm, rfl⟩ := step_goOn h
      exact ⟨parksAtWaits_ofMachine m, .inr ⟨_, hm⟩⟩
    · cases h
      exact ⟨hl, .inl rfl⟩
  · split at h
    · cases h
    · split at h
      · cases h
        exact ⟨fun _ => ‹_›, .inl rfl⟩
      · obtain ⟨m, hm, rfl⟩ := step_goOn h
        exact ⟨parksAtWaits_ofMachine m, .inr ⟨_, hm⟩⟩

theorem turn_stop (hl : l.ParksAtWaits) (h : l.turn cancelled d = (.stop m trap, d')) :
    m = l.machine ∧ d' = d ∧
      ∀ t ∈ trap, t.address = m.pc ∧ ∀ d₁, m.step d₁ = (.error t.fault, d₁) := by
  simp only [turn] at h
  split at h
  · rename_i before hp
    split at h
    · exact absurd h (wake_ne_stop (hl (by simp [hp])) _)
    · cases h
  · split at h
    · cases h
      exact ⟨rfl, rfl, fun t ht => nomatch ht⟩
    · split at h
      · cases h
      · obtain ⟨f, hf, rfl, rfl⟩ := step_stop h
        have hsame := Machine.step_eq_of_error (congrArg Prod.fst hf)
        have hd : d' = d := congrArg Prod.snd (hf.symm.trans (hsame d))
        refine ⟨rfl, hd, ?_⟩
        intro t ht
        obtain rfl := Option.some.inj ht
        exact ⟨rfl, hsame⟩

end Loop
end ChipEight
