import ChipEight.Proofs.Machine.Footprint
import ChipEight.Proofs.Machine.Inputs
import ChipEight.Proofs.Machine.KeyWait

/-!
Runs on devices that nobody attends to: no key was ever pressed and no timer was started. To every
instruction that keeps no random bits such devices are all the same as long as they show the same
frame, and every instruction that starts no timer leaves them so. A run that ends in a trap on them
has come to no key wait, for it would still be there.
-/

namespace ChipEight

open Devices (Touch)

/-- Starts a timer, or keeps bits of a random byte. -/
def Instruction.unsettles : Instruction → Bool
  | .setDelay _ | .setSound _ => true
  | .random _ mask => mask ≠ 0
  | _ => false

namespace Devices

variable {d : Devices} {event : Touch}

/-- Only the screen and the random bytes are left open. -/
structure Unattended (d : Devices) : Prop where
  keypad : d.keypad = .untouched
  timers : d.timers = .zero
  answers : d.feed.answers = []

theorem releaseKey_untouched (key : Key) : Keypad.untouched.releaseKey key = .untouched := by
  simp only [Keypad.releaseKey, Keypad.untouched, Vector.set_replicate_self]

theorem Unattended.touch (h : d.Unattended) (hkey : ∀ byte, event ≠ .press byte) :
    (d.touch event).Unattended := by
  cases event with
  | press byte => exact absurd rfl (hkey byte)
  | release byte =>
      refine ⟨?_, h.timers, h.answers⟩
      simp only [Devices.touch, release, Keypad.release, h.keypad]
      cases Key.ofByte byte with
      | ok key => exact releaseKey_untouched key
      | error f => rfl
  | tick =>
      refine ⟨h.keypad, ?_, h.answers⟩
      simp only [Devices.touch, Devices.tick, h.timers]
      rfl
  | takeFrame | supply random => exact ⟨h.keypad, h.timers, h.answers⟩

end Devices

namespace Machine

variable {m next : Machine} {d d' d₁ d₂ : Devices} {i : Instruction} {t : Trap}

theorem unattended_of_step (h : d.Unattended) (hn : m.next = .ok i) (hi : ¬ i.unsettles)
    (hs : m.step d = (.ok next, d')) : d'.Unattended := by
  have hx : m.advance.execute d i = (.ok next, d') := step_of_next hn d ▸ hs
  have hkeypad := keypad_of_step m d
  have hanswers := answers_of_step (m := m) h.answers
  rw [hs] at hkeypad hanswers
  have hdelay : d'.timers.delay = d.timers.delay := by
    apply delay_of_execute hx
    rintro x rfl
    exact hi rfl
  have hsound : d'.timers.sound = d.timers.sound := by
    apply sound_of_execute hx
    rintro x rfl
    exact hi rfl
  refine ⟨hkeypad.trans h.keypad, ?_, hanswers⟩
  calc
    d'.timers = ⟨d'.timers.delay, d'.timers.sound⟩ := rfl
    _ = d.timers := by rw [hdelay, hsound]
    _ = .zero := h.timers

/-- A listening instruction hears the same nothing from both. -/
theorem SameFrame.execute_unattended (h : SameFrame d₁ d₂) (h₁ : d₁.Unattended)
    (h₂ : d₂.Unattended) (m : Machine) (hi : ¬ i.unsettles) :
    (m.execute d₁ i).1 = (m.execute d₂ i).1 ∧
      SameFrame (m.execute d₁ i).2 (m.execute d₂ i).2 := by
  cases i with
  | skip test =>
      refine ⟨?_, h⟩
      simp only [Machine.execute, h₁.keypad, h₂.keypad]
  | readDelay x =>
      refine ⟨?_, h⟩
      simp only [Machine.execute, h₁.timers, h₂.timers]
  | awaitKey x =>
      simp only [Machine.execute, Feed.takeAnswer, h₁.answers, h₂.answers]
      exact ⟨trivial, h⟩
  | random x mask => exact h.execute m hi
  | _ => exact h.execute m Bool.false_ne_true

/-- Unattended devices that show the same frame; nothing that settles tells them apart. -/
structure LookAlike (d₁ d₂ : Devices) : Prop where
  left : d₁.Unattended
  right : d₂.Unattended
  frame : SameFrame d₁ d₂

theorem LookAlike.touch (h : LookAlike d₁ d₂) {event : Touch}
    (hkey : ∀ byte, event ≠ .press byte) : LookAlike (d₁.touch event) d₂ :=
  ⟨h.left.touch hkey, h.right, (Devices.frame_touch d₁ event).trans h.frame⟩

theorem LookAlike.step (h : LookAlike d₁ d₂) (hn : m.next = .ok i) (hi : ¬ i.unsettles)
    (hs : m.step d₂ = (.ok next, d')) :
    ∃ d, m.step d₁ = (.ok next, d) ∧ LookAlike d d' := by
  obtain ⟨hsame, hframe⟩ := h.frame.execute_unattended h.left h.right m.advance hi
  rw [← step_of_next hn, ← step_of_next hn, hs] at hsame hframe
  have hs₁ : m.step d₁ = (.ok next, (m.step d₁).2) := Prod.ext hsame rfl
  refine ⟨_, hs₁, ?_⟩
  exact ⟨unattended_of_step h.left hn hi hs₁, unattended_of_step h.right hn hi hs, hframe⟩

/-! Runs that end in a trap. -/

theorem not_trap_of_awaitKey {x : Register} (hn : m.next = .ok (.awaitKey x))
    (hd : d.feed.answers = []) (n : Nat) : (m.run d (.replicate n id)).trap = none := by
  have hs : m.step d = (.ok m, d) := by
    rw [step_awaitKey hn]
    simp only [Feed.takeAnswer, hd]
    rfl
  induction n with
  | zero => rfl
  | succ n ih =>
      simp only [List.replicate_succ, run, id_eq, hs]
      exact ih

/-- A run that has met its trap goes no further. -/
theorem run_append_of_trap {first : Schedule} (h : (m.run d first).trap = some t)
    (later : Schedule) : m.run d (first ++ later) = m.run d first := by
  induction first generalizing m d with
  | nil => cases h
  | cons act rest ih =>
      simp only [List.cons_append, run] at h ⊢
      cases hs : m.step (act d) with
      | mk outcome devices =>
          cases outcome with
          | ok next =>
              simp only [hs] at h ⊢
              exact ih h
          | error f => rfl

/-- All runs of single steps that meet a trap meet the same. -/
theorem run_eq_of_traps {k n : Nat} {t' : Trap}
    (hk : (m.run d (.replicate k id)).trap = some t)
    (hn : (m.run d (.replicate n id)).trap = some t') :
    m.run d (.replicate k id) = m.run d (.replicate n id) := by
  rcases Nat.le_total k n with hle | hle
  · obtain ⟨more, rfl⟩ := Nat.exists_eq_add_of_le hle
    rw [List.replicate_add, run_append_of_trap hk]
  · obtain ⟨more, rfl⟩ := Nat.exists_eq_add_of_le hle
    rw [List.replicate_add, run_append_of_trap hn]

end Machine
end ChipEight
