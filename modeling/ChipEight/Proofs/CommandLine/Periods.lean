import ChipEight.CommandLine.Headless
import ChipEight.Proofs.Console.History

/-!
Turns that may be left out. A loop that has settled stays as it is turn after turn, so a period that
leaves out the turns from then on comes to what all the turns come to.
-/

namespace ChipEight

theorem Console.next_of_spins {m : Machine} (h : spins m) : m.next = .ok (.jump m.pc) := by
  simp only [spins] at h
  split at h
  · rename_i target hn
    obtain rfl := beq_iff_eq.mp h
    exact hn
  · cases h

namespace Loop

variable {l : Loop}

theorem turn_of_spins (hp : l.parked = none) (hs : Console.spins l.machine) (d : Devices) :
    l.turn false d = (.goOn l, d) := by
  have hn := Console.next_of_spins hs
  have hw : ¬ awaitsKey l.machine := by simp [awaitsKey, hn]
  have hstep : l.machine.step d = (.ok l.machine, d) := Machine.step_of_next hn d
  have hsame : ofMachine l.machine = l := by rw [ofMachine, ← hp]
  rw [turn_of_unparked hp, if_neg hw]
  simp only [step, hstep, hsame]

end Loop

namespace Console

variable {c : Console}

theorem turn_of_settled (h : c.settled) : c.turn false = c := by
  cases hl : c.loop with
  | none => exact turn_of_idle hl false
  | some l =>
      simp only [settled, hl] at h
      have hturn : l.turn false c.devices = (.goOn l, c.devices) := by
        cases hp : l.parked with
        | none =>
            simp only [hp] at h
            exact Loop.turn_of_spins hp h c.devices
        | some before =>
            simp only [hp, Option.isNone_iff_eq_none] at h
            rw [Loop.turn_of_parked hp, h]
      rw [turn_of_goOn hl hturn, ← hl]

theorem turns_of_settled (h : c.settled) (n : Nat) : c.turns n = c := by
  induction n with
  | zero => rfl
  | succ n ih => rw [turns, turn_of_settled h, ih]

end Console

namespace CommandLine.Headless

theorem console_pass (h : Headless) : h.pass.console = h.console.tick.turns h.allowance := by
  simp only [pass]
  split
  · rename_i hsettled
    exact (Console.turns_of_settled hsettled _).symm
  · rfl

end CommandLine.Headless
end ChipEight
