import ChipEight.Proofs.Machine.Faults
import ChipEight.Proofs.Machine.Run

/-!
Runs that end in a trap. The faulting step leaves no trace: machine and devices are those of the
last step that succeeded, and the machine faults again wherever it is stepped.
-/

namespace ChipEight.Machine

variable {m : Machine} {d : Devices} {t : Trap} {schedule : Schedule}

def Standing.TrappedAt (s : Standing) (t : Trap) : Prop :=
  t.address = s.machine.pc ∧ ∀ d, s.machine.step d = (.error t.fault, d)

/-- A trapped run is a run without a trap, of a shorter schedule, and then one step that changes
nothing but what the schedule does to the devices. -/
theorem exists_of_run_trap (h : (m.run d schedule).trap = some t) :
    ∃ taken act rest, schedule = taken ++ act :: rest ∧
      (m.run d taken).trap = none ∧
      (m.run d schedule).machine = (m.run d taken).machine ∧
      (m.run d schedule).devices = act (m.run d taken).devices ∧
      (m.run d schedule).TrappedAt t := by
  induction schedule generalizing m d with
  | nil => cases h
  | cons act rest ih =>
      simp only [run] at h ⊢
      cases hs : m.step (act d) with
      | mk outcome devices =>
          cases outcome with
          | ok next =>
              simp only [hs] at h ⊢
              obtain ⟨taken, last, left, hsched, hrun⟩ := ih h
              refine ⟨act :: taken, last, left, ?_, ?_⟩
              · rw [hsched, List.cons_append]
              · simpa only [run, hs] using hrun
          | error f =>
              simp only [hs] at h ⊢
              obtain rfl := Option.some.inj h
              have hsame := step_eq_of_error (congrArg Prod.fst hs)
              have hd : devices = act d := congrArg Prod.snd (hs.symm.trans (hsame (act d)))
              exact ⟨[], act, rest, rfl, rfl, rfl, hd, rfl, hsame⟩

end ChipEight.Machine
