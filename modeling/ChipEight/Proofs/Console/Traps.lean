import ChipEight.Monitor
import ChipEight.Proofs.Console.History
import ChipEight.Proofs.Machine.Traps

/-!
A step that faults is atomic over machine and devices, and so is the last step of every run that a
trap ends: a run of steps under any schedule, or the turns of a loop at any moment in the history
of its console.
-/

namespace ChipEight

namespace Console

variable {c : Console} {l : Loop} {t : Trap}

/-- What a loop leaves behind when a trap stops it: its machine, the devices of its last turn, and
a trap that the machine meets again. -/
structure LeftBy (l : Loop) (d : Devices) (t : Trap) (c : Console) : Prop where
  resting : c.resting = some l.machine
  devices : c.devices = d
  address : t.address = l.machine.pc
  again : ∀ d, l.machine.step d = (.error t.fault, d)

theorem leftBy_of_turn (hc : c.Sane) (hl : c.loop = some l) {cancelled : Bool}
    (hstop : (c.turn cancelled).loop = none) (ht : (c.turn cancelled).trap = some t) :
    LeftBy l c.devices t (c.turn cancelled) := by
  cases hturn : l.turn cancelled c.devices with
  | mk outcome devices =>
      cases outcome with
      | goOn next =>
          rw [turn_of_goOn hl hturn] at hstop
          cases hstop
      | stop m trap =>
          rw [turn_of_stop hl hturn] at ht ⊢
          obtain ⟨rfl, rfl, htrap⟩ := Loop.turn_stop (hc.parks l hl) hturn
          obtain ⟨haddress, hagain⟩ := htrap t ht
          exact ⟨rfl, rfl, haddress, hagain⟩

theorem turns_of_idle (hl : c.loop = none) (n : Nat) : c.turns n = c := by
  induction n with
  | zero => rfl
  | succ n ih => rw [turns, turn_of_idle hl, ih]

/-- The turns up to a trap: all but one of them went on, and the last changed nothing. -/
theorem exists_leftBy_of_turns (hc : c.Sane) (hl : c.loop = some l) {n : Nat}
    (hstop : (c.turns n).loop = none) (ht : (c.turns n).trap = some t) :
    ∃ k l', k < n ∧ (c.turns k).loop = some l' ∧
      LeftBy l' (c.turns k).devices t (c.turns n) := by
  induction n generalizing c l with
  | zero => cases hl.symm.trans hstop
  | succ n ih =>
      rw [turns] at hstop ht
      cases hnext : (c.turn false).loop with
      | some next =>
          obtain ⟨k, l', hk, hrun, hleft⟩ := ih (hc.turn false) hnext hstop ht
          exact ⟨k + 1, l', by omega, hrun, hleft⟩
      | none =>
          rw [turns_of_idle hnext] at ht
          rw [turns, turns_of_idle hnext]
          exact ⟨0, l, by omega, hl, leftBy_of_turn hc hl hnext ht⟩

end Console

namespace Monitor

theorem step_error {s s' : Monitor} {t : Trap} (h : s.step = (.error t, s')) :
    s' = s ∧ t.address = s.machine.pc ∧ ∀ d, s.machine.step d = (.error t.fault, d) := by
  simp only [step] at h
  cases hn : s.machine.next with
  | error f =>
      rw [hn] at h
      cases h
      exact ⟨rfl, rfl, Machine.step_of_next_error hn⟩
  | ok i =>
      simp only [hn, carryOut] at h
      split at h
      · cases h
      · rename_i f devices hx
        cases h
        have hfault := (Machine.decides_execute _ _ _ f).mp (congrArg Prod.fst hx)
        -- nobody attends to an instruction that faults: it is no key wait
        have hattend : attend s.devices i = s.devices := by
          cases i with
          | awaitKey x => cases hfault
          | _ => rfl
        have hd := Machine.devices_of_execute_error (congrArg Prod.fst hx)
        rw [hx, hattend] at hd
        obtain rfl : devices = s.devices := hd
        refine ⟨rfl, rfl, ?_⟩
        intro d
        apply Machine.step_eq_of_error
        rw [Machine.step_of_next hn]
        exact (Machine.decides_execute _ s.devices i f).mpr hfault

end Monitor

/-- A fault leaves no trace: not after a single step, nor after a run under any schedule, nor after
the turns of a loop at any moment of its console's history. Each ends with the machine and the
devices of its last step that succeeded, at the address of the trap, and meets the trap again. -/
theorem faults_leave_no_trace :
    (∀ (m : Machine) d f d', m.step d = (.error f, d') → d' = d) ∧
      (∀ (s : Monitor) t s', s.step = (.error t, s') → s' = s ∧ t.address = s.machine.pc) ∧
      (∀ (m : Machine) d schedule t, (m.run d schedule).trap = some t →
        ∃ taken act rest, schedule = taken ++ act :: rest ∧
          (m.run d taken).trap = none ∧
          (m.run d schedule).machine = (m.run d taken).machine ∧
          (m.run d schedule).devices = act (m.run d taken).devices ∧
          (m.run d schedule).TrappedAt t) ∧
      ∀ (c : Console) l n t, c.Reachable → c.loop = some l →
        (c.turns n).loop = none → (c.turns n).trap = some t →
          ∃ k l', k < n ∧ (c.turns k).loop = some l' ∧
            Console.LeftBy l' (c.turns k).devices t (c.turns n) := by
  refine ⟨?_, ?_, fun _ _ _ _ => Machine.exists_of_run_trap, ?_⟩
  · intro m d f d' h
    have hd := Machine.devices_of_step_error (congrArg Prod.fst h)
    rwa [h] at hd
  · intro s t s' h
    obtain ⟨hs, haddress, _⟩ := Monitor.step_error h
    exact ⟨hs, haddress⟩
  · intro c l n t hc hl hstop ht
    exact Console.exists_leftBy_of_turns hc.sane hl hstop ht

/-- A return with nothing to return to. -/
theorem faults_leave_no_trace_on_empty_stack :
    (Machine.load [0x00, 0xEE]).2.step .fresh = (.error .stackUnderflow, .fresh) ∧
      ((Machine.load [0x00, 0xEE]).2.run .fresh [id]).TrappedAt ⟨0x200, .stackUnderflow⟩ :=
  have hstep : (Machine.load [0x00, 0xEE]).2.step .fresh = (.error .stackUnderflow, .fresh) := by
    decide +kernel
  have htrap : ((Machine.load [0x00, 0xEE]).2.run .fresh [id]).trap =
      some ⟨0x200, .stackUnderflow⟩ := by
    decide +kernel
  have hsame := faults_leave_no_trace.1 _ _ _ _ hstep
  have hrun := faults_leave_no_trace.2.2.1 _ _ _ _ htrap
  ⟨hsame ▸ hstep, let ⟨_, _, _, _, _, _, _, hat⟩ := hrun; hat⟩

end ChipEight
