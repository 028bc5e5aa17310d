import ChipEight.Console.Call
import ChipEight.Proofs.Console.Turns
import ChipEight.Proofs.Machine.Run

/-!
Histories of a console: calls of its callers among the turns of its loop, with the random bytes
that the world supplies. Between any two of them the machine that the console or its loop holds is
one that a run of steps comes to, however often the loop was halted and started again.
-/

namespace ChipEight.Console

inductive Event where
  | call (call : Call)
  /-- A turn of the loop, which may see that it was cancelled. -/
  | turn (cancelled : Bool)
  | supply (random : List UInt8)

def handle (c : Console) : Event → Console
  | .call call => (c.perform call).2
  | .turn cancelled => c.turn cancelled
  | .supply random => { c with devices.feed.random := random }

inductive Reachable : Console → Prop where
  | new : Reachable new
  | event {c : Console} (event : Event) : Reachable c → Reachable (c.handle event)

/-- The machine is at rest in the console or in the hands of its loop. -/
def Holds (c : Console) (m : Machine) : Prop :=
  c.resting = some m ∨ ∃ l, c.loop = some l ∧ l.machine = m

structure Sane (c : Console) : Prop where
  holds : ∀ m, c.Holds m → m.Reachable
  parks : ∀ l, c.loop = some l → l.ParksAtWaits

variable {c : Console}

theorem Sane.of_eq {c' : Console} (h : c.Sane) (hr : c'.resting = c.resting)
    (hl : c'.loop = c.loop) : c'.Sane := by
  refine ⟨?_, ?_⟩
  · intro m hm
    apply h.holds m
    rwa [Holds, hr, hl] at hm
  · intro l hl'
    exact h.parks l (hl ▸ hl')

theorem sane_of_rest {m : Machine} (hm : m.Reachable) (hr : c.resting = some m)
    (hl : c.loop = none) : c.Sane := by
  refine ⟨?_, ?_⟩
  · rintro m' (hm' | ⟨l, hl', _⟩)
    · obtain rfl := Option.some.inj (hr.symm.trans hm')
      exact hm
    · cases hl.symm.trans hl'
  · intro l hl'
    cases hl.symm.trans hl'

theorem Sane.withLoop {c' : Console} {l : Loop} (h : c.Sane) (hr : c'.resting = c.resting)
    (hl : c'.loop = some l) (hm : l.machine.Reachable) (hp : l.ParksAtWaits) : c'.Sane := by
  refine ⟨?_, ?_⟩
  · rintro m (hm' | ⟨l', hl', rfl⟩)
    · exact h.holds m (.inl (hr ▸ hm'))
    · obtain rfl := Option.some.inj (hl.symm.trans hl')
      exact hm
  · intro l' hl'
    obtain rfl := Option.some.inj (hl.symm.trans hl')
    exact hp

theorem sane_new : new.Sane :=
  sane_of_rest (.of_initial (.inl rfl)) rfl rfl

theorem turn_of_idle (hl : c.loop = none) (cancelled : Bool) : c.turn cancelled = c := by
  simp only [Console.turn, hl]

theorem turn_of_goOn {l next : Loop} {d : Devices} {cancelled : Bool} (hl : c.loop = some l)
    (ht : l.turn cancelled c.devices = (.goOn next, d)) :
    c.turn cancelled = { c with loop := some next, devices := d } := by
  simp only [Console.turn, hl, ht]

theorem turn_of_stop {l : Loop} {m : Machine} {trap : Option Trap} {d : Devices}
    {cancelled : Bool} (hl : c.loop = some l)
    (ht : l.turn cancelled c.devices = (.stop m trap, d)) :
    c.turn cancelled = { c with devices := d }.handBack m trap := by
  simp only [Console.turn, hl, ht]

theorem Sane.turn (h : c.Sane) (cancelled : Bool) : (c.turn cancelled).Sane := by
  cases hloop : c.loop with
  | none => rwa [turn_of_idle hloop]
  | some l =>
      have hl := h.parks l hloop
      have hm := h.holds l.machine (.inr ⟨l, hloop, rfl⟩)
      cases ht : l.turn cancelled c.devices with
      | mk outcome devices =>
          cases outcome with
          | goOn next =>
              obtain ⟨hparks, hnext⟩ := Loop.turn_goOn hl ht
              have hreach : next.machine.Reachable := by
                rcases hnext with hsame | ⟨d, hstep⟩
                · rwa [hsame]
                · exact hm.step hstep
              rw [turn_of_goOn hloop ht]
              exact h.withLoop rfl rfl hreach hparks
          | stop m trap =>
              obtain ⟨rfl, _, _⟩ := Loop.turn_stop hl ht
              rw [turn_of_stop hloop ht]
              exact sane_of_rest hm rfl rfl

theorem Sane.stop (h : c.Sane) : c.stop.Sane := (h.turn true).turn true

theorem Sane.start (h : c.Sane) : c.start.2.Sane := by
  simp only [Console.start]
  split
  · exact h
  · split
    · rename_i m _ hr
      have hm := h.holds m (.inl hr)
      refine ⟨?_, ?_⟩
      · rintro m' (hm' | ⟨l, hl, rfl⟩)
        · cases hm'
        · obtain rfl := Option.some.inj hl
          exact hm
      · intro l hl
        obtain rfl := Option.some.inj hl
        exact Loop.parksAtWaits_ofMachine m
    · exact h.of_eq rfl rfl

theorem Sane.wipe (h : c.Sane) : c.wipe.Sane := by
  refine ⟨?_, h.parks⟩
  rintro m (hm | hl)
  · obtain rfl := Option.some.inj hm
    exact .of_initial (.inl rfl)
  · exact h.holds m (.inr hl)

theorem reachable_load (program : List UInt8) : (Machine.load program).2.Reachable := by
  apply Machine.Reachable.of_initial
  by_cases hfits : program.length ≤ maxProgramSize
  · refine .inr ⟨program, ?_⟩
    simp only [Machine.load, if_pos hfits]
  · refine .inl ?_
    simp only [Machine.load, if_neg hfits]

theorem Sane.install (h : c.Sane) (program : List UInt8) : (c.install program).2.Sane := by
  refine ⟨?_, h.parks⟩
  rintro m (hm | hl)
  · obtain rfl := Option.some.inj hm
    exact reachable_load program
  · exact h.holds m (.inr hl)

theorem Sane.perform (h : c.Sane) (call : Call) : (c.perform call).2.Sane := by
  cases call with
  | load program => exact h.stop.install program
  | run => exact h.start
  | halt => exact h.stop.of_eq rfl rfl
  | wait =>
      simp only [Console.perform]
      split
      · exact h
      · exact h.of_eq rfl rfl
  | reset => exact h.stop.wipe
  | press | release | tick | takeFrame => exact h.of_eq rfl rfl
  | display | dump => exact h

theorem Reachable.sane (h : c.Reachable) : c.Sane := by
  induction h with
  | new => exact sane_new
  | event event _ ih =>
      cases event with
      | call call => exact ih.perform call
      | turn cancelled => exact ih.turn cancelled
      | supply random => exact ih.of_eq rfl rfl

/-- Every machine of every run is within the bounds: runs of steps with any devices at each, and
what a console holds at any moment of its history. So no sum and no index of a step can fail, and a
step yields a machine of the same kind or one of the faults. -/
theorem machines_within_bounds :
    (∀ m : Machine, m.Reachable →
      m.Sound ∧ m.pc.toNat + 2 < 0x10000 ∧ m.stack.live.length = m.stack.depth ∧
        (∀ w, m.fetch = .ok w → ∀ n ∈ w.nibbles, n < registerCount) ∧
        (∀ i, m.next = .ok i → i.Fits m.advance) ∧
        ∀ d, (∃ next, (m.step d).1 = .ok next ∧ next.Reachable) ∨
          ∃ fault, (m.step d).1 = .error fault) ∧
      ∀ c : Console, c.Reachable → ∀ m, c.Holds m → m.Reachable := by
  refine ⟨?_, fun c hc => hc.sane.holds⟩
  intro m h
  have hm := h.sound
  refine ⟨hm, ?_, CallStack.length_live hm.depth_le, ?_, ?_, ?_⟩
  · have hpc := hm.pc_le
    omega
  · intro w _ n hn
    exact w.nibbles_lt n hn
  · intro i hn
    obtain ⟨w, _, hw⟩ := Machine.next_eq_ok hn
    exact (hm.advance hn).1.fits hw
  · intro d
    cases hs : m.step d with
    | mk outcome devices =>
        cases outcome with
        | ok next => exact .inl ⟨next, rfl, h.step hs⟩
        | error fault => exact .inr ⟨fault, rfl⟩

/-- The machine at power on, and one in the hands of a loop. -/
theorem machines_within_bounds_at_start :
    Machine.boot.Reachable ∧ Machine.boot.Sound ∧
      ((new.handle (.call (.load [0x12, 0x00]))).handle (.call .run)).Reachable :=
  have hboot : Machine.boot.Reachable := .of_initial (.inl rfl)
  ⟨hboot, (machines_within_bounds.1 Machine.boot hboot).1, .event _ (.event _ .new)⟩

end ChipEight.Console
