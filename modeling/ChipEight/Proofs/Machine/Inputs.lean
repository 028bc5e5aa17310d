import ChipEight.Proofs.Devices.Touch
import ChipEight.Proofs.Machine.Faults
import ChipEight.Proofs.Machine.Run

/-!
Where input from outside reaches a machine. Five instructions listen: the two key skips, the key
wait, the delay timer's reading and the random byte. The others see of the devices only the frame,
which a draw reads back in its collision flag, and whether a step faults is never theirs to say. So
a run that completes no listening instruction goes the same way whatever the devices hold and
whatever is done to them between its steps.
-/

namespace ChipEight

open Devices (Touch)

/-- A random byte that is masked to nothing tells nothing. -/
def Instruction.listens : Instruction → Bool
  | .skip (.keyDown _) | .skip (.keyUp _) | .readDelay _ | .awaitKey _ => true
  | .random _ mask => mask ≠ 0
  | _ => false

namespace Machine

variable {m : Machine} {d₁ d₂ : Devices} {i : Instruction}

/-- The devices agree in what a machine sees of them without listening. -/
def SameFrame (d₁ d₂ : Devices) : Prop := d₁.screen.frame = d₂.screen.frame

theorem SameFrame.touches (h : SameFrame d₁ d₂) (events₁ events₂ : List Touch) :
    SameFrame (d₁.touches events₁) (d₂.touches events₂) := by
  rw [SameFrame, Devices.frame_touches, Devices.frame_touches]
  exact h

theorem SameFrame.execute (h : SameFrame d₁ d₂) (m : Machine) (hi : ¬ i.listens) :
    (m.execute d₁ i).1 = (m.execute d₂ i).1 ∧
      SameFrame (m.execute d₁ i).2 (m.execute d₂ i).2 := by
  cases i with
  | clearScreen => exact ⟨rfl, rfl⟩
  | skip test =>
      cases test with
      | keyDown x | keyUp x => exact absurd rfl hi
      | _ => exact ⟨rfl, h⟩
  | random x mask =>
      obtain rfl : mask = 0 := by simpa [Instruction.listens] using hi
      refine ⟨?_, h⟩
      simp only [Machine.execute, UInt8.and_zero]
  | draw x y rows =>
      simp only [Machine.execute]
      cases m.memory.slice m.index.toNat rows.toNat with
      | error f => exact ⟨rfl, h⟩
      | ok sprite =>
          have hdraw : d₁.screen.draw (m.register x) (m.register y) sprite =
              d₂.screen.draw (m.register x) (m.register y) sprite := by
            rw [SameFrame] at h
            simp only [Screen.draw, h]
          refine ⟨congrArg (fun drawn => Except.ok (m.setFlag drawn.2)) hdraw, ?_⟩
          exact congrArg (fun drawn : Screen × Bool => drawn.1.frame) hdraw
  | readDelay x | awaitKey x => exact absurd rfl hi
  | _ => exact ⟨rfl, h⟩

theorem SameFrame.step (h : SameFrame d₁ d₂) (hn : m.next = .ok i) (hi : ¬ i.listens) :
    (m.step d₁).1 = (m.step d₂).1 ∧ SameFrame (m.step d₁).2 (m.step d₂).2 := by
  rw [step_of_next hn, step_of_next hn]
  exact h.execute m.advance hi

/-- Before its `k`-th step a run is touched by the `k`-th list. -/
def schedule (touches : List (List Touch)) : Schedule :=
  touches.map fun events d => d.touches events

/-- The instructions that a run completes, in order. -/
def completes (m : Machine) (d : Devices) : Schedule → List Instruction
  | [] => []
  | act :: rest =>
      match m.next, m.step (act d) with
      | .ok i, (.ok next, devices) => i :: next.completes devices rest
      | _, _ => []

theorem completes_of_step {next : Machine} {d devices : Devices} {act : Devices → Devices}
    {rest : Schedule} (hn : m.next = .ok i) (hs : m.step (act d) = (.ok next, devices)) :
    m.completes d (act :: rest) = i :: next.completes devices rest := by
  rw [completes, hn, hs]

/-- Two runs stand at the same machine and frame, and have met the same trap or none. -/
structure Standing.Same (s t : Standing) : Prop where
  machine : s.machine = t.machine
  frame : SameFrame s.devices t.devices
  trap : s.trap = t.trap

theorem SameFrame.run (h : SameFrame d₁ d₂) {touches₁ touches₂ : List (List Touch)}
    (hlength : touches₁.length = touches₂.length)
    (hdeaf : ∀ i ∈ m.completes d₁ (schedule touches₁), ¬ i.listens) :
    (m.run d₁ (schedule touches₁)).Same (m.run d₂ (schedule touches₂)) := by
  induction touches₁ generalizing m d₁ d₂ touches₂ with
  | nil =>
      obtain rfl := List.eq_nil_of_length_eq_zero hlength.symm
      exact ⟨rfl, h, rfl⟩
  | cons events₁ rest₁ ih =>
      cases touches₂ with
      | nil => cases hlength
      | cons events₂ rest₂ =>
          have htouched := h.touches events₁ events₂
          simp only [schedule, List.map_cons, Machine.run] at hdeaf ⊢
          cases hs : m.step (d₁.touches events₁) with
          | mk outcome devices₁ =>
              cases outcome with
              | error f =>
                  -- a fault is the machine's own, so no instruction has to be deaf here
                  have hfault := congrArg Prod.fst hs
                  obtain rfl : devices₁ = d₁.touches events₁ :=
                    (congrArg Prod.snd hs).symm.trans (devices_of_step_error hfault)
                  rw [step_eq_of_error hfault (d₂.touches events₂)]
                  exact ⟨rfl, htouched, rfl⟩
              | ok next =>
                  obtain ⟨i, hn, _⟩ := exists_execute_of_step hs
                  rw [completes_of_step hn hs] at hdeaf
                  obtain ⟨hi, hrest⟩ := List.forall_mem_cons.mp hdeaf
                  obtain ⟨hsame, hframe⟩ := htouched.step hn hi
                  rw [hs] at hsame hframe
                  have hs₂ : m.step (d₂.touches events₂) =
                      (.ok next, (m.step (d₂.touches events₂)).2) := Prod.ext hsame.symm rfl
                  rw [hs₂]
                  exact ih hframe (Nat.succ.inj hlength) hrest

/-- Input from outside reaches a program through the listening instructions only: as long as one of
two runs from the same machine completes none of them, both stand at the same machine with the same
frame after each step, and stop at the same step with the same trap. Only the frames have to agree
at the start, and the touches between the steps, the ticks among them, may differ at will. -/
theorem run_without_listening (m : Machine) (d₁ d₂ : Devices)
    (hframe : d₁.screen.frame = d₂.screen.frame) (touches₁ touches₂ : List (List Touch))
    (hlength : touches₁.length = touches₂.length) (n : Nat)
    (hdeaf : ∀ i ∈ m.completes d₁ (schedule (touches₁.take n)), ¬ i.listens) :
    (m.run d₁ (schedule (touches₁.take n))).Same (m.run d₂ (schedule (touches₂.take n))) := by
  have htake : (touches₁.take n).length = (touches₂.take n).length := by
    rw [List.length_take, List.length_take, hlength]
  exact SameFrame.run hframe htake hdeaf

/-- A sprite is drawn and erased, with a key held and a tick before each step, and undisturbed. -/
theorem run_without_listening_drawing :
    let m := (load [0x60, 0x05, 0xD0, 0x05, 0xD0, 0x05]).2
    let busy : List (List Touch) := [[.press 3, .tick], [.tick], [.takeFrame, .tick]]
    (∀ i ∈ m.completes .fresh (schedule (busy.take 3)), ¬ i.listens) ∧
      (m.run .fresh (schedule busy)).Same (m.run .fresh (schedule [[], [], []])) := by
  intro m busy
  have hdeaf : ∀ i ∈ m.completes .fresh (schedule (busy.take 3)), ¬ i.listens := by
    decide +kernel
  exact ⟨hdeaf, run_without_listening m .fresh .fresh rfl busy [[], [], []] rfl 3 hdeaf⟩

end Machine
end ChipEight
