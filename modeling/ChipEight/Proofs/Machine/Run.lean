import ChipEight.Proofs.Machine.Effects

/-!
Runs of a machine. A path is a sequence of successful steps, each with devices of its own choice,
so it covers every behaviour of the world outside. `run` takes the devices along instead, and lets
a schedule say what is done to them before each step; it ends with the schedule or with a trap.
-/

namespace ChipEight.Machine

/-- Successful steps lead from the first machine to the last, with any devices at each step. The
list holds the machines that the steps were taken from, in order. -/
inductive Path : Machine → List Machine → Machine → Prop where
  | stay (m : Machine) : Path m [] m
  | step {m next last : Machine} {d d' : Devices} {rest : List Machine} :
      m.step d = (.ok next, d') → Path next rest last → Path m (m :: rest) last

/-- A machine that no step has been taken on: at power on or just loaded. -/
def Initial (m : Machine) : Prop :=
  m = boot ∨ ∃ program, load program = (.ok (), m)

def Reachable (m : Machine) : Prop := ∃ start passed, start.Initial ∧ Path start passed m

variable {m m' start last : Machine} {d d' : Devices} {passed later : List Machine}

theorem eq_of_initial (h : m.Initial) :
    m = boot ∨ ∃ memory, m = { boot with pc := .ofNat programStart, memory } := by
  rcases h with rfl | ⟨program, h⟩
  · exact .inl rfl
  · simp only [load] at h
    split at h
    · cases h
      exact .inr ⟨_, rfl⟩
    · cases h

theorem stack_of_initial (h : m.Initial) : m.stack = .empty := by
  rcases eq_of_initial h with rfl | ⟨memory, rfl⟩ <;> rfl

theorem Path.append (h : Path start passed m) (h' : Path m later last) :
    Path start (passed ++ later) last := by
  induction h with
  | stay _ => exact h'
  | step hs _ ih => exact .step hs (ih h')

theorem Path.keeps {P : Machine → Prop}
    (hstep : ∀ {m m' : Machine} {d d' : Devices}, P m → m.step d = (.ok m', d') → P m')
    (h : Path start passed last) (hstart : P start) : P last := by
  induction h with
  | stay _ => exact hstart
  | step hs _ ih => exact ih (hstep hstart hs)

theorem Reachable.of_initial (h : m.Initial) : m.Reachable := ⟨m, [], h, .stay m⟩

theorem Reachable.step (h : m.Reachable) (hs : m.step d = (.ok m', d')) : m'.Reachable :=
  let ⟨start, passed, hstart, hp⟩ := h
  ⟨start, passed ++ [m], hstart, hp.append (.step hs (.stay m'))⟩

theorem Reachable.induct {P : Machine → Prop} (hinit : ∀ {m : Machine}, m.Initial → P m)
    (hstep : ∀ {m m' : Machine} {d d' : Devices}, P m → m.step d = (.ok m', d') → P m')
    (h : m.Reachable) : P m :=
  let ⟨_, _, hstart, hp⟩ := h
  hp.keeps hstep (hinit hstart)

abbrev Schedule := List (Devices → Devices)

structure Standing where
  machine : Machine
  devices : Devices
  trap : Option Trap
  deriving DecidableEq

def run (m : Machine) (d : Devices) : Schedule → Standing
  | [] => ⟨m, d, none⟩
  | act :: rest =>
      match m.step (act d) with
      | (.ok next, devices) => next.run devices rest
      | (.error fault, devices) => ⟨m, devices, some ⟨m.pc, fault⟩⟩

end ChipEight.Machine
