import ChipEight.Proofs.Machine.KeyWait
import ChipEight.Proofs.Machine.Traps

/-!
Runs that go straight on. Every instruction moves the program counter forward by a word or two, but
for the four that put a new address in its place and for a key wait that is cancelled. As no word is
fetched from beyond memory, a run without these is over after as many steps as there are words ahead
of it, whatever the program writes over itself meanwhile; and a run that goes on for ever comes back
to one of these again and again.
-/

namespace ChipEight

/-- Whether the instruction leaves the program counter elsewhere than ahead. -/
def Instruction.departs (d : Devices) : Instruction → Bool
  | .jump _ | .call _ | .ret | .jumpOffset _ => true
  | .awaitKey _ => d.feed.takeAnswer.1.isNone
  | _ => false

namespace Machine

/-- Whether a step jumps, calls, returns or has its key wait cancelled. -/
def departs (m : Machine) (d : Devices) : Bool :=
  match m.next with
  | .ok i => i.departs d
  | .error _ => false

/-- The machines and devices that the steps of a run are taken from, in order. The step that faults
is none of them. -/
def taken (m : Machine) (d : Devices) : Schedule → List (Machine × Devices)
  | [] => []
  | act :: rest =>
      match m.step (act d) with
      | (.ok next, devices) => (m, act d) :: next.taken devices rest
      | (.error _, _) => []

/-- Successful steps without an end, with any devices at each. -/
def Endless (machines : Nat → Machine) (devices : Nat → Devices) : Prop :=
  ∀ n, ((machines n).step (devices n)).1 = .ok (machines (n + 1))

variable {m m' : Machine} {d d' : Devices} {i : Instruction} {schedule rest : Schedule}

theorem pc_le_of_execute (hn : m.next = .ok i) (he : m.advance.execute d i = (.ok m', d'))
    (hi : i.departs d = false) : m.advance.pc.toNat ≤ m'.pc.toNat := by
  have shape := shape_of_execute he
  cases i with
  | jump | call | ret | jumpOffset => cases hi
  | skip test =>
      rcases shape with rfl | rfl
      · exact Nat.le_refl _
      · have hpast := toNat_pc_advance hn
        have hfits : m.pc.toNat + 2 ≤ 4096 := pc_le_of_next hn
        have htwo : (2 : UInt16).toNat = 2 := rfl
        rw [pc_advance m.advance, UInt16.toNat_add, hpast, htwo]
        omega
  | awaitKey x =>
      have hstep := step_awaitKey hn d
      rw [step_of_next hn, he] at hstep
      obtain rfl : m' = m.afterWait x d.feed.takeAnswer.1 :=
        Except.ok.inj (congrArg Prod.fst hstep)
      have hanswered : d.feed.takeAnswer.1.isNone = false := hi
      cases hanswer : d.feed.takeAnswer.1 with
      | none => cases hanswer ▸ hanswered
      | some key => exact Nat.le_refl _
  | _ =>
      obtain ⟨_, rfl⟩ := shape
      exact Nat.le_refl _

/-- A step that departs nowhere finds its word in memory and ends at a later one. -/
theorem pc_lt_of_step (h : (m.step d).1 = .ok m') (hs : ¬ m.departs d) :
    m.pc.toNat + 2 ≤ memorySize ∧ m.pc.toNat + 2 ≤ m'.pc.toNat := by
  obtain ⟨i, hn, he⟩ := exists_execute_of_step (Prod.ext h rfl)
  have hi : i.departs d = false := by simpa [departs, hn] using hs
  have hpast := pc_le_of_execute hn he hi
  rw [toNat_pc_advance hn] at hpast
  exact ⟨pc_le_of_next hn, hpast⟩

/-! Runs. -/

theorem taken_of_step {act : Devices → Devices} (hs : m.step (act d) = (.ok m', d')) :
    m.taken d (act :: rest) = (m, act d) :: m'.taken d' rest := by
  simp only [taken, hs]

theorem length_taken_le (hstraight : ∀ p ∈ m.taken d schedule, ¬ p.1.departs p.2) :
    2 * (m.taken d schedule).length ≤ memorySize - m.pc.toNat := by
  induction schedule generalizing m d with
  | nil => exact Nat.zero_le _
  | cons act rest ih =>
      cases hs : m.step (act d) with
      | mk outcome devices =>
          cases outcome with
          | error f =>
              simp only [taken, hs]
              exact Nat.zero_le _
          | ok next =>
              rw [taken_of_step hs] at hstraight ⊢
              obtain ⟨hfirst, hrest⟩ := List.forall_mem_cons.mp hstraight
              obtain ⟨hfits, hahead⟩ := pc_lt_of_step (congrArg Prod.fst hs) hfirst
              have hleft := ih hrest
              rw [List.length_cons]
              omega

/-- A run without a trap takes all the steps of its schedule. -/
theorem length_taken_of_no_trap (h : (m.run d schedule).trap = none) :
    (m.taken d schedule).length = schedule.length := by
  induction schedule generalizing m d with
  | nil => rfl
  | cons act rest ih =>
      simp only [run] at h
      cases hs : m.step (act d) with
      | mk outcome devices =>
          rw [hs] at h
          cases outcome with
          | error f => cases h
          | ok next => rw [taken_of_step hs, List.length_cons, List.length_cons, ih h]

theorem Endless.pc_le {machines : Nat → Machine} {devices : Nat → Devices}
    (h : Endless machines devices) {n : Nat}
    (hstraight : ∀ k, n ≤ k → ¬ (machines k).departs (devices k)) (count : Nat) :
    (machines n).pc.toNat + 2 * count ≤ (machines (n + count)).pc.toNat := by
  induction count with
  | zero => exact Nat.le_refl _
  | succ count ih =>
      have hahead := (pc_lt_of_step (h (n + count)) (hstraight _ (Nat.le_add_right n count))).2
      rw [← Nat.add_assoc]
      omega

theorem Endless.departs_again {machines : Nat → Machine} {devices : Nat → Devices}
    (h : Endless machines devices) (n : Nat) :
    ∃ k, n ≤ k ∧ (machines k).departs (devices k) := by
  by_contra hnever
  have hstraight : ∀ k, n ≤ k → ¬ (machines k).departs (devices k) :=
    fun k hk hdeparts => hnever ⟨k, hk, hdeparts⟩
  -- after as many steps as memory has bytes, the program counter is beyond it
  have hbeyond := h.pc_le hstraight memorySize
  have hfits := (pc_lt_of_step (h (n + memorySize)) (hstraight _ (Nat.le_add_right n _))).1
  omega

/-- A program cannot run straight past the end of memory. As long as no step jumps, calls, returns
or has its key wait cancelled, a run has at most one step for every two bytes from its program
counter to the end, and with a schedule for more it ends in a trap where it stands, whatever it
stores over its own code and whatever the devices do. So a run without an end departs infinitely
often. -/
theorem straight_runs_end :
    (∀ (m : Machine) (d : Devices) (schedule : Schedule),
      (∀ p ∈ m.taken d schedule, ¬ p.1.departs p.2) →
        (m.taken d schedule).length ≤ (0x1000 - m.pc.toNat) / 2 ∧
          ((0x1000 - m.pc.toNat) / 2 < schedule.length →
            ∃ t, (m.run d schedule).trap = some t ∧ (m.run d schedule).TrappedAt t)) ∧
      ∀ (machines : Nat → Machine) (devices : Nat → Devices), Endless machines devices →
        ∀ n, ∃ k, n ≤ k ∧ (machines k).departs (devices k) := by
  refine ⟨?_, fun _ _ h n => h.departs_again n⟩
  intro m d schedule hstraight
  have hbound : 2 * (m.taken d schedule).length ≤ 0x1000 - m.pc.toNat := length_taken_le hstraight
  refine ⟨by omega, ?_⟩
  intro hlong
  cases ht : (m.run d schedule).trap with
  | none =>
      have hall := length_taken_of_no_trap ht
      omega
  | some t =>
      obtain ⟨_, _, _, _, _, _, _, htrapped⟩ := exists_of_run_trap ht
      exact ⟨t, rfl, htrapped⟩

/-- Every word of memory sets a register, and two of them are left ahead at an odd address; and a
jump to itself. -/
theorem straight_runs_end_at_odd_address :
    let m : Machine := { boot with pc := 0xFFB, memory := .replicate memorySize 0x60 }
    let schedule : Schedule := [id, id, id]
    let jumping := (load [0x12, 0x00]).2
    (m.taken .fresh schedule).length = 2 ∧
      (∀ p ∈ m.taken .fresh schedule, ¬ p.1.departs p.2) ∧
      (m.taken .fresh schedule).length ≤ (0x1000 - 0xFFB) / 2 ∧
      (∃ t, (m.run .fresh schedule).trap = some t ∧ (m.run .fresh schedule).TrappedAt t) ∧
      Endless (fun _ => jumping) (fun _ => .fresh) ∧
      ∃ k, 9 ≤ k ∧ jumping.departs .fresh := by
  intro m schedule jumping
  have hpc : m.pc.toNat = 0xFFB := rfl
  have hstraight : (m.taken .fresh schedule).length = 2 ∧
      ∀ p ∈ m.taken .fresh schedule, ¬ p.1.departs p.2 := by decide +kernel
  have hnext : jumping.next = .ok (.jump 0x200) := by decide +kernel
  have hendless : Endless (fun _ => jumping) (fun _ => .fresh) :=
    fun _ => congrArg Prod.fst (step_of_next hnext .fresh)
  obtain ⟨hends, hdeparts⟩ := straight_runs_end
  obtain ⟨hshort, htrap⟩ := hends m .fresh schedule hstraight.2
  rw [hpc] at hshort htrap
  exact ⟨hstraight.1, hstraight.2, hshort, htrap (by decide), hendless,
    hdeparts _ _ hendless 9⟩

end Machine
end ChipEight
