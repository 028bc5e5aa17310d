import ChipEight.Proofs.Machine.Bounds

/-!
Which steps fault, and with which fault. `Machine.fault?` says it of the machine alone, by the
pattern of the word at the program counter; no device has a part in it.
-/

namespace ChipEight

/-- A result fails exactly with the given fault, and succeeds if there is none. -/
def Decides {α : Type} (fault : Option Fault) (result : Except Fault α) : Prop :=
  ∀ f, result = .error f ↔ fault = some f

namespace Decides

variable {α β : Type} {fault : Option Fault} {result : Except Fault α}

theorem map (h : Decides fault result) (next : α → β) : Decides fault (result.map next) :=
  fun f => map_eq_error_iff.trans (h f)

theorem of_ok (a : α) : Decides none (.ok a) := by
  intro f
  constructor <;> intro h <;> cases h

theorem of_error (f : Fault) : Decides (some f) (.error f : Except Fault α) := by
  intro g
  rw [Except.error.injEq, Option.some.injEq]

theorem succeeds_iff (h : Decides fault result) : (∃ a, result = .ok a) ↔ fault = none := by
  cases result with
  | ok a =>
      have hnone : fault = none := by
        cases hf : fault with
        | none => rfl
        | some f => exact nomatch (h f).mpr hf
      exact ⟨fun _ => hnone, fun _ => ⟨a, rfl⟩⟩
  | error f =>
      have hsome := (h f).mp rfl
      constructor
      · rintro ⟨a, ha⟩
        cases ha
      · intro hnone
        rw [hnone] at hsome
        cases hsome

end Decides

namespace Machine

def rangeFault? (m : Machine) (count : Nat) : Option Fault :=
  if memorySize < m.index.toNat + count then some (.memoryOutOfBounds m.index.toNat) else none

def keyFault? (m : Machine) (x : Register) : Option Fault :=
  if keyCount ≤ (m.register x).toNat then some (.invalidKeyIndex (m.register x)) else none

/-- The fault of a step on the word `w`, in the order of the tests. -/
def wordFault? (m : Machine) (w : Word) : Option Fault :=
  if w.IsLegacyCall then some (.unsupportedLegacyCall w)
  else if ¬ w.IsInstruction then some (.invalidInstruction w)
  else if w.Matches (.single 0xE 0xE) then
    if m.stack.depth = 0 then some .stackUnderflow else none
  else if w.Matches (.family 2) then
    if m.stack.depth = stackDepth then some .stackOverflow else none
  else if w.Matches (.operation 0xE 9 0xE) ∨ w.Matches (.operation 0xE 0xA 1) then m.keyFault? w.x
  else if w.Matches (.family 0xD) then m.rangeFault? w.lastNibble
  else if w.Matches (.operation 0xF 3 3) then m.rangeFault? 3
  else if w.Matches (.operation 0xF 5 5) ∨ w.Matches (.operation 0xF 6 5) then
    m.rangeFault? (w.x.val + 1)
  else none

/-- The fault of a step, if it has one. The last byte of memory holds no word. -/
def fault? (m : Machine) : Option Fault :=
  if h : 0xFFF ≤ m.pc.toNat then some (.memoryOutOfBounds m.pc.toNat)
  else
    have inside : m.pc.toNat + 1 < memorySize := by simp only [memorySize]; omega
    m.wordFault? (.ofBytes m.memory[m.pc.toNat] m.memory[m.pc.toNat + 1])

end Machine

def Instruction.fault? (m : Machine) : Instruction → Option Fault
  | .ret => if m.stack.depth = 0 then some .stackUnderflow else none
  | .call _ => if stackDepth ≤ m.stack.depth then some .stackOverflow else none
  | .skip (.keyDown x) | .skip (.keyUp x) => m.keyFault? x
  | .draw _ _ rows => m.rangeFault? rows.toNat
  | .storeDecimal _ => m.rangeFault? 3
  | .storeRegisters x | .loadRegisters x => m.rangeFault? (x.val + 1)
  | _ => none

namespace Machine

variable {m : Machine} {d : Devices} {i : Instruction} {w : Word} {f : Fault}

theorem wordFault_of_decode (hd : m.stack.depth ≤ stackDepth) (h : Instruction.decode w = .ok i) :
    m.wordFault? w = i.fault? m := by
  have hl := Instruction.not_isLegacyCall_of_decode h
  have hi := Instruction.isInstruction_of_decode h
  have hm := Instruction.matches_of_decode h
  have hop := Instruction.operandsOf_of_decode h
  simp only [wordFault?, hl, hi, if_false, not_true]
  -- each case puts in the nibbles that the instruction's pattern fixes
  cases i with
  | call target =>
      have hfull : m.stack.depth = stackDepth ↔ stackDepth ≤ m.stack.depth := by omega
      simp [Instruction.pattern] at hm
      simp [Instruction.fault?, hm, hfull]
  | skip test =>
      cases test with
      | keyDown x | keyUp x =>
          obtain rfl : x = w.x := hop
          simp [Instruction.pattern] at hm
          simp [Instruction.fault?, hm]
      | _ =>
          simp [Instruction.pattern] at hm
          simp [Instruction.fault?, hm]
  | draw x y rows =>
      have hrows : rows.toNat = w.lastNibble := hop.2.2
      simp [Instruction.pattern] at hm
      simp [Instruction.fault?, hm, hrows]
  | storeRegisters x | loadRegisters x =>
      obtain rfl : x = w.x := hop
      simp [Instruction.pattern] at hm
      simp [Instruction.fault?, hm]
  | combine operation _ _ =>
      cases operation <;> simp [Instruction.pattern] at hm <;> simp [Instruction.fault?, hm]
  | shift direction _ =>
      cases direction <;> simp [Instruction.pattern] at hm <;> simp [Instruction.fault?, hm]
  | _ =>
      simp [Instruction.pattern] at hm
      simp [Instruction.fault?, hm]

theorem wordFault_of_decode_error (h : Instruction.decode w = .error f) :
    m.wordFault? w = some f := by
  have hi := Instruction.not_isInstruction_of_decode h
  have hf := Instruction.fault_of_decode h
  by_cases hl : w.IsLegacyCall
  · rw [hf, wordFault?, if_pos hl, if_pos hl]
  · rw [hf, wordFault?, if_neg hl, if_neg hl, if_pos hi]

theorem decides_slice (m : Machine) (count : Nat) :
    Decides (m.rangeFault? count) (m.memory.slice m.index.toNat count) := by
  simp only [rangeFault?, Memory.slice]
  by_cases h : m.index.toNat + count ≤ memorySize
  · rw [if_neg (Nat.not_lt.mpr h), dif_pos h]
    exact .of_ok _
  · rw [if_pos (Nat.not_le.mp h), dif_neg h]
    exact .of_error _

theorem decides_store (m : Machine) (bytes : List UInt8) :
    Decides (m.rangeFault? bytes.length) (m.memory.store m.index.toNat bytes) := by
  simp only [rangeFault?, Memory.store]
  by_cases h : m.index.toNat + bytes.length ≤ memorySize
  · rw [if_neg (Nat.not_lt.mpr h), if_pos h]
    exact .of_ok _
  · rw [if_pos (Nat.not_le.mp h), if_neg h]
    exact .of_error _

theorem decides_isHeld (m : Machine) (pad : Keypad) (x : Register) :
    Decides (m.keyFault? x) (pad.isHeld (m.register x)) := by
  apply Decides.map
  simp only [keyFault?, Key.ofByte]
  by_cases h : (m.register x).toNat < keyCount
  · rw [if_neg (Nat.not_le.mpr h), dif_pos h]
    exact .of_ok _
  · rw [if_pos (Nat.not_lt.mp h), dif_neg h]
    exact .of_error _

theorem length_take_registers (m : Machine) (x : Register) :
    (m.registers.toList.take (x.val + 1)).length = x.val + 1 := by
  have hx : x.val < 16 := x.isLt
  rw [List.length_take, Vector.length_toList]
  omega

theorem decides_holds (m : Machine) (pad : Keypad) (test : Test) :
    Decides (Instruction.fault? m (.skip test)) (test.holds m pad) := by
  cases test with
  | keyDown x => exact m.decides_isHeld pad x
  | keyUp x => exact (m.decides_isHeld pad x).map not
  | _ => exact .of_ok _

theorem decides_execute (m : Machine) (d : Devices) (i : Instruction) :
    Decides (i.fault? m) (m.execute d i).1 := by
  cases i with
  | ret =>
      apply Decides.map
      intro f
      rw [CallStack.pop_eq_error_iff]
      simp [Instruction.fault?, eq_comm]
  | call target =>
      apply Decides.map
      intro f
      rw [CallStack.push_eq_error_iff]
      simp [Instruction.fault?, eq_comm]
  | skip test => exact (m.decides_holds d.keypad test).map m.skipIf
  | draw x y rows =>
      have h := m.decides_slice rows.toNat
      simp only [execute]
      cases hs : m.memory.slice m.index.toNat rows.toNat with
      | ok sprite =>
          rw [hs] at h
          exact h.map fun _ => m.setFlag (d.screen.draw (m.register x) (m.register y) sprite).2
      | error f =>
          rw [hs] at h
          exact h.map fun _ => m
  | awaitKey x =>
      simp only [execute]
      split <;> exact .of_ok _
  | storeDecimal x => exact (m.decides_store _).map _
  | storeRegisters x =>
      have h := (m.decides_store (m.registers.toList.take (x.val + 1))).map
        fun memory => { m with memory }
      rwa [length_take_registers] at h
  | loadRegisters x => exact (m.decides_slice _).map _
  | _ => exact .of_ok _

theorem fault_advance (m : Machine) (i : Instruction) : i.fault? m.advance = i.fault? m := by
  cases i with
  | skip test => cases test <;> rfl
  | _ => rfl

/-- An instruction meets its fault before it touches a device. -/
theorem devices_of_execute_error (h : (m.execute d i).1 = .error f) : (m.execute d i).2 = d := by
  cases i with
  | clearScreen | random | setDelay | setSound => cases h
  | draw x y rows =>
      simp only [execute] at h ⊢
      split
      · rename_i hs
        rw [hs] at h
        cases h
      · rfl
  | awaitKey x =>
      simp only [execute] at h
      split at h <;> cases h
  | _ => rfl

theorem fetch_of_lt (h : m.pc.toNat + 1 < memorySize) :
    m.fetch = .ok (.ofBytes m.memory[m.pc.toNat] m.memory[m.pc.toNat + 1]) :=
  dif_pos h

theorem fetch_of_le (h : memorySize ≤ m.pc.toNat + 1) :
    m.fetch = .error (.memoryOutOfBounds m.pc.toNat) :=
  dif_neg (by omega)

theorem decides_step (hd : m.stack.depth ≤ stackDepth) (d : Devices) :
    Decides m.fault? (m.step d).1 := by
  simp only [fault?]
  by_cases hpc : 0xFFF ≤ m.pc.toNat
  · have hf : m.fetch = .error (.memoryOutOfBounds m.pc.toNat) :=
      fetch_of_le (by simp only [memorySize]; omega)
    have hn : m.next = .error (.memoryOutOfBounds m.pc.toNat) := by
      rw [next, hf]
      rfl
    rw [dif_pos hpc, step_of_next_error hn]
    exact .of_error _
  · have inside : m.pc.toNat + 1 < memorySize := by simp only [memorySize]; omega
    rw [dif_neg hpc]
    cases hw : Instruction.decode (.ofBytes m.memory[m.pc.toNat] m.memory[m.pc.toNat + 1]) with
    | error f =>
        have hn : m.next = .error f := by
          rw [next, fetch_of_lt inside]
          exact hw
        rw [step_of_next_error hn, wordFault_of_decode_error hw]
        exact .of_error _
    | ok i =>
        have hn : m.next = .ok i := by
          rw [next, fetch_of_lt inside]
          exact hw
        rw [step_of_next hn, wordFault_of_decode hd hw, ← fault_advance]
        exact decides_execute _ _ _

theorem step_error_iff (m : Machine) (d₁ d₂ : Devices) (f : Fault) :
    (m.step d₁).1 = .error f ↔ (m.step d₂).1 = .error f := by
  cases hn : m.next with
  | error g => rw [step_of_next_error hn, step_of_next_error hn]
  | ok i =>
      rw [step_of_next hn, step_of_next hn]
      exact (decides_execute _ d₁ i f).trans (decides_execute _ d₂ i f).symm

theorem devices_of_step_error (h : (m.step d).1 = .error f) : (m.step d).2 = d := by
  cases hn : m.next with
  | error g => rw [step_of_next_error hn]
  | ok i =>
      rw [step_of_next hn] at h ⊢
      exact devices_of_execute_error h

theorem step_eq_of_error (h : (m.step d).1 = .error f) (d₁ : Devices) :
    m.step d₁ = (.error f, d₁) := by
  have h₁ := (step_error_iff m d d₁ f).mp h
  exact Prod.ext h₁ (devices_of_step_error h₁)

/-- Within the bounds, a step faults exactly as `fault?` says, and otherwise succeeds. -/
theorem step_faults_iff (hm : m.Bounded) :
    (∀ d f, (m.step d).1 = .error f ↔ m.fault? = some f) ∧
      (∀ d, (∃ next, (m.step d).1 = .ok next) ↔ m.fault? = none) ∧
      ∀ d₁ d₂ f, (m.step d₁).1 = .error f ↔ (m.step d₂).1 = .error f :=
  ⟨decides_step hm.depth_le, fun d => (decides_step hm.depth_le d).succeeds_iff, step_error_iff m⟩

/-- Asking whether key sixteen is held. -/
theorem step_faults_on_key_sixteen :
    Bounded { (load [0xE0, 0x9E]).2 with registers := .replicate _ 16 } ∧
      (step { (load [0xE0, 0x9E]).2 with registers := .replicate _ 16 } .fresh).1 =
        .error (.invalidKeyIndex 16) :=
  have hm : Bounded { (load [0xE0, 0x9E]).2 with registers := .replicate _ 16 } :=
    ⟨by decide +kernel, by decide +kernel, by decide +kernel⟩
  ⟨hm, ((step_faults_iff hm).1 .fresh _).mpr (by decide +kernel)⟩

end Machine
end ChipEight
