import ChipEight.Machine.Step

/-!
What a step does to the program counter, the index and the call stack, one statement for each of
them over all instructions. Later proofs about runs use these and do not open `execute` again.
-/

namespace ChipEight

theorem exists_of_map_eq_ok {α β : Type} {result : Except Fault α} {next : α → β} {b : β}
    (h : result.map next = .ok b) : ∃ a, result = .ok a ∧ next a = b := by
  cases result with
  | error f => cases h
  | ok a => exact ⟨a, rfl, Except.ok.inj h⟩

theorem map_eq_error_iff {α β : Type} {result : Except Fault α} {next : α → β} {f : Fault} :
    result.map next = .error f ↔ result = .error f := by
  cases result with
  | error g => simp [Except.map]
  | ok a => simp [Except.map]

namespace Machine

variable {m m' : Machine} {d d' : Devices} {i : Instruction} {f : Fault}

@[simp] theorem pc_advance (m : Machine) : m.advance.pc = m.pc + 2 := rfl

theorem setResult_eq (m : Machine) (x : Register) (value : UInt8) (flag : Option Bool) :
    ∃ registers, m.setResult x value flag = { m with registers } := by
  cases flag <;> exact ⟨_, rfl⟩

theorem skipIf_eq (m : Machine) (taken : Bool) :
    m.skipIf taken = m ∨ m.skipIf taken = m.advance := by
  cases taken
  · exact .inl rfl
  · exact .inr rfl

theorem step_of_next (h : m.next = .ok i) (d : Devices) :
    m.step d = m.advance.execute d i := by
  simp only [step, h]

theorem step_of_next_error (h : m.next = .error f) (d : Devices) :
    m.step d = (.error f, d) := by
  simp only [step, h]

theorem exists_execute_of_step (h : m.step d = (.ok m', d')) :
    ∃ i, m.next = .ok i ∧ m.advance.execute d i = (.ok m', d') := by
  cases hn : m.next with
  | error f =>
      rw [step_of_next_error hn] at h
      cases h
  | ok i => exact ⟨i, rfl, step_of_next hn d ▸ h⟩

theorem next_eq_ok (h : m.next = .ok i) :
    ∃ w, m.fetch = .ok w ∧ Instruction.decode w = .ok i := by
  rw [next] at h
  cases hf : m.fetch with
  | error f =>
      rw [hf] at h
      cases h
  | ok w =>
      rw [hf] at h
      exact ⟨w, rfl, h⟩

theorem pc_le_of_fetch {w : Word} (h : m.fetch = .ok w) : m.pc.toNat + 2 ≤ memorySize := by
  simp only [fetch, Memory.word] at h
  split at h
  · assumption
  · cases h

theorem pc_le_of_next (h : m.next = .ok i) : m.pc.toNat + 2 ≤ memorySize :=
  let ⟨_, hw, _⟩ := next_eq_ok h
  pc_le_of_fetch hw

theorem toNat_pc_advance (h : m.next = .ok i) : m.advance.pc.toNat = m.pc.toNat + 2 := by
  have hb : m.pc.toNat + 2 ≤ 4096 := pc_le_of_next h
  rw [pc_advance, UInt16.toNat_add]
  exact Nat.mod_eq_of_lt (by simp; omega)

/-- The shape of the machine after an instruction that succeeds. Values of registers, memory cells
and the index are left open; the program counter and the call stack are exact, but for a skip and
for a key wait, whose outcome is the devices' choice. -/
theorem shape_of_execute (h : m.execute d i = (.ok m', d')) :
    match i with
    | .ret => ∃ address stack,
        m.stack.pop = .ok (address, stack) ∧ m' = { m with pc := address, stack }
    | .jump target => m' = { m with pc := target }
    | .call target => ∃ stack, m.stack.push m.pc = .ok stack ∧ m' = { m with pc := target, stack }
    | .skip _ => m' = m ∨ m' = m.advance
    | .jumpOffset start => m' = { m with pc := (m.register base).toUInt16 + start }
    | .awaitKey _ => (∃ registers, m' = { m with registers }) ∨ m' = { m with pc := m.pc - 2 }
    | .setIndex _ | .addIndex _ | .glyph _ =>
        ∃ address, m' = { m with index := address &&& addressMask }
    | .storeDecimal _ | .storeRegisters _ => ∃ memory, m' = { m with memory }
    | _ => ∃ registers, m' = { m with registers } := by
  cases i with
  | jump | jumpOffset =>
      cases h
      rfl
  | nop | clearScreen | loadByte | addByte | random | readDelay | setDelay | setSound
  | setIndex | addIndex | glyph =>
      cases h
      exact ⟨_, rfl⟩
  | ret =>
      obtain ⟨⟨address, stack⟩, hp, rfl⟩ := exists_of_map_eq_ok (congrArg Prod.fst h)
      exact ⟨address, stack, hp, rfl⟩
  | call target =>
      obtain ⟨stack, hp, rfl⟩ := exists_of_map_eq_ok (congrArg Prod.fst h)
      exact ⟨stack, hp, rfl⟩
  | skip test =>
      obtain ⟨taken, _, rfl⟩ := exists_of_map_eq_ok (congrArg Prod.fst h)
      exact skipIf_eq m taken
  | combine | shift =>
      cases h
      exact setResult_eq _ _ _ _
  | draw x y rows =>
      simp only [execute] at h
      split at h
      · cases h
        exact ⟨_, rfl⟩
      · cases h
  | awaitKey x =>
      simp only [execute] at h
      split at h
      · cases h
        exact .inl ⟨_, rfl⟩
      · cases h
        exact .inr rfl
  | storeDecimal | storeRegisters | loadRegisters =>
      obtain ⟨_, _, rfl⟩ := exists_of_map_eq_ok (congrArg Prod.fst h)
      exact ⟨_, rfl⟩

theorem stack_of_execute (h : m.execute d i = (.ok m', d')) (hcall : ∀ target, i ≠ .call target)
    (hret : i ≠ .ret) : m'.stack = m.stack := by
  have shape := shape_of_execute h
  cases i with
  | call target => exact absurd rfl (hcall target)
  | ret => exact absurd rfl hret
  | skip test => rcases shape with rfl | rfl <;> rfl
  | awaitKey x => rcases shape with ⟨registers, rfl⟩ | rfl <;> rfl
  | jump target | jumpOffset start =>
      obtain rfl : m' = _ := shape
      rfl
  | _ =>
      obtain ⟨_, rfl⟩ := shape
      rfl

end Machine
end ChipEight
