import ChipEight.Proofs.CallStack.Slots
import ChipEight.Proofs.Machine.Run

/-!
Slots at or above the depth are dead. Two machines that differ in such slots only take the same
steps on the same devices, with the same faults and the same effects, and go on differing in such
slots only: a pop leaves a stale address behind, and a push writes the slot before it can be read.
-/

namespace ChipEight

/-- Two results with the same fault, or with values that are related. -/
inductive Alike {α β : Type} (R : α → β → Prop) : Except Fault α → Except Fault β → Prop where
  | ok {a : α} {b : β} : R a b → Alike R (.ok a) (.ok b)
  | error (f : Fault) : Alike R (.error f) (.error f)

theorem Alike.map {α β γ δ : Type} {R : α → β → Prop} {S : γ → δ → Prop}
    {first : Except Fault α} {second : Except Fault β} {g : α → γ} {k : β → δ}
    (h : Alike R first second) (hmap : ∀ a b, R a b → S (g a) (k b)) :
    Alike S (first.map g) (second.map k) := by
  cases h with
  | ok hab => exact .ok (hmap _ _ hab)
  | error f => exact .error f

namespace CallStack

structure SameLive (s t : CallStack) : Prop where
  depth_le : s.depth ≤ stackDepth
  depth : s.depth = t.depth
  slots : SameBelow s.depth s t

variable {s t : CallStack}

theorem SameLive.push (h : s.SameLive t) (address : UInt16) :
    Alike SameLive (s.push address) (t.push address) := by
  have hdepth := h.depth
  cases hs : s.push address with
  | error f =>
      obtain ⟨hfull, rfl⟩ := push_eq_error_iff.mp hs
      rw [push_eq_error_iff.mpr ⟨hdepth ▸ hfull, rfl⟩]
      exact .error _
  | ok s' =>
      cases ht : t.push address with
      | error f =>
          obtain ⟨hroom, _⟩ := push_eq_ok hs
          obtain ⟨hfull, _⟩ := push_eq_error_iff.mp ht
          omega
      | ok t' =>
          have hget := getElem_of_push hs
          have hget' := getElem_of_push ht
          obtain ⟨hroom, rfl⟩ := push_eq_ok hs
          obtain ⟨_, rfl⟩ := push_eq_ok ht
          refine .ok ⟨hroom, congrArg Nat.succ hdepth, ?_⟩
          intro j hj
          rw [hget, hget', ← hdepth]
          by_cases htop : s.depth = j.val
          · rw [if_pos htop, if_pos htop]
          · rw [if_neg htop, if_neg htop]
            exact h.slots j (Nat.lt_of_le_of_ne (Nat.le_of_lt_succ hj) (Ne.symm htop))

theorem SameLive.pop (h : s.SameLive t) :
    Alike (fun a b => a.1 = b.1 ∧ a.2.SameLive b.2) s.pop t.pop := by
  have hdepth := h.depth
  have hle := h.depth_le
  cases hs : s.pop with
  | error f =>
      obtain ⟨hempty, rfl⟩ := pop_eq_error_iff.mp hs
      rw [pop_eq_error_iff.mpr ⟨hdepth ▸ hempty, rfl⟩]
      exact .error _
  | ok popped =>
      obtain ⟨address, s'⟩ := popped
      obtain ⟨hpop, hslots, htop⟩ := pop_eq_ok hs
      cases ht : t.pop with
      | error f =>
          obtain ⟨hempty, _⟩ := pop_eq_error_iff.mp ht
          omega
      | ok popped =>
          obtain ⟨address', t'⟩ := popped
          obtain ⟨hpop', hslots', htop'⟩ := pop_eq_ok ht
          have hbelow : s'.depth < s.depth := by omega
          have hsame : s'.depth = t'.depth := by omega
          have hlt : s'.depth < stackDepth := by omega
          have htail : s'.SameLive t' := by
            refine ⟨by omega, hsame, ?_⟩
            intro j hj
            rw [hslots, hslots']
            exact h.slots j (by omega)
          refine .ok ⟨?_, htail⟩
          change address = address'
          rw [htop ⟨s'.depth, hlt⟩ rfl, htop' ⟨s'.depth, hlt⟩ hsame]
          exact h.slots ⟨s'.depth, hlt⟩ hbelow

end CallStack

namespace Machine

def withStack (m : Machine) (stack : CallStack) : Machine := { m with stack }

structure SameLive (m n : Machine) : Prop where
  registers : m.registers = n.registers
  index : m.index = n.index
  pc : m.pc = n.pc
  memory : m.memory = n.memory
  stack : m.stack.SameLive n.stack

theorem SameLive.eq_withStack {m n : Machine} (h : m.SameLive n) : n = m.withStack n.stack := by
  cases n
  simp only [withStack, h.registers, h.index, h.pc, h.memory]

theorem holds_withStack (m : Machine) (stack : CallStack) (pad : Keypad) (test : Test) :
    test.holds (m.withStack stack) pad = test.holds m pad := by
  cases test <;> rfl

theorem setResult_withStack (m : Machine) (stack : CallStack) (x : Register) (value : UInt8)
    (flag : Option Bool) :
    (m.withStack stack).setResult x value flag = (m.setResult x value flag).withStack stack := by
  cases flag <;> rfl

theorem skipIf_withStack (m : Machine) (stack : CallStack) (taken : Bool) :
    (m.withStack stack).skipIf taken = (m.skipIf taken).withStack stack := by
  cases taken <;> rfl

theorem storeAtIndex_withStack (m : Machine) (stack : CallStack) (bytes : List UInt8) :
    (m.withStack stack).storeAtIndex bytes = (m.storeAtIndex bytes).map (·.withStack stack) := by
  simp only [storeAtIndex, withStack]
  cases m.memory.store m.index.toNat bytes <;> rfl

theorem loadFromIndex_withStack (m : Machine) (stack : CallStack) (count : Nat) :
    (m.withStack stack).loadFromIndex count = (m.loadFromIndex count).map (·.withStack stack) := by
  simp only [loadFromIndex, withStack]
  cases m.memory.slice m.index.toNat count <;> rfl

/-- Only calls and returns look at the stack. -/
theorem execute_withStack (m : Machine) (stack : CallStack) (d : Devices) (i : Instruction)
    (hcall : ∀ target, i ≠ .call target) (hret : i ≠ .ret) :
    (m.withStack stack).execute d i =
      ((m.execute d i).1.map (·.withStack stack), (m.execute d i).2) := by
  cases i with
  | call target => exact absurd rfl (hcall target)
  | ret => exact absurd rfl hret
  | skip test =>
      simp only [execute, holds_withStack]
      cases test.holds m d.keypad with
      | ok taken => exact congrArg (fun next => (Except.ok next, d)) (skipIf_withStack m stack taken)
      | error f => rfl
  | draw x y rows =>
      simp only [execute, withStack]
      cases m.memory.slice m.index.toNat rows.toNat <;> rfl
  | awaitKey x =>
      simp only [execute]
      cases d.feed.takeAnswer.1 <;> rfl
  | combine | shift =>
      exact congrArg (fun next => (Except.ok next, d)) (setResult_withStack m stack _ _ _)
  | storeDecimal | storeRegisters => exact congrArg (·, d) (storeAtIndex_withStack m stack _)
  | loadRegisters => exact congrArg (·, d) (loadFromIndex_withStack m stack _)
  | _ => rfl

variable {m n : Machine}

theorem SameLive.enter (h : m.SameLive n) (target : UInt16) :
    Alike SameLive (m.enter target) (n.enter target) := by
  obtain ⟨registers, index, pc, memory, stack⟩ := h
  simp only [Machine.enter]
  rw [← pc]
  apply (stack.push m.pc).map
  intro s t hst
  exact ⟨registers, index, rfl, memory, hst⟩

theorem SameLive.leave (h : m.SameLive n) : Alike SameLive m.leave n.leave := by
  obtain ⟨registers, index, pc, memory, stack⟩ := h
  apply stack.pop.map
  intro popped popped' hpop
  exact ⟨registers, index, hpop.1, memory, hpop.2⟩

theorem SameLive.execute_of_ne (h : m.SameLive n) {d : Devices} {i : Instruction}
    (hcall : ∀ target, i ≠ .call target) (hret : i ≠ .ret) :
    Alike SameLive (m.execute d i).1 (n.execute d i).1 ∧
      (m.execute d i).2 = (n.execute d i).2 := by
  rw [h.eq_withStack, execute_withStack m n.stack d i hcall hret]
  refine ⟨?_, rfl⟩
  cases hm : (m.execute d i).1 with
  | error f => exact .error f
  | ok m' =>
      have hstack : m'.stack = m.stack := stack_of_execute (Prod.ext hm rfl) hcall hret
      refine .ok ⟨rfl, rfl, rfl, rfl, ?_⟩
      rw [hstack]
      exact h.stack

theorem SameLive.execute (h : m.SameLive n) (d : Devices) (i : Instruction) :
    Alike SameLive (m.execute d i).1 (n.execute d i).1 ∧
      (m.execute d i).2 = (n.execute d i).2 := by
  cases i with
  | call target => exact ⟨h.enter target, rfl⟩
  | ret => exact ⟨h.leave, rfl⟩
  | _ => exact h.execute_of_ne nofun nofun

theorem SameLive.advance (h : m.SameLive n) : m.advance.SameLive n.advance :=
  ⟨h.registers, h.index, congrArg (· + 2) h.pc, h.memory, h.stack⟩

theorem SameLive.next (h : m.SameLive n) : m.next = n.next := by
  rw [h.eq_withStack]
  rfl

theorem SameLive.step (h : m.SameLive n) (d : Devices) :
    Alike SameLive (m.step d).1 (n.step d).1 ∧ (m.step d).2 = (n.step d).2 := by
  cases hi : m.next with
  | error f =>
      rw [step_of_next_error hi, step_of_next_error (h.next ▸ hi)]
      exact ⟨.error f, rfl⟩
  | ok i =>
      rw [step_of_next hi, step_of_next (h.next ▸ hi)]
      exact h.advance.execute d i

theorem SameLive.run (h : m.SameLive n) (d : Devices) (schedule : Schedule) :
    (m.run d schedule).trap = (n.run d schedule).trap ∧
      (m.run d schedule).devices = (n.run d schedule).devices ∧
      (m.run d schedule).machine.SameLive (n.run d schedule).machine := by
  induction schedule generalizing m n d with
  | nil => exact ⟨rfl, rfl, h⟩
  | cons act rest ih =>
      obtain ⟨hresult, hdevices⟩ := h.step (act d)
      simp only [Machine.run]
      cases hm : m.step (act d) with
      | mk first devices =>
          cases hn : n.step (act d) with
          | mk second devices' =>
              rw [hm, hn] at hresult hdevices
              obtain rfl : devices = devices' := hdevices
              cases hresult with
              | error f => exact ⟨congrArg (fun pc => some (Trap.mk pc f)) h.pc, rfl, h⟩
              | ok hnext => exact ih hnext devices

end Machine
end ChipEight
