import ChipEight.Proofs.CallStack.Addresses
import ChipEight.Proofs.CallStack.DeadSlots
import ChipEight.Proofs.CallStack.Nesting

/-!
Slots and depth together are a bounded list of return addresses: the list is what every run makes
of it, calls and returns match, and what lies above the depth is never seen.
-/

namespace ChipEight.Machine

/-- From power on or from a loaded program, the call stack is the list that the steps make of the
empty one. A call is over when the run first comes back to its depth: by a return, to the address
behind the call, with the slots below as they were. Machines that differ in dead slots only run
alike on any devices, and still differ in dead slots only. -/
theorem callStack_refines_list :
    (∀ (start : Machine) passed m, start.Initial → Path start passed m →
      passed.foldlM (fun addresses s => s.returns addresses) [] = .ok m.stack.live ∧
        m.ListsReturns) ∧
      (∀ (m last : Machine) target inside,
        m.next = .ok (.call target) → Path m (m :: inside) last →
        (∀ s ∈ inside, s.stack.depth ≠ m.stack.depth) → last.stack.depth = m.stack.depth →
          (∃ exit, inside.getLast? = some exit ∧ exit.next = .ok .ret) ∧
            last.pc.toNat = m.pc.toNat + 2 ∧ last.stack.SameBelow m.stack.depth m.stack) ∧
      ∀ m n : Machine, m.SameLive n → ∀ d schedule,
        (m.run d schedule).trap = (n.run d schedule).trap ∧
          (m.run d schedule).devices = (n.run d schedule).devices ∧
          (m.run d schedule).machine.SameLive (n.run d schedule).machine := by
  refine ⟨?_, fun _ _ _ _ => return_of_call, fun _ _ h => h.run⟩
  intro start passed m hstart hp
  have hs := sound_of_initial hstart
  have hlist := returns_of_path hs hp
  rw [stack_of_initial hstart] at hlist
  exact ⟨hlist, listsReturns (hp.keeps Sound.step hs).depth_le⟩

/-- One call and its return. Past it, slot zero is dead. -/
theorem callStack_refines_list_once :
    let start := (load [0x22, 0x04, 0x12, 0x02, 0x00, 0xEE]).2
    let called := { start with pc := 0x204, stack := ⟨CallStack.empty.slots.set 0 0x202, 1⟩ }
    let back := { called with pc := 0x202, stack.depth := 0 }
    let fresh := { start with pc := 0x202 }
    (back.stack.live = [] ∧ back.ListsReturns) ∧ back.pc.toNat = start.pc.toNat + 2 ∧
      (back.run .fresh [id, id]).devices = (fresh.run .fresh [id, id]).devices := by
  intro start called back fresh
  have hstart : start.Initial := .inr ⟨[0x22, 0x04, 0x12, 0x02, 0x00, 0xEE], rfl⟩
  have hnext : start.next = .ok (.call 0x204) := by
    show (load [0x22, 0x04, 0x12, 0x02, 0x00, 0xEE]).2.next = _
    decide +kernel
  have hcall : start.step .fresh = (.ok called, .fresh) := step_call hnext .fresh
  have hnext' : called.next = .ok .ret := by
    show ({ (load [0x22, 0x04, 0x12, 0x02, 0x00, 0xEE]).2 with pc := 0x204 } : Machine).next = _
    decide +kernel
  have hret : called.step .fresh = (.ok back, .fresh) := step_ret hnext' .fresh
  have hpath : Path start [start, called] back := .step hcall (.step hret (.stay back))
  have hinside : ∀ s ∈ [called], s.stack.depth ≠ start.stack.depth := by
    intro s hs
    rw [List.mem_singleton.mp hs]
    exact Nat.one_ne_zero
  have hdead : back.SameLive fresh := ⟨rfl, rfl, rfl, rfl, Nat.zero_le _, rfl, nofun⟩
  have hlist := callStack_refines_list.1 start [start, called] back hstart hpath
  have hmatch := callStack_refines_list.2.1 start back 0x204 [called] hnext hpath hinside rfl
  have hsame := callStack_refines_list.2.2 back fresh hdead .fresh [id, id]
  exact ⟨⟨rfl, hlist.2⟩, hmatch.2.1, hsame.2.1⟩

end ChipEight.Machine
