import ChipEight.Proofs.CallStack.Slots
import ChipEight.Proofs.Machine.Run

/-!
Calls and returns match at any nesting. While a run stays deeper than the stack it was called on,
the slots of that stack and the return address above them are out of its reach; the step that
brings it back to the depth of the call can only be a return, and it goes to that address.
-/

namespace ChipEight

namespace CallStack

/-- What a stack keeps while it is deeper than `origin`, whose next slot holds `address`. -/
structure Guards (s origin : CallStack) (address : UInt16) : Prop where
  deeper : origin.depth < s.depth
  below : SameBelow origin.depth s origin
  top : ∀ j : Fin stackDepth, j.val = origin.depth → s.slots[j] = address

variable {origin s t : CallStack} {address pushed : UInt16}

theorem guards_of_push (h : s.push address = .ok t) : t.Guards s address := by
  have hget := getElem_of_push h
  obtain ⟨hd, rfl⟩ := push_eq_ok h
  refine ⟨Nat.lt_succ_self _, ?_, ?_⟩
  · intro j hj
    rw [hget, if_neg (by omega)]
  · intro j hj
    rw [hget, if_pos hj.symm]

theorem Guards.push (hs : s.Guards origin address) (h : s.push pushed = .ok t) :
    t.Guards origin address := by
  have hget := getElem_of_push h
  have hk := hs.deeper
  obtain ⟨hd, rfl⟩ := push_eq_ok h
  refine ⟨Nat.lt_succ_of_lt hk, ?_, ?_⟩
  · intro j hj
    rw [hget, if_neg (by omega)]
    exact hs.below j hj
  · intro j hj
    rw [hget, if_neg (by omega)]
    exact hs.top j hj

theorem Guards.pop (hs : s.Guards origin address) (hroom : origin.depth < stackDepth)
    (h : s.pop = .ok (pushed, t)) :
    t.Guards origin address ∨
      t.depth = origin.depth ∧ pushed = address ∧ SameBelow origin.depth t origin := by
  obtain ⟨hdepth, hslots, htop⟩ := pop_eq_ok h
  have hdeeper := hs.deeper
  have hbelow : SameBelow origin.depth t origin := by
    intro j hj
    rw [hslots]
    exact hs.below j hj
  by_cases heq : t.depth = origin.depth
  · refine .inr ⟨heq, ?_, hbelow⟩
    rw [htop ⟨origin.depth, hroom⟩ heq.symm]
    exact hs.top ⟨origin.depth, hroom⟩ rfl
  · refine .inl ⟨by omega, hbelow, ?_⟩
    rw [hslots]
    exact hs.top

end CallStack

namespace Machine

variable {m next last : Machine} {d d' : Devices} {origin : CallStack} {address : UInt16}

/-- One step within a call: it stays inside, or it is the return from it. -/
theorem guards_of_step (hroom : origin.depth < stackDepth) (hm : m.stack.Guards origin address)
    (h : m.step d = (.ok next, d')) :
    next.stack.Guards origin address ∨
      next.stack.depth = origin.depth ∧ m.next = .ok .ret ∧ next.pc = address ∧
        next.stack.SameBelow origin.depth origin := by
  obtain ⟨i, hn, he⟩ := exists_execute_of_step h
  cases i with
  | call target =>
      obtain ⟨stack, hp, rfl⟩ := shape_of_execute he
      exact .inl (hm.push hp)
  | ret =>
      obtain ⟨popped, stack, hp, rfl⟩ := shape_of_execute he
      rcases hm.pop hroom hp with hinside | ⟨hdepth, haddress, hbelow⟩
      · exact .inl hinside
      · exact .inr ⟨hdepth, hn, haddress, hbelow⟩
  | _ =>
      have hstack : next.stack = m.advance.stack := stack_of_execute he nofun nofun
      rw [hstack]
      exact .inl hm

theorem return_of_path {inside : List Machine} (hroom : origin.depth < stackDepth)
    (hm : m.stack.Guards origin address) (hp : Path m inside last)
    (hinside : ∀ s ∈ inside, s.stack.depth ≠ origin.depth)
    (hlast : last.stack.depth = origin.depth) :
    (∃ exit, inside.getLast? = some exit ∧ exit.next = .ok .ret) ∧ last.pc = address ∧
      last.stack.SameBelow origin.depth origin := by
  -- on the path; what carries it is that every machine on the way guards the return address
  induction hp with
  | stay m => exact absurd hlast (Nat.ne_of_gt hm.deeper)
  | @step m next last d d' rest hstep hrest ih =>
      rcases guards_of_step hroom hm hstep with hnext | ⟨hdepth, hret, haddress, hbelow⟩
      · have hrun := ih hnext (fun s hs => hinside s (List.mem_cons_of_mem _ hs)) hlast
        obtain ⟨⟨exit, hexit, hret⟩, hafter⟩ := hrun
        refine ⟨⟨exit, ?_, hret⟩, hafter⟩
        rw [List.getLast?_cons, hexit]
        rfl
      · cases hrest with
        | stay _ => exact ⟨⟨m, rfl, hret⟩, haddress, hbelow⟩
        | step _ _ =>
            have hne := hinside next (List.mem_cons_of_mem _ List.mem_cons_self)
            exact absurd hdepth hne

theorem return_of_call {target : UInt16} {inside : List Machine}
    (hcall : m.next = .ok (.call target)) (hp : Path m (m :: inside) last)
    (hinside : ∀ s ∈ inside, s.stack.depth ≠ m.stack.depth)
    (hlast : last.stack.depth = m.stack.depth) :
    (∃ exit, inside.getLast? = some exit ∧ exit.next = .ok .ret) ∧
      last.pc.toNat = m.pc.toNat + 2 ∧ last.stack.SameBelow m.stack.depth m.stack := by
  cases hp with
  | step hstep hrest =>
      obtain ⟨i, hn, he⟩ := exists_execute_of_step hstep
      obtain rfl : i = .call target := Except.ok.inj (hn.symm.trans hcall)
      obtain ⟨stack, hpush, rfl⟩ := shape_of_execute he
      have hroom : m.stack.depth < stackDepth := (CallStack.push_eq_ok hpush).1
      have hguards : stack.Guards m.stack m.advance.pc := CallStack.guards_of_push hpush
      obtain ⟨hexit, hpc, hbelow⟩ := return_of_path hroom hguards hrest hinside hlast
      refine ⟨hexit, ?_, hbelow⟩
      rw [hpc]
      exact toNat_pc_advance hcall

end Machine
end ChipEight
