import ChipEight.Proofs.Machine.Faults

/-!
The call stack as a list of at most sixteen return addresses. A call appends the address behind it,
a return takes the last address off and goes there, and nothing else touches the list; a run does
to it what its instructions do one by one.
-/

namespace ChipEight

/-- What an instruction at address `p` does to the list of return addresses. -/
def Instruction.returns (p : UInt16) (addresses : List UInt16) :
    Instruction → Except Fault (List UInt16)
  | .call _ =>
      if addresses.length < stackDepth then .ok (addresses ++ [p + 2]) else .error .stackOverflow
  | .ret => if addresses = [] then .error .stackUnderflow else .ok addresses.dropLast
  | _ => .ok addresses

theorem Instruction.returns_call (p target : UInt16) (addresses : List UInt16) :
    Instruction.returns p addresses (.call target) =
      if addresses.length < stackDepth then .ok (addresses ++ [p + 2])
      else .error .stackOverflow :=
  rfl

theorem Instruction.returns_ret (p : UInt16) (addresses : List UInt16) :
    Instruction.returns p addresses .ret =
      if addresses = [] then .error .stackUnderflow else .ok addresses.dropLast :=
  rfl

namespace Machine

def returns (m : Machine) (addresses : List UInt16) : Except Fault (List UInt16) :=
  m.next.bind (Instruction.returns m.pc addresses)

variable {m m' start last : Machine} {d d' : Devices} {i : Instruction} {f : Fault}

theorem returns_of_next (h : m.next = .ok i) (addresses : List UInt16) :
    m.returns addresses = i.returns m.pc addresses := by
  rw [returns, h]
  rfl

theorem returns_of_step (hd : m.stack.depth ≤ stackDepth) (h : m.step d = (.ok m', d')) :
    m.returns m.stack.live = .ok m'.stack.live := by
  obtain ⟨i, hn, he⟩ := exists_execute_of_step h
  rw [returns_of_next hn]
  cases i with
  | call target =>
      obtain ⟨stack, hp, rfl⟩ := shape_of_execute he
      obtain ⟨hroom, _⟩ := CallStack.push_eq_ok hp
      have hlength := CallStack.length_live hd
      have hshort : m.stack.live.length < stackDepth := hlength ▸ hroom
      rw [Instruction.returns_call, if_pos hshort]
      exact congrArg Except.ok (CallStack.live_push hp).symm
  | ret =>
      obtain ⟨address, stack, hp, rfl⟩ := shape_of_execute he
      have hlive : m.stack.live = stack.live ++ [address] := CallStack.live_pop hd hp
      have hsome : stack.live ++ [address] ≠ [] := List.concat_ne_nil _ _
      rw [Instruction.returns_ret, hlive, if_neg hsome, List.dropLast_concat]
  | _ =>
      have hstack : m'.stack = m.advance.stack := stack_of_execute he nofun nofun
      rw [hstack]
      rfl

theorem returns_of_path {passed : List Machine} (hs : start.Sound) (h : Path start passed last) :
    passed.foldlM (fun addresses m => m.returns addresses) start.stack.live =
      .ok last.stack.live := by
  induction h with
  | stay _ => rfl
  | step hstep _ ih =>
      rw [List.foldlM_cons, returns_of_step hs.depth_le hstep]
      exact ih (hs.step hstep)

theorem step_call {target : UInt16} (hn : m.next = .ok (.call target)) (d : Devices) :
    m.step d =
      ((m.stack.push (m.pc + 2)).map fun stack => { m with pc := target, stack }, d) := by
  rw [step_of_next hn]
  rfl

theorem step_ret (hn : m.next = .ok .ret) (d : Devices) :
    m.step d = (m.stack.pop.map fun (address, stack) => { m with pc := address, stack }, d) := by
  rw [step_of_next hn]
  rfl

theorem step_of_call {target : UInt16} (hd : m.stack.depth ≤ stackDepth)
    (hn : m.next = .ok (.call target)) (d : Devices) :
    if m.stack.live.length < stackDepth then
      ∃ next, m.step d = (.ok next, d) ∧ next.pc = target ∧
        next.stack.live = m.stack.live ++ [m.pc + 2]
    else m.step d = (.error .stackOverflow, d) := by
  rw [step_call hn, CallStack.length_live hd]
  cases hp : m.stack.push (m.pc + 2) with
  | ok stack =>
      obtain ⟨hroom, _⟩ := CallStack.push_eq_ok hp
      rw [if_pos hroom]
      exact ⟨{ m with pc := target, stack }, rfl, rfl, CallStack.live_push hp⟩
  | error f =>
      obtain ⟨hfull, rfl⟩ := CallStack.push_eq_error_iff.mp hp
      rw [if_neg (Nat.not_lt.mpr hfull)]
      rfl

theorem step_of_ret (hd : m.stack.depth ≤ stackDepth) (hn : m.next = .ok .ret) (d : Devices) :
    match m.stack.live.getLast? with
    | some address =>
        ∃ next, m.step d = (.ok next, d) ∧ next.pc = address ∧
          next.stack.live = m.stack.live.dropLast
    | none => m.step d = (.error .stackUnderflow, d) := by
  rw [step_ret hn]
  cases hp : m.stack.pop with
  | ok popped =>
      obtain ⟨address, stack⟩ := popped
      rw [CallStack.live_pop hd hp, List.getLast?_concat, List.dropLast_concat]
      exact ⟨{ m with pc := address, stack }, rfl, rfl, rfl⟩
  | error f =>
      obtain ⟨hempty, rfl⟩ := CallStack.pop_eq_error_iff.mp hp
      have hlength := CallStack.length_live hd
      rw [hempty] at hlength
      rw [List.eq_nil_of_length_eq_zero hlength]
      rfl

/-- The call stack, taken as a list: where calls and returns go, when they fault, what they leave,
and that nothing else changes the list. -/
structure ListsReturns (m : Machine) : Prop where
  bounded : m.stack.live.length ≤ stackDepth
  call : ∀ target d, m.next = .ok (.call target) →
    if m.stack.live.length < stackDepth then
      ∃ next, m.step d = (.ok next, d) ∧ next.pc = target ∧
        next.stack.live = m.stack.live ++ [m.pc + 2]
    else m.step d = (.error .stackOverflow, d)
  ret : ∀ d, m.next = .ok .ret →
    match m.stack.live.getLast? with
    | some address =>
        ∃ next, m.step d = (.ok next, d) ∧ next.pc = address ∧
          next.stack.live = m.stack.live.dropLast
    | none => m.step d = (.error .stackUnderflow, d)
  other : ∀ i d next d', m.next = .ok i → (∀ target, i ≠ .call target) → i ≠ .ret →
    m.step d = (.ok next, d') → next.stack.live = m.stack.live

theorem listsReturns (hd : m.stack.depth ≤ stackDepth) : m.ListsReturns where
  bounded := CallStack.length_live hd ▸ hd
  call _ d hn := step_of_call hd hn d
  ret d hn := step_of_ret hd hn d
  other i d next d' hn hcall hret h := by
    have hlist := returns_of_step hd h
    rw [returns_of_next hn] at hlist
    cases i with
    | call target => exact absurd rfl (hcall target)
    | ret => exact absurd rfl hret
    | _ => exact (Except.ok.inj hlist).symm

end Machine
end ChipEight
