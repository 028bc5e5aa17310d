import ChipEight.Fault

/-!
The stack of return addresses. Slots at or above the depth keep what was last written to them;
`live` is the part that returns can reach.
-/

namespace ChipEight

structure CallStack where
  slots : Vector UInt16 stackDepth
  depth : Nat
  deriving DecidableEq

namespace CallStack

def empty : CallStack := ⟨.replicate stackDepth 0, 0⟩

def ofList (addresses : List UInt16) : CallStack :=
  ⟨.ofFn fun k => addresses.getD k 0, addresses.length⟩

/-- The addresses to return to, oldest first. -/
def live (s : CallStack) : List UInt16 :=
  s.slots.toList.take s.depth

def push (s : CallStack) (address : UInt16) : Except Fault CallStack :=
  if _ : s.depth < stackDepth then
    .ok ⟨s.slots.set s.depth address, s.depth + 1⟩
  else
    .error .stackOverflow

def pop (s : CallStack) : Except Fault (UInt16 × CallStack) :=
  match s.depth with
  | 0 => .error .stackUnderflow
  | top + 1 => .ok (s.slots.toList.getD top 0, { s with depth := top })

@[simp] theorem live_empty : empty.live = [] := rfl

/-- A push puts its address after the live ones. -/
theorem live_push {s t : CallStack} {address : UInt16} (h : s.push address = .ok t) :
    t.live = s.live ++ [address] := by
  unfold push at h
  split at h
  · rename_i hd
    cases h
    simp only [live, Vector.toList_set]
    rw [List.take_succ_eq_append_getElem (by simpa using hd)]
    simp [List.take_set_of_le]
  · cases h

/-- A pop takes the last live address. -/
theorem live_pop {s t : CallStack} {address : UInt16} (hs : s.depth ≤ stackDepth)
    (h : s.pop = .ok (address, t)) : s.live = t.live ++ [address] := by
  unfold pop at h
  split at h
  · cases h
  · rename_i top hd
    cases h
    have htop : top < stackDepth := by omega
    simp only [live, hd]
    rw [List.take_succ_eq_append_getElem (by simpa using htop)]
    simp [List.getD, htop]

end CallStack
end ChipEight
