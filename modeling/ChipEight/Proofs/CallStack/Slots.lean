import ChipEight.CallStack

/-!
When a push or a pop succeeds, and what it leaves in the depth and in each slot.
-/

namespace ChipEight.CallStack

def SameBelow (k : Nat) (s t : CallStack) : Prop :=
  ∀ j : Fin stackDepth, j.val < k → s.slots[j] = t.slots[j]

variable {s t : CallStack} {address : UInt16}

theorem push_eq_ok (h : s.push address = .ok t) :
    ∃ hd : s.depth < stackDepth, t = ⟨s.slots.set s.depth address, s.depth + 1⟩ := by
  simp only [push] at h
  split at h
  · exact ⟨‹_›, (Except.ok.inj h).symm⟩
  · cases h

theorem pop_eq_ok (h : s.pop = .ok (address, t)) :
    s.depth = t.depth + 1 ∧ t.slots = s.slots ∧
      ∀ j : Fin stackDepth, j.val = t.depth → address = s.slots[j] := by
  simp only [pop] at h
  split at h
  · cases h
  · cases h
    refine ⟨‹_›, rfl, ?_⟩
    rintro ⟨j, hj⟩ rfl
    simp only [List.getD_eq_getElem?_getD, Vector.getElem?_toList, Vector.getElem?_eq_getElem hj,
      Option.getD_some, Fin.getElem_fin]

theorem getElem_of_push (h : s.push address = .ok t) (j : Fin stackDepth) :
    t.slots[j] = if s.depth = j.val then address else s.slots[j] := by
  obtain ⟨hd, rfl⟩ := push_eq_ok h
  exact Vector.getElem_set hd j.isLt

theorem push_eq_error_iff {f : Fault} :
    s.push address = .error f ↔ stackDepth ≤ s.depth ∧ f = .stackOverflow := by
  simp only [push]
  split
  case isTrue hd =>
      constructor
      · intro h
        cases h
      · intro h
        omega
  case isFalse hd =>
      constructor
      · intro h
        exact ⟨by omega, (Except.error.inj h).symm⟩
      · rintro ⟨_, rfl⟩
        rfl

theorem pop_eq_error_iff {f : Fault} :
    s.pop = .error f ↔ s.depth = 0 ∧ f = .stackUnderflow := by
  simp only [pop]
  split
  case h_1 hd =>
      constructor
      · intro h
        exact ⟨hd, (Except.error.inj h).symm⟩
      · rintro ⟨_, rfl⟩
        rfl
  case h_2 top hd =>
      constructor
      · intro h
        cases h
      · intro h
        omega

theorem length_live (h : s.depth ≤ stackDepth) : s.live.length = s.depth := by
  rw [live, List.length_take, Vector.length_toList]
  exact Nat.min_eq_left h

end ChipEight.CallStack
