import ChipEight.Proofs.Machine.Effects

/-!
The key wait as a single step, and what any step leaves of the keypad and of the queued answers. A
wait that is cancelled takes the program counter back over the word that the step has passed, so it
comes out at the machine it started from, whatever its address.
-/

namespace ChipEight.Machine

variable {m : Machine} {d : Devices} {x : Register}

/-- The machine after a key wait: a key is in the register, and a cancellation has left no trace. -/
def afterWait (m : Machine) (x : Register) : Option Key → Machine
  | some key => m.advance.setRegister x key.toByte
  | none => m

theorem advance_back (m : Machine) : { m.advance with pc := m.advance.pc - 2 } = m := by
  simp only [advance, UInt16.add_sub_cancel]

theorem step_awaitKey (hn : m.next = .ok (.awaitKey x)) (d : Devices) :
    m.step d =
      (.ok (m.afterWait x d.feed.takeAnswer.1), { d with feed := d.feed.takeAnswer.2 }) := by
  rw [step_of_next hn]
  simp only [execute]
  cases d.feed.takeAnswer.1 with
  | some key => rfl
  | none => rw [advance_back, afterWait]

/-- No instruction presses or releases a key; the wait is the loop's to mark. -/
theorem keypad_of_step (m : Machine) (d : Devices) : (m.step d).2.keypad = d.keypad := by
  cases hn : m.next with
  | error f => rw [step_of_next_error hn]
  | ok i =>
      rw [step_of_next hn]
      cases i with
      | draw x y rows =>
          simp only [execute]
          split <;> rfl
      | awaitKey x =>
          simp only [execute]
          split <;> rfl
      | _ => rfl

theorem answers_of_step (hd : d.feed.answers = []) : (m.step d).2.feed.answers = [] := by
  have hrandom : d.feed.takeRandom.2.answers = d.feed.answers := by
    simp only [Feed.takeRandom]
    split <;> rfl
  have hanswer : d.feed.takeAnswer.2 = d.feed := by
    simp only [Feed.takeAnswer, hd]
  cases hn : m.next with
  | error f =>
      rw [step_of_next_error hn]
      exact hd
  | ok i =>
      cases i with
      | random x mask =>
          rw [step_of_next hn]
          exact hrandom.trans hd
      | awaitKey x =>
          rw [step_awaitKey hn, hanswer]
          exact hd
      | draw x y rows =>
          rw [step_of_next hn]
          simp only [execute]
          split <;> exact hd
      | _ =>
          rw [step_of_next hn]
          exact hd

end ChipEight.Machine
