import ChipEight.Proofs.Console.Presses
import ChipEight.Proofs.Console.Returns

/-!
What callers see of a console that they share: which call returned with what reply, and the flags.
They cannot see how many presses were counted, nor how many runs there were, since a blocked caller
only compares the number of its own run with the current one; nor whether the loop was to stop while
there is none, since a run clears that before its loop can look.
-/

namespace ChipEight

def Blocked.recount (n : UInt64) (b : Blocked) : Blocked := { b with run := b.run + n }

theorem Errand.finish_recount (errand : Errand) (c : Console) (n : UInt64) :
    errand.finish (c.recount n) = ((errand.finish c).1, (errand.finish c).2.recount n) := by
  cases errand <;> rfl

namespace Shared

open Console (Call Reply)

/-- What callers see of an act: the call that returned and its reply, and the flags afterwards. -/
structure Sight where
  returned : Option (Call × Reply)
  loaded : Bool
  running : Bool
  soundActive : Bool
  awaitingKey : Bool
  deriving DecidableEq

def sight (s : Shared) (act : Act) : Sight where
  returned := (s.step act).1
  loaded := (s.step act).2.console.loaded
  running := (s.step act).2.console.running
  soundActive := (s.step act).2.console.soundActive
  awaitingKey := (s.step act).2.console.awaitingKey

def observe (s : Shared) : List Act → List Sight
  | [] => []
  | act :: rest => s.sight act :: (s.step act).2.observe rest

/-- The second has counted `n` presses and `k` runs more than the first. While there is no loop, one
of them may have been told to stop and the other not. -/
structure SameSight (n k : UInt64) (s t : Shared) : Prop where
  console : t.console = s.console.recount n
  runs : t.runs = s.runs + k
  cancel : s.console.loop.isSome → t.cancel = s.cancel
  blocked : t.blocked = s.blocked.map (.recount k)

variable {n k : UInt64} {s t : Shared}

theorem SameSight.running (h : SameSight n k s t) : t.console.running = s.console.running := by
  rw [h.console]
  rfl

theorem SameSight.finish (h : SameSight n k s t) (errand : Errand) :
    (t.finish errand).1 = (s.finish errand).1 ∧
      SameSight n k (s.finish errand).2 (t.finish errand).2 := by
  have hfinish := errand.finish_recount s.console n
  obtain ⟨hloop, _⟩ := s.console.loop_finish errand
  simp only [Shared.finish, h.console, hfinish]
  exact ⟨trivial, rfl, h.runs, fun hsome => h.cancel (hloop ▸ hsome), h.blocked⟩

theorem SameSight.ask (h : SameSight n k s t) (errand : Errand) :
    (t.ask errand).1 = (s.ask errand).1 ∧ SameSight n k (s.ask errand).2 (t.ask errand).2 := by
  simp only [Shared.ask, h.running]
  split
  · refine ⟨rfl, h.console, h.runs, ?_, ?_⟩
    · intro hsome
      rw [h.cancel hsome]
    · rw [h.blocked, h.runs, List.map_append]
      rfl
  · exact h.finish errand

/-- A blocked caller is of the current run in both or in neither. -/
theorem SameSight.wake (h : SameSight n k s t) (i : Nat) :
    (t.wake i).1 = (s.wake i).1 ∧ SameSight n k (s.wake i).2 (t.wake i).2 := by
  have hi : t.blocked[i]? = s.blocked[i]?.map (.recount k) := by
    rw [h.blocked, List.getElem?_map]
  cases hb : s.blocked[i]? with
  | none =>
      rw [hb] at hi
      simp only [Shared.wake, hb, hi, Option.map_none]
      exact ⟨trivial, h⟩
  | some b =>
      rw [hb] at hi
      have hrun : (b.recount k).run = t.runs ↔ b.run = s.runs := by
        rw [h.runs]
        exact UInt64.add_left_inj k
      simp only [Shared.wake, hb, hi, Option.map_some, h.running, hrun]
      split
      · exact ⟨rfl, h⟩
      · have herased : SameSight n k { s with blocked := s.blocked.eraseIdx i }
            { t with blocked := t.blocked.eraseIdx i } := by
          refine ⟨h.console, h.runs, h.cancel, ?_⟩
          rw [h.blocked, List.eraseIdx_map]
        exact herased.finish b.errand

theorem SameSight.start (h : SameSight n k s t) :
    t.start.1 = s.start.1 ∧ SameSight n k s.start.2 t.start.2 := by
  have hstart := s.console.start_recount n
  simp only [Shared.start, h.console, hstart]
  cases hs : s.console.start with
  | mk outcome console =>
      cases outcome with
      | ok done =>
          refine ⟨rfl, rfl, ?_, fun _ => rfl, h.blocked⟩
          rw [h.runs, UInt64.add_assoc, UInt64.add_comm k, ← UInt64.add_assoc]
      | error refusal =>
          obtain ⟨hloop, _⟩ := Console.loop_start_of_refused (congrArg Prod.fst hs)
          rw [hs] at hloop
          exact ⟨rfl, rfl, h.runs, fun hsome => h.cancel (hloop ▸ hsome), h.blocked⟩

/-- A loop that is there looks at the same flag in both. -/
theorem SameSight.turn (h : SameSight n k s t) (looked : Bool) :
    SameSight n k (s.turn looked) (t.turn looked) := by
  cases hl : s.console.loop with
  | none =>
      have hl' : t.console.loop = none := by
        rw [h.console, Console.recount, hl, Option.map_none]
      rw [Shared.turn, Shared.turn, Console.turn_of_idle hl, Console.turn_of_idle hl']
      exact h
  | some l =>
      have hcancel : t.cancel = s.cancel := h.cancel (by rw [hl, Option.isSome_some])
      refine ⟨?_, h.runs, fun _ => hcancel, h.blocked⟩
      rw [Shared.turn, Shared.turn, h.console, hcancel, Console.turn_recount]

/-- A call that leaves the loop alone. -/
theorem SameSight.perform (h : SameSight n k s t) (call : Call)
    (hloop : (s.console.perform call).2.loop = s.console.loop) :
    some (call, (t.console.perform call).1) = some (call, (s.console.perform call).1) ∧
      SameSight n k { s with console := (s.console.perform call).2 }
        { t with console := (t.console.perform call).2 } := by
  have hperform := s.console.perform_recount n call
  rw [h.console, hperform]
  exact ⟨rfl, rfl, h.runs, fun hsome => h.cancel (hloop ▸ hsome), h.blocked⟩

/-- Two consoles that callers see alike answer an act alike, and are seen alike afterwards. -/
theorem SameSight.step (h : SameSight n k s t) (act : Act) :
    (t.step act).1 = (s.step act).1 ∧ SameSight n k (s.step act).2 (t.step act).2 := by
  cases act with
  | wake i => exact h.wake i
  | turn looked => exact ⟨rfl, h.turn looked⟩
  | supply random =>
      refine ⟨rfl, ?_, h.runs, h.cancel, h.blocked⟩
      simp only [Shared.step, h.console]
      rfl
  | call call =>
      cases call with
      | load program => exact h.ask (.load program)
      | reset => exact h.ask .reset
      | halt => exact h.ask .halt
      | wait => exact h.ask .wait
      | run => exact h.start
      | press byte => exact h.perform (.press byte) rfl
      | release byte => exact h.perform (.release byte) rfl
      | tick => exact h.perform .tick rfl
      | display => exact h.perform .display rfl
      | takeFrame => exact h.perform .takeFrame rfl
      | dump => exact h.perform .dump rfl

theorem SameSight.sight (h : SameSight n k s t) (act : Act) : t.sight act = s.sight act := by
  obtain ⟨hreturned, hnext⟩ := h.step act
  simp only [Shared.sight, hreturned, hnext.console]
  rfl

theorem SameSight.observe (h : SameSight n k s t) (acts : List Act) :
    t.observe acts = s.observe acts := by
  induction acts generalizing s t with
  | nil => rfl
  | cons act rest ih =>
      have hrest := ih (h.step act).2
      rw [Shared.observe, Shared.observe, h.sight act, hrest]

end Shared
end ChipEight
