import ChipEight.Timers
import Mathlib.Data.List.Induction

/-!
The two timers under ticks, writes and returns to zero. A timer is known from the last value that
was written to it since it was last returned to zero, and from the ticks since then: it has lost one
for each tick, or is at zero. The other timer does not come into it.
-/

namespace ChipEight.Timers

inductive Clock where
  | delay
  | sound
  deriving DecidableEq, Repr

inductive Event where
  | tick
  | write (clock : Clock) (value : UInt8)
  /-- Both timers return to zero. -/
  | renew
  deriving DecidableEq, Repr

def read (t : Timers) : Clock → UInt8
  | .delay => t.delay
  | .sound => t.sound

def handle (t : Timers) : Event → Timers
  | .tick => t.tick
  | .write .delay value => { t with delay := value }
  | .write .sound value => { t with sound := value }
  | .renew => .zero

def after (t : Timers) (events : List Event) : Timers := events.foldl handle t

/-- The value that the event writes to the timer. -/
def Event.written? (clock : Clock) : Event → Option UInt8
  | .write written value => if written = clock then some value else none
  | .tick | .renew => none

/-- The events since both timers were last returned to zero, the latest one first. -/
def recent (events : List Event) : List Event :=
  events.reverse.takeWhile (· ≠ .renew)

/-- The last value that was written to the timer since both were returned to zero, or else zero. -/
def written (clock : Clock) (events : List Event) : UInt8 :=
  ((recent events).findSome? (Event.written? clock)).getD 0

/-- The ticks since that write. -/
def ticksSince (clock : Clock) (events : List Event) : Nat :=
  ((recent events).takeWhile fun event => (event.written? clock).isNone).count .tick

/-- How far the timer has come down from the last value that was written to it. -/
def remaining (clock : Clock) (events : List Event) : Nat :=
  (written clock events).toNat - ticksSince clock events

variable {t : Timers} {clock : Clock} {event : Event} {events : List Event} {value : UInt8}

theorem after_append (t : Timers) (first second : List Event) :
    t.after (first ++ second) = (t.after first).after second :=
  List.foldl_append

theorem recent_append_renew (events : List Event) : recent (events ++ [.renew]) = [] := by
  rw [recent, List.reverse_append]
  rfl

theorem recent_append (h : event ≠ .renew) (events : List Event) :
    recent (events ++ [event]) = event :: recent events := by
  rw [recent, List.reverse_append]
  exact List.takeWhile_cons_of_pos (decide_eq_true h)

theorem remaining_append_renew (clock : Clock) (events : List Event) :
    remaining clock (events ++ [.renew]) = 0 := by
  rw [remaining, written, recent_append_renew]
  exact Nat.zero_sub _

theorem remaining_append_write (clock : Clock) (events : List Event) (value : UInt8) :
    remaining clock (events ++ [.write clock value]) = value.toNat := by
  have hwritten : (Event.write clock value).written? clock = some value := if_pos rfl
  rw [remaining, written, ticksSince, recent_append Event.noConfusion,
    List.findSome?_cons_of_isSome (hwritten ▸ rfl), List.takeWhile_cons_of_neg (by simp [hwritten]),
    hwritten]
  rfl

/-- Until the timer is written again, its remainder is counted on from where it was. -/
theorem remaining_append (hevent : event ≠ .renew) (h : event.written? clock = none)
    (events : List Event) :
    remaining clock (events ++ [event]) = remaining clock events - [event].count .tick := by
  have hwritten : written clock (events ++ [event]) = written clock events := by
    rw [written, recent_append hevent, List.findSome?_cons_of_isNone (h ▸ rfl)]
    rfl
  have hticks : ticksSince clock (events ++ [event]) =
      ticksSince clock events + [event].count .tick := by
    rw [ticksSince, recent_append hevent, List.takeWhile_cons_of_pos (h ▸ rfl),
      ← List.singleton_append, List.count_append, Nat.add_comm]
    rfl
  rw [remaining, hwritten, hticks, Nat.sub_add_eq]
  rfl

theorem read_write_of_ne {other : Clock} (h : other ≠ clock) (t : Timers) (value : UInt8) :
    (t.handle (.write other value)).read clock = t.read clock := by
  cases other <;> cases clock
  · exact absurd rfl h
  · rfl
  · rfl
  · exact absurd rfl h

theorem read_write (t : Timers) (clock : Clock) (value : UInt8) :
    (t.handle (.write clock value)).read clock = value := by
  cases clock <;> rfl

theorem read_tick (t : Timers) (clock : Clock) :
    (t.handle .tick).read clock = countDown (t.read clock) := by
  cases clock <;> rfl

theorem toNat_read_after (clock : Clock) (events : List Event) :
    ((zero.after events).read clock).toNat = remaining clock events := by
  induction events using List.reverseRecOn with
  | nil => cases clock <;> rfl
  | append_singleton past event ih =>
      rw [after_append]
      change (((zero.after past).handle event).read clock).toNat = _
      cases event with
      | tick =>
          rw [read_tick, toNat_countDown, ih, remaining_append Event.noConfusion rfl]
          rfl
      | renew =>
          rw [remaining_append_renew]
          cases clock <;> rfl
      | write other value =>
          by_cases h : other = clock
          · rw [h, read_write, remaining_append_write]
          · have hnone : (Event.write other value).written? clock = none := if_neg h
            rw [read_write_of_ne h, ih, remaining_append Event.noConfusion hnone]
            rfl

theorem remaining_le (clock : Clock) (events : List Event) :
    remaining clock events ≤ (written clock events).toNat :=
  Nat.sub_le _ _

end ChipEight.Timers
