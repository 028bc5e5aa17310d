/-!
How fast instructions follow one another: a pause between two of them, in nanoseconds.
-/

namespace ChipEight

structure Pace where
  pause : Nat
  deriving DecidableEq, Repr

namespace Pace

def nanosPerSecond : Nat := 1000000000

/-- As fast as the host allows. -/
def unthrottled : Pace := ⟨0⟩

/-- About `rate` instructions per second; no limit for a rate of zero. -/
def ofRate (rate : Nat) : Pace :=
  if rate = 0 then unthrottled else ⟨nanosPerSecond / rate⟩

end Pace
end ChipEight
