/-!
The delay and the sound timer. Each tick takes one from both and a timer at zero stays there.
-/

namespace ChipEight

structure Timers where
  delay : UInt8
  sound : UInt8
  deriving DecidableEq, Repr

namespace Timers

def zero : Timers := ⟨0, 0⟩

def countDown (value : UInt8) : UInt8 :=
  if value = 0 then 0 else value - 1

def tick (t : Timers) : Timers :=
  ⟨countDown t.delay, countDown t.sound⟩

theorem toNat_countDown (value : UInt8) : (countDown value).toNat = value.toNat - 1 := by
  unfold countDown
  split
  · rename_i h
    simp [h]
  · rename_i h
    have hpos : value.toNat ≠ 0 := fun hz => h (UInt8.toNat_inj.mp hz)
    have hle : (1 : UInt8) ≤ value :=
      UInt8.le_iff_toNat_le.mpr (show 1 ≤ value.toNat by omega)
    exact UInt8.toNat_sub_of_le _ _ hle

/-- A beeper sounds while the sound timer runs. -/
def beeping (t : Timers) : Bool := t.sound ≠ 0

end Timers
end ChipEight
