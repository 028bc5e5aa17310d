import ChipEight.Screen.Frame

/-!
The screen: its frame, and whether it changed since a renderer last took it. Every draw and every
clear counts as a change, also one that leaves all cells as they were.
-/

namespace ChipEight

structure Screen where
  frame : Frame
  changed : Bool
  deriving DecidableEq

namespace Screen

def blank : Screen := ⟨.blank, false⟩

def clear (_ : Screen) : Screen := ⟨.blank, true⟩

def draw (s : Screen) (x y : UInt8) (sprite : List UInt8) : Screen × Bool :=
  let (frame, hit) := s.frame.draw x.toNat y.toNat sprite
  (⟨frame, true⟩, hit)

/-- The frame if it changed since it was last taken. -/
def take (s : Screen) : Option Frame × Screen :=
  (if s.changed then some s.frame else none, { s with changed := false })

end Screen
end ChipEight
