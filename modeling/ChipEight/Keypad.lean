import ChipEight.Fault

/-!
The sixteen keys and the wait for one of them. Callers name a key by any byte, and a byte that
names none is a fault without effect. A wait remembers how many presses there had been when it
began: a key that is already held does not end it, a later press does.
-/

namespace ChipEight

abbrev Key := Fin keyCount

/-- The key that a byte names. -/
def Key.ofByte (byte : UInt8) : Except Fault Key :=
  if h : byte.toNat < keyCount then .ok ⟨byte.toNat, h⟩ else .error (.invalidKeyIndex byte)

def Key.toByte (key : Key) : UInt8 := .ofNat key.val

structure Keypad where
  held : Vector Bool keyCount
  /-- The key of the last press, whether or not it is still held. -/
  latest : Option Key
  presses : UInt64
  waiting : Bool
  deriving DecidableEq

namespace Keypad

def untouched : Keypad := ⟨.replicate keyCount false, none, 0, false⟩

def pressKey (pad : Keypad) (key : Key) : Keypad :=
  { pad with held := pad.held.set key true, latest := some key, presses := pad.presses + 1 }

def releaseKey (pad : Keypad) (key : Key) : Keypad :=
  { pad with held := pad.held.set key false }

def press (pad : Keypad) (byte : UInt8) : Except Fault Unit × Keypad :=
  match Key.ofByte byte with
  | .ok key => (.ok (), pad.pressKey key)
  | .error fault => (.error fault, pad)

def release (pad : Keypad) (byte : UInt8) : Except Fault Unit × Keypad :=
  match Key.ofByte byte with
  | .ok key => (.ok (), pad.releaseKey key)
  | .error fault => (.error fault, pad)

def isHeld (pad : Keypad) (byte : UInt8) : Except Fault Bool :=
  (Key.ofByte byte).map fun key => pad.held[key]

/-- Marks the keypad as waited on; the wait is for a press after the present ones. -/
def beginWait (pad : Keypad) : Keypad := { pad with waiting := true }

def endWait (pad : Keypad) : Keypad := { pad with waiting := false }

/-- What a wait that began after `before` presses finds when it looks: nothing yet, a key, or that
it was cancelled. A press counts even if a cancellation came with it. -/
def answer? (pad : Keypad) (before : UInt64) (cancelled : Bool) : Option (Option Key) :=
  if pad.presses ≠ before then some pad.latest
  else if cancelled then some none
  else none

end Keypad
end ChipEight
