import ChipEight.Devices
import ChipEight.Instruction.Decode
import ChipEight.Machine

/-!
What each instruction does. A step yields the next machine or a fault, and in both cases the
devices as they are afterwards. A faulting step has no next machine: the one before it stays.
-/

namespace ChipEight

/-- Whether a skip is taken. A register that numbers no key is a fault. -/
def Test.holds (m : Machine) (pad : Keypad) : Test → Except Fault Bool
  | .equalByte x byte => .ok (m.register x == byte)
  | .unequalByte x byte => .ok (m.register x != byte)
  | .equalRegister x y => .ok (m.register x == m.register y)
  | .unequalRegister x y => .ok (m.register x != m.register y)
  | .keyDown x => pad.isHeld (m.register x)
  | .keyUp x => (pad.isHeld (m.register x)).map not

/-- The new value of the first register, and the flag where the operation sets it. -/
def Operation.apply (a b : UInt8) : Operation → UInt8 × Option Bool
  | .copy => (b, none)
  | .or => (a ||| b, none)
  | .and => (a &&& b, none)
  | .xor => (a ^^^ b, none)
  | .add => (a + b, some (256 ≤ a.toNat + b.toNat))
  | .subtract => (a - b, some (b ≤ a))
  | .subtractFrom => (b - a, some (a ≤ b))

/-- The shifted value and the bit that was shifted out. -/
def Direction.shift (a : UInt8) : Direction → UInt8 × Bool
  | .right => (.ofNat (a.toNat / 2), a.toNat % 2 == 1)
  | .left => (.ofNat (2 * a.toNat), 128 ≤ a.toNat)

namespace Machine

def advance (m : Machine) : Machine := { m with pc := m.pc + 2 }

/-- The flag is written last, so it wins where the result goes to the flag register too. -/
def setResult (m : Machine) (x : Register) (value : UInt8) (flag : Option Bool) : Machine :=
  let written := m.setRegister x value
  match flag with
  | some bit => written.setFlag bit
  | none => written

/-- The decimal digits of a byte. -/
def decimalDigits (value : UInt8) : List UInt8 :=
  [.ofNat (value.toNat / 100), .ofNat (value.toNat / 10 % 10), .ofNat (value.toNat % 10)]

/-- Jumps to the address on top of the stack and takes it off. -/
def leave (m : Machine) : Except Fault Machine :=
  m.stack.pop.map fun (address, stack) => { m with pc := address, stack }

/-- Puts the program counter on the stack and jumps. -/
def enter (m : Machine) (target : UInt16) : Except Fault Machine :=
  (m.stack.push m.pc).map fun stack => { m with pc := target, stack }

def skipIf (m : Machine) (taken : Bool) : Machine := if taken then m.advance else m

def storeAtIndex (m : Machine) (bytes : List UInt8) : Except Fault Machine :=
  (m.memory.store m.index.toNat bytes).map fun memory => { m with memory }

/-- Fills the first `count` registers from memory. -/
def loadFromIndex (m : Machine) (count : Nat) : Except Fault Machine :=
  (m.memory.slice m.index.toNat count).map fun bytes =>
    { m with registers := Cells.overwrite m.registers 0 bytes }

/-- Carries out one instruction. The program counter is already past its word. -/
def execute (m : Machine) (d : Devices) : Instruction → Except Fault Machine × Devices
  | .nop => (.ok m, d)
  | .clearScreen => (.ok m, { d with screen := d.screen.clear })
  | .ret => (m.leave, d)
  | .jump target => (.ok { m with pc := target }, d)
  | .call target => (m.enter target, d)
  | .skip test => ((test.holds m d.keypad).map m.skipIf, d)
  | .loadByte x byte => (.ok (m.setRegister x byte), d)
  | .addByte x byte => (.ok (m.setRegister x (m.register x + byte)), d)
  | .combine operation x y =>
      let (value, flag) := operation.apply (m.register x) (m.register y)
      (.ok (m.setResult x value flag), d)
  | .shift direction x =>
      let (value, out) := direction.shift (m.register x)
      (.ok (m.setResult x value (some out)), d)
  | .setIndex address => (.ok { m with index := address &&& addressMask }, d)
  | .jumpOffset start => (.ok { m with pc := (m.register base).toUInt16 + start }, d)
  | .random x mask =>
      let (byte, feed) := d.feed.takeRandom
      (.ok (m.setRegister x (byte &&& mask)), { d with feed })
  | .draw x y rows =>
      match m.memory.slice m.index.toNat rows.toNat with
      | .ok sprite =>
          let (screen, hit) := d.screen.draw (m.register x) (m.register y) sprite
          (.ok (m.setFlag hit), { d with screen })
      | .error fault => (.error fault, d)
  | .readDelay x => (.ok (m.setRegister x d.timers.delay), d)
  | .awaitKey x =>
      let (answer, feed) := d.feed.takeAnswer
      match answer with
      | some key => (.ok (m.setRegister x key.toByte), { d with feed })
      | none => (.ok { m with pc := m.pc - 2 }, { d with feed })
  | .setDelay x => (.ok m, { d with timers.delay := m.register x })
  | .setSound x => (.ok m, { d with timers.sound := m.register x })
  | .addIndex x =>
      (.ok { m with index := (m.index + (m.register x).toUInt16) &&& addressMask }, d)
  | .glyph x =>
      let start := (m.register x).toUInt16 * .ofNat Font.glyphSize
      (.ok { m with index := start &&& addressMask }, d)
  | .storeDecimal x => (m.storeAtIndex (decimalDigits (m.register x)), d)
  | .storeRegisters x => (m.storeAtIndex (m.registers.toList.take (x.val + 1)), d)
  | .loadRegisters x => (m.loadFromIndex (x.val + 1), d)

/-- The instruction that the program counter is at. -/
def next (m : Machine) : Except Fault Instruction :=
  m.fetch.bind Instruction.decode

def step (m : Machine) (d : Devices) : Except Fault Machine × Devices :=
  match m.next with
  | .ok instruction => m.advance.execute d instruction
  | .error fault => (.error fault, d)

end Machine
end ChipEight
