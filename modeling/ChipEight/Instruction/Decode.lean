import ChipEight.Fault
import ChipEight.Instruction

/-!
Reading an instruction from its word. The leading nibble selects a family, and the families that
hold several instructions have a reader each. A word of no instruction is a fault that names it.
-/

namespace ChipEight.Instruction

/-- Words whose second nibble is not zero call a routine that this machine does not have. -/
def decodeSystem (w : Word) : Except Fault Instruction :=
  if w.toNat = 0x0000 then .ok .nop
  else if w.toNat = 0x00E0 then .ok .clearScreen
  else if w.toNat = 0x00EE then .ok .ret
  else if w.x.val = 0 then .error (.invalidInstruction w)
  else .error (.unsupportedLegacyCall w)

def decodeArithmetic (w : Word) : Except Fault Instruction :=
  match w.lastNibble with
  | 0x0 => .ok (.combine .copy w.x w.y)
  | 0x1 => .ok (.combine .or w.x w.y)
  | 0x2 => .ok (.combine .and w.x w.y)
  | 0x3 => .ok (.combine .xor w.x w.y)
  | 0x4 => .ok (.combine .add w.x w.y)
  | 0x5 => .ok (.combine .subtract w.x w.y)
  | 0x6 => .ok (.shift .right w.x)
  | 0x7 => .ok (.combine .subtractFrom w.x w.y)
  | 0xE => .ok (.shift .left w.x)
  | _ => .error (.invalidInstruction w)

def decodeKey (w : Word) : Except Fault Instruction :=
  match w.lastByte.toNat with
  | 0x9E => .ok (.skip (.keyDown w.x))
  | 0xA1 => .ok (.skip (.keyUp w.x))
  | _ => .error (.invalidInstruction w)

def decodeDevice (w : Word) : Except Fault Instruction :=
  match w.lastByte.toNat with
  | 0x07 => .ok (.readDelay w.x)
  | 0x0A => .ok (.awaitKey w.x)
  | 0x15 => .ok (.setDelay w.x)
  | 0x18 => .ok (.setSound w.x)
  | 0x1E => .ok (.addIndex w.x)
  | 0x29 => .ok (.glyph w.x)
  | 0x33 => .ok (.storeDecimal w.x)
  | 0x55 => .ok (.storeRegisters w.x)
  | 0x65 => .ok (.loadRegisters w.x)
  | _ => .error (.invalidInstruction w)

def decode (w : Word) : Except Fault Instruction :=
  match w.family with
  | 0x0 => decodeSystem w
  | 0x1 => .ok (.jump w.address)
  | 0x2 => .ok (.call w.address)
  | 0x3 => .ok (.skip (.equalByte w.x w.lastByte))
  | 0x4 => .ok (.skip (.unequalByte w.x w.lastByte))
  | 0x5 =>
      if w.lastNibble = 0 then .ok (.skip (.equalRegister w.x w.y))
      else .error (.invalidInstruction w)
  | 0x6 => .ok (.loadByte w.x w.lastByte)
  | 0x7 => .ok (.addByte w.x w.lastByte)
  | 0x8 => decodeArithmetic w
  | 0x9 =>
      if w.lastNibble = 0 then .ok (.skip (.unequalRegister w.x w.y))
      else .error (.invalidInstruction w)
  | 0xA => .ok (.setIndex w.address)
  | 0xB => .ok (.jumpOffset w.address)
  | 0xC => .ok (.random w.x w.lastByte)
  | 0xD => .ok (.draw w.x w.y (.ofNat w.lastNibble))
  | 0xE => decodeKey w
  | _ => decodeDevice w

end ChipEight.Instruction
