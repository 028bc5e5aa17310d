import ChipEight.Instruction.Decode
import Mathlib.Tactic.FinCases

/-!
The thirty-five patterns of instruction words, and decoding measured against them. A word decodes
if and only if it has one of the patterns; the instruction carries the word's fields, and the fault
for any other word names it.
-/

namespace ChipEight

/-- The four nibbles of a word, each given or left to a field. -/
structure Pattern where
  first : Option Nat
  second : Option Nat
  third : Option Nat
  fourth : Option Nat

namespace Pattern

def family (n : Nat) : Pattern := ⟨some n, none, none, none⟩

def registers (n last : Nat) : Pattern := ⟨some n, none, none, some last⟩

def operation (n third fourth : Nat) : Pattern := ⟨some n, none, some third, some fourth⟩

def single (third fourth : Nat) : Pattern := ⟨some 0, some 0, some third, some fourth⟩

def all : List Pattern :=
  [single 0 0, single 0xE 0, single 0xE 0xE,
   family 1, family 2, family 3, family 4, registers 5 0, family 6, family 7,
   registers 8 0, registers 8 1, registers 8 2, registers 8 3, registers 8 4,
   registers 8 5, registers 8 6, registers 8 7, registers 8 0xE,
   registers 9 0, family 0xA, family 0xB, family 0xC, family 0xD,
   operation 0xE 9 0xE, operation 0xE 0xA 1,
   operation 0xF 0 7, operation 0xF 0 0xA, operation 0xF 1 5, operation 0xF 1 8,
   operation 0xF 1 0xE, operation 0xF 2 9, operation 0xF 3 3, operation 0xF 5 5,
   operation 0xF 6 5]

theorem length_all : all.length = 35 := rfl

theorem exists_first_of_mem_all {p : Pattern} (h : p ∈ all) :
    ∃ n, p.first = some n ∧ (n = 0 → p.second = some 0) := by
  revert p
  simp [all, single, family, registers, operation]

end Pattern

namespace Word

open Pattern

def Matches (w : Word) (p : Pattern) : Prop :=
  (∀ n ∈ p.first, w.family = n) ∧ (∀ n ∈ p.second, w.x.val = n) ∧
    (∀ n ∈ p.third, w.y.val = n) ∧ (∀ n ∈ p.fourth, w.lastNibble = n)

def IsInstruction (w : Word) : Prop := ∃ p ∈ Pattern.all, w.Matches p

/-- A call of a routine that this machine does not have. -/
def IsLegacyCall (w : Word) : Prop := w.family = 0 ∧ w.x.val ≠ 0

instance (w : Word) (p : Pattern) : Decidable (w.Matches p) :=
  inferInstanceAs (Decidable (_ ∧ _))

instance (w : Word) : Decidable w.IsInstruction :=
  inferInstanceAs (Decidable (∃ p ∈ Pattern.all, w.Matches p))

instance (w : Word) : Decidable w.IsLegacyCall :=
  inferInstanceAs (Decidable (_ ∧ _))

@[simp] theorem matches_family {w : Word} {n : Nat} : w.Matches (.family n) ↔ w.family = n := by
  simp [Matches, Pattern.family]

@[simp] theorem matches_registers {w : Word} {n last : Nat} :
    w.Matches (.registers n last) ↔ w.family = n ∧ w.lastNibble = last := by
  simp [Matches, Pattern.registers]

@[simp] theorem matches_operation {w : Word} {n third fourth : Nat} :
    w.Matches (.operation n third fourth) ↔
      w.family = n ∧ w.y.val = third ∧ w.lastNibble = fourth := by
  simp [Matches, Pattern.operation]

@[simp] theorem matches_single {w : Word} {third fourth : Nat} :
    w.Matches (.single third fourth) ↔
      w.family = 0 ∧ w.x.val = 0 ∧ w.y.val = third ∧ w.lastNibble = fourth := by
  simp [Matches, Pattern.single]

theorem lastNibble_lt (w : Word) : w.lastNibble < 16 := Nat.mod_lt _ (by decide)

theorem val_x (w : Word) : w.x.val = w.toNat / 256 % 16 := rfl

theorem val_y (w : Word) : w.y.val = w.toNat / 16 % 16 := rfl

theorem nibbles_lt (w : Word) : ∀ n ∈ w.nibbles, n < registerCount := by
  have hx := w.x.isLt
  have hy := w.y.isLt
  simp only [nibbles, List.forall_mem_cons]
  exact ⟨w.family_lt, hx, hy, w.lastNibble_lt, fun n hn => nomatch hn⟩

theorem toNat_eq_nibbles (w : Word) :
    w.toNat = 4096 * w.family + 256 * w.x.val + 16 * w.y.val + w.lastNibble := by
  have h := w.toNat_lt
  simp only [family, val_x, val_y, lastNibble]
  omega

theorem toNat_lastByte (w : Word) : w.lastByte.toNat = 16 * w.y.val + w.lastNibble := by
  simp only [lastByte, val_y, lastNibble, UInt8.toNat_ofNat']
  omega

theorem toNat_address (w : Word) : w.address.toNat = w.toNat % 4096 := by
  simp only [address, UInt16.toNat_ofNat']
  omega

theorem nibbles_of_lastByte {w : Word} {byte : Nat} (h : w.lastByte.toNat = byte) :
    w.y.val = byte / 16 ∧ w.lastNibble = byte % 16 := by
  have hb := w.toNat_lastByte
  have hn := w.lastNibble_lt
  omega

/-- Only the patterns with its own leading nibble can fit a word. -/
theorem not_isInstruction_of_family {w : Word} {n : Nat} (h : w.family = n)
    (hno : ∀ p ∈ Pattern.all.filter (·.first == some n), ¬ w.Matches p) : ¬ w.IsInstruction := by
  rintro ⟨p, hp, hm⟩
  obtain ⟨k, hk, _⟩ := Pattern.exists_first_of_mem_all hp
  have hkn : k = n := (hm.1 k hk).symm.trans h
  exact hno p (List.mem_filter.mpr ⟨hp, by simp [hk, hkn]⟩) hm

end Word

namespace Instruction

def pattern : Instruction → Pattern
  | .nop => .single 0 0
  | .clearScreen => .single 0xE 0
  | .ret => .single 0xE 0xE
  | .jump _ => .family 1
  | .call _ => .family 2
  | .skip (.equalByte _ _) => .family 3
  | .skip (.unequalByte _ _) => .family 4
  | .skip (.equalRegister _ _) => .registers 5 0
  | .skip (.unequalRegister _ _) => .registers 9 0
  | .skip (.keyDown _) => .operation 0xE 9 0xE
  | .skip (.keyUp _) => .operation 0xE 0xA 1
  | .loadByte _ _ => .family 6
  | .addByte _ _ => .family 7
  | .combine .copy _ _ => .registers 8 0
  | .combine .or _ _ => .registers 8 1
  | .combine .and _ _ => .registers 8 2
  | .combine .xor _ _ => .registers 8 3
  | .combine .add _ _ => .registers 8 4
  | .combine .subtract _ _ => .registers 8 5
  | .combine .subtractFrom _ _ => .registers 8 7
  | .shift .right _ => .registers 8 6
  | .shift .left _ => .registers 8 0xE
  | .setIndex _ => .family 0xA
  | .jumpOffset _ => .family 0xB
  | .random _ _ => .family 0xC
  | .draw _ _ _ => .family 0xD
  | .readDelay _ => .operation 0xF 0 7
  | .awaitKey _ => .operation 0xF 0 0xA
  | .setDelay _ => .operation 0xF 1 5
  | .setSound _ => .operation 0xF 1 8
  | .addIndex _ => .operation 0xF 1 0xE
  | .glyph _ => .operation 0xF 2 9
  | .storeDecimal _ => .operation 0xF 3 3
  | .storeRegisters _ => .operation 0xF 5 5
  | .loadRegisters _ => .operation 0xF 6 5

def OperandsOf (w : Word) : Instruction → Prop
  | .nop | .clearScreen | .ret => True
  | .jump a | .call a | .setIndex a | .jumpOffset a => a = w.address
  | .skip (.equalByte x b) | .skip (.unequalByte x b) | .loadByte x b | .addByte x b
  | .random x b => x = w.x ∧ b = w.lastByte
  | .skip (.equalRegister x y) | .skip (.unequalRegister x y) | .combine _ x y =>
      x = w.x ∧ y = w.y
  | .draw x y rows => x = w.x ∧ y = w.y ∧ rows.toNat = w.lastNibble
  | .skip (.keyDown x) | .skip (.keyUp x) | .shift _ x | .readDelay x | .awaitKey x
  | .setDelay x | .setSound x | .addIndex x | .glyph x | .storeDecimal x | .storeRegisters x
  | .loadRegisters x => x = w.x

theorem pattern_mem_all (i : Instruction) : i.pattern ∈ Pattern.all := by
  cases i with
  | skip test => cases test <;> simp [pattern, Pattern.all]
  | combine operation _ _ => cases operation <;> simp [pattern, Pattern.all]
  | shift direction _ => cases direction <;> simp [pattern, Pattern.all]
  | _ => simp [pattern, Pattern.all]

/-- What a word ought to decode to. -/
def Reads (w : Word) : Except Fault Instruction → Prop
  | .ok i => w.Matches i.pattern ∧ i.OperandsOf w
  | .error f => ¬ w.IsInstruction ∧
      f = if w.IsLegacyCall then .unsupportedLegacyCall w else .invalidInstruction w

private theorem reads_invalid {w : Word} {n : Nat} (h : w.family = n) (hn : n ≠ 0)
    (hno : ∀ p ∈ Pattern.all.filter (·.first == some n), ¬ w.Matches p) :
    Reads w (.error (.invalidInstruction w)) :=
  ⟨Word.not_isInstruction_of_family h hno, (if_neg fun hl => hn (h ▸ hl.1)).symm⟩

theorem reads_decodeSystem {w : Word} (h : w.family = 0) : Reads w (decodeSystem w) := by
  have hw := w.toNat_eq_nibbles
  have hn := w.lastNibble_lt
  have hx := w.x.isLt
  have hy := w.y.isLt
  simp only [decodeSystem]
  split
  · exact ⟨Word.matches_single.mpr (by omega), trivial⟩
  split
  · exact ⟨Word.matches_single.mpr (by omega), trivial⟩
  split
  · exact ⟨Word.matches_single.mpr (by omega), trivial⟩
  have hno : ¬ w.IsInstruction := by
    apply Word.not_isInstruction_of_family h
    intro p hp
    fin_cases hp <;> rw [Word.matches_single] <;> omega
  split
  · exact ⟨hno, (if_neg fun hl => hl.2 ‹_›).symm⟩
  · exact ⟨hno, (if_pos ⟨h, ‹_›⟩).symm⟩

theorem reads_decodeArithmetic {w : Word} (h : w.family = 8) :
    Reads w (decodeArithmetic w) := by
  simp only [decodeArithmetic]
  split
  case h_10 =>
      apply reads_invalid h (by decide)
      intro p hp
      fin_cases hp <;> rw [Word.matches_registers] <;> simp_all
  all_goals simp [Reads, pattern, OperandsOf, *]

theorem reads_decodeKey {w : Word} (h : w.family = 0xE) : Reads w (decodeKey w) := by
  have hb := w.toNat_lastByte
  simp only [decodeKey]
  split
  case h_3 hdown hup =>
      apply reads_invalid h (by decide)
      intro p hp
      fin_cases hp <;> rw [Word.matches_operation] <;> grind
  all_goals simp [Reads, pattern, OperandsOf, Word.nibbles_of_lastByte ‹_›, h]

theorem reads_decodeDevice {w : Word} (h : w.family = 0xF) : Reads w (decodeDevice w) := by
  have hb := w.toNat_lastByte
  simp only [decodeDevice]
  split
  case h_10 =>
      apply reads_invalid h (by decide)
      intro p hp
      fin_cases hp <;> rw [Word.matches_operation] <;> grind
  all_goals simp [Reads, pattern, OperandsOf, Word.nibbles_of_lastByte ‹_›, h]

theorem reads_decode (w : Word) : Reads w (decode w) := by
  have hf := w.family_lt
  simp only [decode]
  split
  case h_1 => exact reads_decodeSystem ‹_›
  case h_9 => exact reads_decodeArithmetic ‹_›
  case h_15 => exact reads_decodeKey ‹_›
  case h_16 => exact reads_decodeDevice (by grind)
  case h_6 h | h_10 h =>
      split
      · simp [Reads, pattern, OperandsOf, *]
      · apply reads_invalid h (by decide)
        intro p hp
        fin_cases hp
        rw [Word.matches_registers]
        omega
  case h_14 =>
      have hn := w.lastNibble_lt
      simp [Reads, pattern, OperandsOf, *]
      omega
  all_goals simp [Reads, pattern, OperandsOf, *]

variable {w : Word} {i : Instruction} {f : Fault}

theorem matches_of_decode (h : decode w = .ok i) : w.Matches i.pattern := by
  have hr := reads_decode w
  rw [h] at hr
  exact hr.1

theorem operandsOf_of_decode (h : decode w = .ok i) : i.OperandsOf w := by
  have hr := reads_decode w
  rw [h] at hr
  exact hr.2

theorem isInstruction_of_decode (h : decode w = .ok i) : w.IsInstruction :=
  ⟨i.pattern, i.pattern_mem_all, matches_of_decode h⟩

theorem not_isInstruction_of_decode (h : decode w = .error f) : ¬ w.IsInstruction := by
  have hr := reads_decode w
  rw [h] at hr
  exact hr.1

theorem fault_of_decode (h : decode w = .error f) :
    f = if w.IsLegacyCall then .unsupportedLegacyCall w else .invalidInstruction w := by
  have hr := reads_decode w
  rw [h] at hr
  exact hr.2

theorem not_isLegacyCall_of_decode (h : decode w = .ok i) : ¬ w.IsLegacyCall := by
  rintro ⟨hfamily, hx⟩
  have hm := matches_of_decode h
  obtain ⟨n, hn, hsecond⟩ := Pattern.exists_first_of_mem_all i.pattern_mem_all
  have hzero : n = 0 := (hm.1 n hn).symm.trans hfamily
  exact hx (hm.2.1 0 (hsecond hzero))

end Instruction
end ChipEight
