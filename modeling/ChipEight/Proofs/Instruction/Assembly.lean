import ChipEight.Machine.Step
import ChipEight.Proofs.Instruction.Patterns
import ChipEight.Proofs.Machine.Loading

/-!
Assembling, and the way back. The word of an instruction is its pattern, filled with its fields.
What was assembled is what a loaded program fetches and decodes, line by line; and a word that
decodes at all is the word of what it decodes to, except that a shift does not say what its third
nibble is.
-/

namespace ChipEight

abbrev Nibble := Fin 16

def Nibble.ofNat (n : Nat) : Nibble := ⟨n % 16, Nat.mod_lt n (Nat.zero_lt_succ 15)⟩

@[simp] theorem Nibble.val_ofNat (n : Nat) : (ofNat n).val = n % 16 := rfl

namespace Word

/-- The last four bits. -/
def z (w : Word) : Nibble := ⟨w.lastNibble, w.lastNibble_lt⟩

/-- The byte that is stored first. -/
def firstByte (w : Word) : UInt8 := .ofNat (w.toNat / 256)

def ofNibbles (a b c d : Nibble) : Word :=
  .ofNat (4096 * a.val + 256 * b.val + 16 * c.val + d.val)

variable {w : Word} {a b c d : Nibble} {byte : UInt8}

theorem val_z (w : Word) : w.z.val = w.lastNibble := rfl

theorem ofBytes_firstByte_lastByte (w : Word) : ofBytes w.firstByte w.lastByte = w := by
  have hw := w.toNat_lt
  apply UInt16.toNat_inj.mp
  simp only [ofBytes, firstByte, lastByte, UInt16.toNat_ofNat', UInt8.toNat_ofNat']
  omega

@[simp] theorem toNat_ofNibbles :
    (ofNibbles a b c d).toNat = 4096 * a.val + 256 * b.val + 16 * c.val + d.val := by
  simp only [ofNibbles, UInt16.toNat_ofNat']
  omega

@[simp] theorem family_ofNibbles : (ofNibbles a b c d).family = a.val := by
  rw [family, toNat_ofNibbles]
  omega

@[simp] theorem x_ofNibbles : (ofNibbles a b c d).x = b := by
  have hb := b.isLt
  apply Fin.ext
  rw [val_x, toNat_ofNibbles]
  omega

@[simp] theorem y_ofNibbles : (ofNibbles a b c d).y = c := by
  have hc := c.isLt
  apply Fin.ext
  rw [val_y, toNat_ofNibbles]
  omega

@[simp] theorem lastNibble_ofNibbles : (ofNibbles a b c d).lastNibble = d.val := by
  rw [lastNibble, toNat_ofNibbles]
  omega

@[simp] theorem toNat_lastByte_ofNibbles :
    (ofNibbles a b c d).lastByte.toNat = 16 * c.val + d.val := by
  rw [toNat_lastByte, y_ofNibbles, lastNibble_ofNibbles]

theorem ofNibbles_eq_iff :
    ofNibbles a b c d = w ↔
      w.family = a.val ∧ w.x.val = b.val ∧ w.y.val = c.val ∧ w.lastNibble = d.val := by
  constructor
  · rintro rfl
    simp
  · rintro ⟨ha, hb, hc, hd⟩
    apply UInt16.toNat_inj.mp
    rw [toNat_ofNibbles, toNat_eq_nibbles, ha, hb, hc, hd]

/-! The fields that take more than a nibble, into the word and out of it. -/

theorem address_ofNibbles {address : UInt16} (h : address.toNat ≤ 0xFFF) :
    (ofNibbles a (x address) (y address) (z address)).address = address := by
  apply UInt16.toNat_inj.mp
  simp only [toNat_address, toNat_ofNibbles, val_x, val_y, val_z, lastNibble]
  omega

theorem lastByte_ofNibbles :
    (ofNibbles a b (y byte.toUInt16) (z byte.toUInt16)).lastByte = byte := by
  have hbyte := byte.toNat_lt
  apply UInt8.toNat_inj.mp
  simp only [toNat_lastByte_ofNibbles, val_y, val_z, lastNibble, UInt8.toNat_toUInt16]
  omega

theorem val_z_toUInt16 (h : byte.toNat ≤ 0xF) : (z byte.toUInt16).val = byte.toNat := by
  rw [val_z, lastNibble, UInt8.toNat_toUInt16]
  omega

theorem nibbles_address (w : Word) :
    x w.address = w.x ∧ y w.address = w.y ∧ (z w.address).val = w.lastNibble := by
  simp only [Fin.ext_iff, val_x, val_y, val_z, lastNibble, toNat_address]
  omega

theorem nibbles_lastByte (w : Word) :
    y w.lastByte.toUInt16 = w.y ∧ (z w.lastByte.toUInt16).val = w.lastNibble := by
  simp only [Fin.ext_iff, val_y, val_z, lastNibble, UInt8.toNat_toUInt16, lastByte,
    UInt8.toNat_ofNat']
  omega

end Word

namespace Pattern

/-- The word with the given nibbles of the pattern, and these in the other places. -/
def fill (p : Pattern) : Nibble × Nibble × Nibble → Word
  | (second, third, fourth) =>
      .ofNibbles (.ofNat (p.first.getD 0)) (p.second.elim second .ofNat) (p.third.elim third .ofNat)
        (p.fourth.elim fourth .ofNat)

section

variable {n third fourth : Nat} {b c d : Nibble}

@[simp] theorem fill_family : (family n).fill (b, c, d) = .ofNibbles (.ofNat n) b c d := rfl

@[simp] theorem fill_registers :
    (registers n fourth).fill (b, c, d) = .ofNibbles (.ofNat n) b c (.ofNat fourth) := rfl

@[simp] theorem fill_operation :
    (operation n third fourth).fill (b, c, d) =
      .ofNibbles (.ofNat n) b (.ofNat third) (.ofNat fourth) := rfl

@[simp] theorem fill_single :
    (single third fourth).fill (b, c, d) =
      .ofNibbles (.ofNat 0) (.ofNat 0) (.ofNat third) (.ofNat fourth) := rfl

end

end Pattern

namespace Instruction

/-- What stands in the free places of the pattern. Only a shift has one for nothing, the `spare`. -/
def fields (spare : Nibble) : Instruction → Nibble × Nibble × Nibble
  | .nop | .clearScreen | .ret => (spare, spare, spare)
  | .jump a | .call a | .setIndex a | .jumpOffset a => (Word.x a, Word.y a, Word.z a)
  | .skip (.equalByte x b) | .skip (.unequalByte x b) | .loadByte x b | .addByte x b
  | .random x b => (x, Word.y b.toUInt16, Word.z b.toUInt16)
  | .skip (.equalRegister x y) | .skip (.unequalRegister x y) | .combine _ x y => (x, y, spare)
  | .draw x y rows => (x, y, Word.z rows.toUInt16)
  | .shift _ x => (x, spare, spare)
  | .skip (.keyDown x) | .skip (.keyUp x) | .readDelay x | .awaitKey x | .setDelay x
  | .setSound x | .addIndex x | .glyph x | .storeDecimal x | .storeRegisters x
  | .loadRegisters x => (x, spare, spare)

def encode (i : Instruction) (spare : Nibble) : Word := i.pattern.fill (i.fields spare)

/-- The fields are no wider than their places in the word. -/
def InRange : Instruction → Prop
  | .jump a | .call a | .setIndex a | .jumpOffset a => a.toNat ≤ 0xFFF
  | .draw _ _ rows => rows.toNat ≤ 0xF
  | .nop | .clearScreen | .ret | .skip _ | .loadByte _ _ | .addByte _ _ | .combine _ _ _
  | .shift _ _ | .random _ _ | .readDelay _ | .awaitKey _ | .setDelay _ | .setSound _ | .addIndex _
  | .glyph _ | .storeDecimal _ | .storeRegisters _ | .loadRegisters _ => True

instance : DecidablePred InRange
  | .jump a | .call a | .setIndex a | .jumpOffset a =>
      inferInstanceAs (Decidable (a.toNat ≤ 0xFFF))
  | .draw _ _ rows => inferInstanceAs (Decidable (rows.toNat ≤ 0xF))
  | .nop | .clearScreen | .ret | .skip _ | .loadByte _ _ | .addByte _ _ | .combine _ _ _
  | .shift _ _ | .random _ _ | .readDelay _ | .awaitKey _ | .setDelay _ | .setSound _ | .addIndex _
  | .glyph _ | .storeDecimal _ | .storeRegisters _ | .loadRegisters _ =>
      inferInstanceAs (Decidable True)

variable {w v : Word} {i : Instruction} {f : Fault}

theorem decode_encode (h : i.InRange) (spare : Nibble) : decode (i.encode spare) = .ok i := by
  cases i with
  | nop | clearScreen | ret => simp [encode, pattern, fields, decode, decodeSystem]
  | jump a | call a | setIndex a | jumpOffset a =>
      simp [encode, pattern, fields, decode, Word.address_ofNibbles h]
  | skip test =>
      cases test <;> simp [encode, pattern, fields, decode, decodeKey, Word.lastByte_ofNibbles]
  | loadByte x b | addByte x b | random x b =>
      simp [encode, pattern, fields, decode, Word.lastByte_ofNibbles]
  | combine operation x y =>
      cases operation <;> simp [encode, pattern, fields, decode, decodeArithmetic]
  | shift direction x =>
      cases direction <;> simp [encode, pattern, fields, decode, decodeArithmetic]
  | draw x y rows => simp [encode, pattern, fields, decode, Word.val_z_toUInt16 h]
  | readDelay x | awaitKey x | setDelay x | setSound x | addIndex x | glyph x | storeDecimal x
  | storeRegisters x | loadRegisters x => simp [encode, pattern, fields, decode, decodeDevice]

theorem inRange_of_operandsOf (h : i.OperandsOf w) : i.InRange := by
  have haddress := w.toNat_address
  have hn := w.lastNibble_lt
  cases i with
  | jump a | call a | setIndex a | jumpOffset a =>
      simp only [OperandsOf] at h
      simp only [InRange, h]
      omega
  | draw x y rows =>
      simp only [InRange, h.2.2]
      omega
  | _ => trivial

/-- A word that has an instruction's pattern and fields is that instruction's word. -/
theorem encode_of_matches (hm : w.Matches i.pattern) (ho : i.OperandsOf w) : i.encode w.y = w := by
  have hrange := inRange_of_operandsOf ho
  obtain ⟨haddress₁, haddress₂, haddress₃⟩ := w.nibbles_address
  obtain ⟨hbyte₁, hbyte₂⟩ := w.nibbles_lastByte
  rw [encode]
  cases i with
  | nop | clearScreen | ret => simpa [pattern, fields, Word.ofNibbles_eq_iff] using hm
  | jump a | call a | setIndex a | jumpOffset a =>
      obtain rfl : a = w.address := ho
      simpa [pattern, fields, Word.ofNibbles_eq_iff, haddress₁, haddress₂, haddress₃] using hm
  | skip test =>
      cases test with
      | equalByte x b | unequalByte x b =>
          obtain ⟨rfl, rfl⟩ := ho
          simpa [pattern, fields, Word.ofNibbles_eq_iff, hbyte₁, hbyte₂] using hm
      | equalRegister x y | unequalRegister x y =>
          obtain ⟨rfl, rfl⟩ := ho
          simpa [pattern, fields, Word.ofNibbles_eq_iff] using hm
      | keyDown x | keyUp x =>
          obtain rfl : x = w.x := ho
          simpa [pattern, fields, Word.ofNibbles_eq_iff] using hm
  | loadByte x b | addByte x b | random x b =>
      obtain ⟨rfl, rfl⟩ := ho
      simpa [pattern, fields, Word.ofNibbles_eq_iff, hbyte₁, hbyte₂] using hm
  | combine operation x y =>
      obtain ⟨rfl, rfl⟩ := ho
      cases operation <;> simpa [pattern, fields, Word.ofNibbles_eq_iff] using hm
  | shift direction x =>
      obtain rfl : x = w.x := ho
      cases direction <;> simpa [pattern, fields, Word.ofNibbles_eq_iff] using hm
  | draw x y rows =>
      obtain ⟨rfl, rfl, hrows⟩ := ho
      have hlast := (Word.val_z_toUInt16 hrange).trans hrows
      simpa [pattern, fields, Word.ofNibbles_eq_iff, hlast] using hm
  | readDelay x | awaitKey x | setDelay x | setSound x | addIndex x | glyph x | storeDecimal x
  | storeRegisters x | loadRegisters x =>
      obtain rfl : x = w.x := ho
      simpa [pattern, fields, Word.ofNibbles_eq_iff] using hm

/-- A word is assembled from what it decodes to. -/
theorem encode_of_decode (h : decode w = .ok i) : i.encode w.y = w :=
  encode_of_matches (matches_of_decode h) (operandsOf_of_decode h)

theorem encode_spare (h : ∀ direction x, i ≠ .shift direction x) (a b : Nibble) :
    i.encode a = i.encode b := by
  cases i with
  | skip test => cases test <;> rfl
  | combine operation x y => cases operation <;> rfl
  | shift direction x => exact absurd rfl (h direction x)
  | _ => rfl

theorem nibbles_of_shift {direction : Direction} {x : Register}
    (hw : decode w = .ok (.shift direction x)) (hv : decode v = .ok (.shift direction x)) :
    v.family = w.family ∧ v.x = w.x ∧ v.lastNibble = w.lastNibble := by
  have hxw : x = w.x := operandsOf_of_decode hw
  have hxv : x = v.x := operandsOf_of_decode hv
  have hlast : ∃ n, (shift direction x).pattern = .registers 8 n := by
    cases direction <;> exact ⟨_, rfl⟩
  obtain ⟨n, hpattern⟩ := hlast
  have hmw := matches_of_decode hw
  have hmv := matches_of_decode hv
  rw [hpattern, Word.matches_registers] at hmw hmv
  exact ⟨hmv.1.trans hmw.1.symm, hxv.symm.trans hxw, hmv.2.trans hmw.2.symm⟩

/-- Words of one instruction differ at most in what a shift does not look at. -/
theorem eq_or_shift_of_decode (hw : decode w = .ok i) (hv : decode v = .ok i) :
    v = w ∨ (∃ direction x, i = .shift direction x) ∧
      v.family = w.family ∧ v.x = w.x ∧ v.lastNibble = w.lastNibble := by
  by_cases hshift : ∃ direction x, i = .shift direction x
  · obtain ⟨direction, x, rfl⟩ := hshift
    exact .inr ⟨⟨direction, x, rfl⟩, nibbles_of_shift hw hv⟩
  · have hspare : ∀ direction x, i ≠ .shift direction x :=
      fun direction x hi => hshift ⟨direction, x, hi⟩
    left
    calc
      v = i.encode v.y := (encode_of_decode hv).symm
      _ = i.encode w.y := encode_spare hspare v.y w.y
      _ = w := encode_of_decode hw

theorem isLegacyCall_iff : w.IsLegacyCall ↔ 0x100 ≤ w.toNat ∧ w.toNat ≤ 0xFFF := by
  simp only [Word.IsLegacyCall, Word.family, Word.val_x]
  omega

theorem decode_eq_unsupportedLegacyCall :
    decode w = .error (.unsupportedLegacyCall w) ↔ 0x100 ≤ w.toNat ∧ w.toNat ≤ 0xFFF := by
  rw [← isLegacyCall_iff]
  cases hd : decode w with
  | ok i => simp [not_isLegacyCall_of_decode hd]
  | error f =>
      rw [fault_of_decode hd]
      split <;> simp_all

end Instruction

/-- A line of a program in assembly. -/
structure Line where
  instruction : Instruction
  /-- What the word of a shift has in the place that nobody looks at. -/
  spare : Nibble
  inRange : instruction.InRange

namespace Line

def word (line : Line) : Word := line.instruction.encode line.spare

def assemble (lines : List Line) : List UInt8 :=
  lines.flatMap fun line => [line.word.firstByte, line.word.lastByte]

theorem decode_word (line : Line) : Instruction.decode line.word = .ok line.instruction :=
  Instruction.decode_encode line.inRange line.spare

theorem length_assemble (lines : List Line) : (assemble lines).length = 2 * lines.length := by
  induction lines with
  | nil => rfl
  | cons line rest ih =>
      simp only [assemble, List.flatMap_cons, List.length_append, List.length_cons,
        List.length_nil] at ih ⊢
      omega

theorem getElem?_assemble (lines : List Line) (k : Nat) :
    (assemble lines)[2 * k]? = lines[k]?.map (·.word.firstByte) ∧
      (assemble lines)[2 * k + 1]? = lines[k]?.map (·.word.lastByte) := by
  induction lines generalizing k with
  | nil => exact ⟨rfl, rfl⟩
  | cons line rest ih =>
      cases k with
      | zero => exact ⟨rfl, rfl⟩
      | succ k => exact ih k

end Line

namespace Machine

open Line (assemble)

variable {lines : List Line}

theorem getElem_holding {program : List UInt8} {address j : Nat} {byte : UInt8}
    (h : program[j]? = some byte) (haddress : address = 0x200 + j) (hend : address < memorySize) :
    (Memory.holding program)[address] = byte := by
  obtain ⟨hj, _⟩ := List.getElem?_eq_some_iff.mp h
  have hstart : programStart = 0x200 := rfl
  simp only [Memory.holding, Vector.getElem_ofFn]
  rw [if_neg (by omega), if_pos (by omega), haddress, hstart, Nat.add_sub_cancel_left,
    List.getD_eq_getElem?_getD, h, Option.getD_some]

/-- The word where a line was loaded is the word of that line. -/
theorem word_holding_assemble (hfits : lines.length ≤ 1792) {k : Nat} (hk : k < lines.length) :
    (Memory.holding (assemble lines)).word (0x200 + 2 * k) = .ok lines[k].word := by
  have hend : 0x200 + 2 * k + 2 ≤ memorySize := by
    simp only [memorySize]
    omega
  obtain ⟨hfirst, hlast⟩ := Line.getElem?_assemble lines k
  rw [List.getElem?_eq_getElem hk, Option.map_some] at hfirst hlast
  rw [Memory.word, dif_pos hend, getElem_holding hfirst rfl,
    getElem_holding hlast (Nat.add_assoc _ _ _), Word.ofBytes_firstByte_lastByte]

theorem load_assemble (hfits : lines.length ≤ 1792) :
    ∃ m, load (assemble lines) = (.ok (), m) ∧
      ∀ k (hk : k < lines.length),
        { m with pc := .ofNat (0x200 + 2 * k) }.next = .ok lines[k].instruction := by
  have hload : (assemble lines).length ≤ maxProgramSize := by
    rw [Line.length_assemble]
    exact Nat.mul_le_mul_left 2 hfits
  refine ⟨_, load_of_fits hload, ?_⟩
  intro k hk
  have hpc : (UInt16.ofNat (0x200 + 2 * k)).toNat = 0x200 + 2 * k := by
    rw [UInt16.toNat_ofNat']
    omega
  simp only [next, fetch, hpc, word_holding_assemble hfits hk, Except.bind]
  exact Line.decode_word lines[k]

/-- A program of any lines that fit is loaded, and each line is fetched and decoded from its place.
A word that decodes is the word of a line, and says everything of it except what a shift does not
look at. A word that does not decode is the word of no line, and its fault names it. -/
theorem assembly_round_trips :
    (∀ lines : List Line, lines.length ≤ 1792 →
      ∃ m, load (assemble lines) = (.ok (), m) ∧
        ∀ k (hk : k < lines.length),
          { m with pc := .ofNat (0x200 + 2 * k) }.next = .ok lines[k].instruction) ∧
      (∀ w i, Instruction.decode w = .ok i → i.InRange ∧ i.encode w.y = w) ∧
      (∀ w v i, Instruction.decode w = .ok i → Instruction.decode v = .ok i →
        v = w ∨ (∃ direction x, i = .shift direction x) ∧
          v.family = w.family ∧ v.x = w.x ∧ v.lastNibble = w.lastNibble) ∧
      (∀ w f, Instruction.decode w = .error f →
        (∀ line : Line, line.word ≠ w) ∧
          (f = .unsupportedLegacyCall w ∨ f = .invalidInstruction w)) ∧
      ∀ w, Instruction.decode w = .error (.unsupportedLegacyCall w) ↔
        0x100 ≤ w.toNat ∧ w.toNat ≤ 0xFFF := by
  refine ⟨fun _ => load_assemble, ?_, fun w v i => Instruction.eq_or_shift_of_decode, ?_,
    fun w => Instruction.decode_eq_unsupportedLegacyCall⟩
  · intro w i h
    exact ⟨Instruction.inRange_of_operandsOf (Instruction.operandsOf_of_decode h),
      Instruction.encode_of_decode h⟩
  · intro w f h
    refine ⟨?_, ?_⟩
    · rintro line rfl
      cases line.decode_word.symm.trans h
    · rw [Instruction.fault_of_decode h]
      split
      · exact .inl rfl
      · exact .inr rfl

/-- Three lines, one of them a shift with a third nibble of no meaning. -/
theorem assembly_round_trips_counting :
    let lines : List Line :=
      [⟨.loadByte 3 0x2A, 0, by decide⟩, ⟨.shift .left 3, 7, by decide⟩,
        ⟨.jump 0x202, 0, by decide⟩]
    assemble lines = [0x63, 0x2A, 0x83, 0x7E, 0x12, 0x02] ∧
      (∃ m, load (assemble lines) = (.ok (), m) ∧
        { m with pc := 0x202 }.next = .ok (.shift .left 3)) ∧
      (Instruction.shift .left 3).encode (Word.y 0x837E) = 0x837E ∧
      ∀ line : Line, line.word ≠ 0x0123 := by
  intro lines
  obtain ⟨hload, hencode, _, hnone, _⟩ := assembly_round_trips
  obtain ⟨m, hm, hnext⟩ := hload lines (by decide)
  exact ⟨by decide, ⟨m, hm, hnext 1 (by decide)⟩, (hencode 0x837E (.shift .left 3) rfl).2,
    (hnone 0x0123 (.unsupportedLegacyCall 0x0123) rfl).1⟩

end Machine
end ChipEight
