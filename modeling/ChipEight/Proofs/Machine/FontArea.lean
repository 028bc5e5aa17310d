import ChipEight.Proofs.Machine.Faults
import ChipEight.Proofs.Machine.Run

/-!
The font in memory. Nothing guards it: two instructions store at the index, wherever it points, and a
store that starts below the end of the font overwrites a part of it. No other instruction changes
memory, so the font is whole as long as no such store is carried out, and a digit that is looked up
in it and drawn is the digit that was asked for.
-/

namespace ChipEight

namespace Font

/-- The rows of a hexadecimal digit. -/
def digit (value : Nat) : List UInt8 := (sheet.drop (glyphSize * value)).take glyphSize

theorem getElem?_digit (value : Nat) {k : Nat} (hk : k < glyphSize) :
    (digit value)[k]? = sheet[glyphSize * value + k]? := by
  rw [digit, List.getElem?_take_of_lt hk, List.getElem?_drop]

theorem length_digit {value : Nat} (h : value ≤ 0xF) : (digit value).length = glyphSize := by
  rw [digit, List.length_take, List.length_drop, length_sheet]
  simp only [glyphSize]
  omega

end Font

/-- Writing keeps every cell outside the written range. -/
theorem Cells.getElem?_overwrite_of_outside {α : Type} {n start k : Nat} {values : List α}
    (cells : Vector α n) (hout : k < start ∨ start + values.length ≤ k) :
    (overwrite cells start values)[k]? = cells[k]? := by
  by_cases hk : k < n
  · rw [Vector.getElem?_eq_getElem hk, Vector.getElem?_eq_getElem hk, getElem_overwrite]
    rcases hout with hbelow | habove
    · rw [if_neg (by omega)]
    · rw [if_pos (by omega), List.getElem?_eq_none (by omega), Option.getD_none]
  · rw [Vector.getElem?_eq_none (by omega), Vector.getElem?_eq_none (by omega)]

namespace Memory

variable {memory written : Memory} {start count k : Nat} {bytes : List UInt8}

theorem slice_eq_ok_iff :
    memory.slice start count = .ok bytes ↔
      start + count ≤ memorySize ∧ bytes.length = count ∧
        ∀ k < count, memory[start + k]? = bytes[k]? := by
  by_cases hfits : start + count ≤ memorySize
  · rw [slice, dif_pos hfits, Except.ok.injEq]
    constructor
    · rintro rfl
      refine ⟨hfits, List.length_ofFn, ?_⟩
      intro k hk
      simp [hk, show start + k < memorySize by omega]
    · rintro ⟨_, hlength, hbytes⟩
      apply List.ext_getElem?
      intro k
      by_cases hk : k < count
      · rw [← hbytes k hk]
        simp [hk, show start + k < memorySize by omega]
      · rw [List.getElem?_eq_none (by simpa using hk), List.getElem?_eq_none (by omega)]
  · simp [slice, hfits]

theorem getElem?_store (h : memory.store start bytes = .ok written)
    (hout : k < start ∨ start + bytes.length ≤ k) : written[k]? = memory[k]? := by
  simp only [store] at h
  split at h
  · cases h
    exact Cells.getElem?_overwrite_of_outside memory hout
  · cases h

end Memory

/-- How many bytes an instruction stores, from the index on. -/
def Instruction.stored : Instruction → Nat
  | .storeDecimal _ => 3
  | .storeRegisters x => x.val + 1
  | _ => 0

namespace Machine

variable {m m' start : Machine} {d d' : Devices} {i : Instruction} {passed : List Machine} {k : Nat}

theorem memory_of_execute (h : m.execute d i = (.ok m', d')) (hi : i.stored = 0) :
    m'.memory = m.memory := by
  have shape := shape_of_execute h
  cases i with
  | storeDecimal x | storeRegisters x => cases hi
  | ret =>
      obtain ⟨address, stack, _, rfl⟩ := shape
      rfl
  | call target =>
      obtain ⟨stack, _, rfl⟩ := shape
      rfl
  | skip test => rcases shape with rfl | rfl <;> rfl
  | awaitKey x => rcases shape with ⟨registers, rfl⟩ | rfl <;> rfl
  | jump target | jumpOffset start =>
      obtain rfl : m' = _ := shape
      rfl
  | _ =>
      obtain ⟨_, rfl⟩ := shape
      rfl

/-- A step keeps every byte outside the range that its instruction stores. -/
theorem getElem?_memory_of_step (hn : m.next = .ok i) (h : m.step d = (.ok m', d'))
    (hout : k < m.index.toNat ∨ m.index.toNat + i.stored ≤ k) : m'.memory[k]? = m.memory[k]? := by
  rw [step_of_next hn] at h
  cases i with
  | storeDecimal x =>
      obtain ⟨memory, hstore, rfl⟩ := exists_of_map_eq_ok (congrArg Prod.fst h)
      exact Memory.getElem?_store hstore hout
  | storeRegisters x =>
      obtain ⟨memory, hstore, rfl⟩ := exists_of_map_eq_ok (congrArg Prod.fst h)
      refine Memory.getElem?_store hstore ?_
      rwa [List.length_take, Vector.length_toList, Nat.min_eq_left x.isLt]
  | _ =>
      rw [memory_of_execute h rfl]
      rfl

def HoldsFont (m : Machine) : Prop := m.memory.slice 0 0x50 = .ok Font.sheet

/-- Whether the instruction at hand stores over a part of the font. -/
def storesOverFont (m : Machine) : Bool :=
  match m.next with
  | .ok i => i.stored ≠ 0 ∧ m.index.toNat < 0x50
  | .error _ => false

theorem holdsFont_iff : m.HoldsFont ↔ ∀ k < 0x50, m.memory[k]? = Font.sheet[k]? := by
  have hfits : 0 + 0x50 ≤ memorySize := by decide
  have hlength : Font.sheet.length = 0x50 := Font.length_sheet
  simp only [HoldsFont, Memory.slice_eq_ok_iff, hfits, hlength, true_and, Nat.zero_add]

theorem holdsFont_boot : boot.HoldsFont := by
  have hstore : Memory.store (.replicate memorySize 0) 0 Font.sheet = .ok Memory.blank :=
    if_pos (by decide)
  exact Memory.slice_store hstore

theorem holdsFont_of_load {program : List UInt8} (h : load program = (.ok (), m)) :
    m.HoldsFont := by
  simp only [load] at h
  split at h
  · cases h
    rw [holdsFont_iff]
    intro k hk
    have hbelow : k < programStart := Nat.lt_trans hk (by decide)
    rw [Cells.getElem?_overwrite_of_outside Memory.blank (.inl hbelow)]
    exact holdsFont_iff.mp holdsFont_boot k hk
  · cases h

theorem HoldsFont.step (hm : m.HoldsFont) (h : m.step d = (.ok m', d'))
    (hfree : ¬ m.storesOverFont) : m'.HoldsFont := by
  rw [holdsFont_iff] at hm ⊢
  obtain ⟨i, hn, _⟩ := exists_execute_of_step h
  simp only [storesOverFont, hn, decide_eq_true_eq] at hfree
  intro k hk
  have hout : k < m.index.toNat ∨ m.index.toNat + i.stored ≤ k := by omega
  rw [getElem?_memory_of_step hn h hout, hm k hk]

theorem HoldsFont.path (hm : start.HoldsFont) (hpath : Path start passed m)
    (hfree : ∀ p ∈ passed, ¬ p.storesOverFont) : m.HoldsFont := by
  induction hpath with
  | stay m => exact hm
  | step hs _ ih =>
      obtain ⟨hfirst, hrest⟩ := List.forall_mem_cons.mp hfree
      exact ih (hm.step hs hfirst) hrest

/-- The rows of a digit lie where a lookup points. -/
theorem HoldsFont.slice_digit (hm : m.HoldsFont) {value : Nat} (hvalue : value ≤ 0xF) :
    m.memory.slice (Font.glyphSize * value) Font.glyphSize = .ok (Font.digit value) := by
  rw [holdsFont_iff] at hm
  rw [Memory.slice_eq_ok_iff]
  refine ⟨by simp only [Font.glyphSize, memorySize]; omega, Font.length_digit hvalue, ?_⟩
  intro k hk
  rw [Font.getElem?_digit value hk]
  exact hm _ (by simp only [Font.glyphSize] at hk ⊢; omega)

/-- The address of a digit needs no cut to twelve bits. -/
theorem toNat_index_of_glyph {value : UInt8} (hvalue : value.toNat ≤ 0xF) :
    ((value.toUInt16 * .ofNat Font.glyphSize) &&& addressMask).toNat =
      Font.glyphSize * value.toNat := by
  have hproduct : (value.toUInt16 * .ofNat Font.glyphSize : UInt16).toNat = 5 * value.toNat := by
    rw [UInt16.toNat_mul, UInt8.toNat_toUInt16]
    simp only [Font.glyphSize, UInt16.reduceOfNat, UInt16.reduceToNat]
    omega
  have hmask : addressMask.toNat = 2 ^ 12 - 1 := by decide
  rw [UInt16.toNat_and, hproduct, hmask, Nat.and_two_pow_sub_one_eq_mod]
  simp only [Font.glyphSize]
  omega

theorem step_of_glyph {z : Register} (hn : m.next = .ok (.glyph z)) (h : m.step d = (.ok m', d')) :
    m'.memory = m.memory ∧
      m'.index = ((m.register z).toUInt16 * .ofNat Font.glyphSize) &&& addressMask := by
  rw [step_of_next hn] at h
  cases h
  exact ⟨rfl, rfl⟩

theorem step_of_draw {x y : Register} {rows : UInt8} {sprite : List UInt8}
    (hn : m.next = .ok (.draw x y rows))
    (hsprite : m.memory.slice m.index.toNat rows.toNat = .ok sprite) (d : Devices) :
    m.step d =
      (.ok (m.advance.setFlag (d.screen.draw (m.register x) (m.register y) sprite).2),
        { d with screen := (d.screen.draw (m.register x) (m.register y) sprite).1 }) := by
  have hadvanced : m.advance.memory.slice m.advance.index.toNat rows.toNat = .ok sprite := hsprite
  rw [step_of_next hn]
  simp only [execute, hadvanced]
  rfl

/-- A program that never stores over the font finds it whole at every moment. So a lookup and then a
draw of five rows put the digit on the screen that was asked for, wherever it is drawn and whatever
happened to the devices before. -/
theorem font_kept_unless_stored_over {program : List UInt8} (hload : load program = (.ok (), start))
    (hpath : Path start passed m) (hfree : ∀ p ∈ passed, ¬ p.storesOverFont) :
    m.HoldsFont ∧
      ∀ (x y z : Register) (d d' d₁ : Devices) (looked : Machine),
        m.next = .ok (.glyph z) → (m.register z).toNat ≤ 0xF → m.step d = (.ok looked, d') →
          looked.next = .ok (.draw x y 5) →
            let drawn := d₁.screen.draw (looked.register x) (looked.register y)
              (Font.digit (m.register z).toNat)
            looked.step d₁ =
              (.ok (looked.advance.setFlag drawn.2), { d₁ with screen := drawn.1 }) := by
  have hm : m.HoldsFont := (holdsFont_of_load hload).path hpath hfree
  refine ⟨hm, ?_⟩
  intro x y z d d' d₁ looked hglyph hvalue hlook hdraw
  obtain ⟨hmemory, hindex⟩ := step_of_glyph hglyph hlook
  apply step_of_draw hdraw
  rw [hmemory, hindex, toNat_index_of_glyph hvalue]
  exact hm.slice_digit hvalue

/-- A program that stores a register at an address of its own and then draws the digit ten. -/
theorem font_kept_unless_stored_over_ten :
    let m₀ := (load [0x60, 0x0A, 0xA3, 0x00, 0xF0, 0x55, 0xF0, 0x29, 0xD0, 0x05]).2
    let m₁ := m₀.advance.setRegister 0 0x0A
    let m₂ := { m₁.advance with index := 0x300 }
    let m₃ := { m₂.advance with memory := Cells.overwrite m₂.memory 0x300 [0x0A] }
    let looked := { m₃.advance with index := 50 }
    let drawn := Screen.blank.draw 0x0A 0x0A [0xF0, 0x90, 0xF0, 0x90, 0x90]
    Path m₀ [m₀, m₁, m₂] m₃ ∧ (∀ p ∈ [m₀, m₁, m₂], ¬ p.storesOverFont) ∧ m₃.HoldsFont ∧
      looked.step .fresh =
        (.ok (looked.advance.setFlag drawn.2), { Devices.fresh with screen := drawn.1 }) := by
  intro m₀ m₁ m₂ m₃ looked drawn
  have hindex : (0x0A : UInt8).toUInt16 * .ofNat Font.glyphSize &&& addressMask = 50 := by decide
  obtain ⟨hnext₀, hnext₁, hnext₂, hnext₃, hdraw, hfree⟩ :
      m₀.next = .ok (.loadByte 0 0x0A) ∧ m₁.next = .ok (.setIndex 0x300) ∧
        m₂.next = .ok (.storeRegisters 0) ∧ m₃.next = .ok (.glyph 0) ∧
        looked.next = .ok (.draw 0 0 5) ∧ ∀ p ∈ [m₀, m₁, m₂], ¬ p.storesOverFont := by
    decide +kernel
  have hstep₀ : m₀.step .fresh = (.ok m₁, .fresh) := step_of_next hnext₀ _
  have hstep₁ : m₁.step .fresh = (.ok m₂, .fresh) := step_of_next hnext₁ _
  have hstep₂ : m₂.step .fresh = (.ok m₃, .fresh) := step_of_next hnext₂ _
  have hlook : m₃.step .fresh = (.ok looked, .fresh) := by
    rw [step_of_next hnext₃]
    exact congrArg (fun index => (Except.ok { m₃.advance with index }, Devices.fresh)) hindex
  have hpath : Path m₀ [m₀, m₁, m₂] m₃ := .step hstep₀ (.step hstep₁ (.step hstep₂ (.stay m₃)))
  have hload : load [0x60, 0x0A, 0xA3, 0x00, 0xF0, 0x55, 0xF0, 0x29, 0xD0, 0x05] = (.ok (), m₀) := rfl
  obtain ⟨hfont, hdigit⟩ := font_kept_unless_stored_over hload hpath hfree
  exact ⟨hpath, hfree, hfont, hdigit 0 0 0 _ _ _ looked hnext₃ (by decide) hlook hdraw⟩

/-- The index is zero after a load, so a program that stores a register at once overwrites the first
row of the digit zero. -/
theorem font_overwritten_by_store :
    ¬ ∀ (program : List UInt8) (start m : Machine) (passed : List Machine),
      load program = (.ok (), start) → Path start passed m → m.HoldsFont := by
  intro hkept
  let start := (load [0xF0, 0x55]).2
  have hnext : start.next = .ok (.storeRegisters 0) := by decide +kernel
  have hstep : start.step .fresh =
      (.ok { start.advance with memory := start.memory.setIfInBounds 0 0 }, .fresh) := by
    rw [step_of_next hnext]
    rfl
  have hfont := hkept [0xF0, 0x55] start _ _ rfl (.step hstep (.stay _))
  have hfirst := holdsFont_iff.mp hfont 0 (by decide)
  have hzero : (start.memory.setIfInBounds 0 0)[0]? = some 0 := by simp
  exact absurd (hzero.symm.trans hfirst) (by decide)

end Machine
end ChipEight
