import ChipEight.Proofs.Machine.FontArea

/-!
Registers and memory. A dump copies the first registers to memory at the index, and a load copies
them back; either moves all of its bytes or faults and moves none. What was dumped is loaded again
as long as its bytes are untouched, and a dump right after a load changes nothing. The decimal
digits of a register are stored in the same way.
-/

namespace ChipEight

namespace Cells

variable {α : Type} {n : Nat}

theorem toList_overwrite_zero (cells : Vector α n) (values : List α) (h : values.length ≤ n) :
    (overwrite cells 0 values).toList.take values.length = values := by
  apply List.ext_getElem
  · simpa using h
  · intro k _ hk
    simp [getElem_overwrite, hk]

end Cells

namespace Memory

variable {memory : Memory} {start count k : Nat} {bytes : List UInt8}

theorem getElem?_store_inside {written : Memory} (h : memory.store start bytes = .ok written)
    (hk : k < bytes.length) : written[start + k]? = bytes[k]? :=
  (slice_eq_ok_iff.mp (slice_store h)).2.2 k hk

/-- To store what is there already changes nothing. -/
theorem store_slice (h : memory.slice start count = .ok bytes) :
    memory.store start bytes = .ok memory := by
  obtain ⟨hfits, rfl, hbytes⟩ := slice_eq_ok_iff.mp h
  rw [store, if_pos hfits]
  congr 1
  apply Vector.ext
  intro k hk
  rw [Cells.getElem_overwrite]
  by_cases hin : start ≤ k ∧ k < start + bytes.length
  · have hbyte := hbytes (k - start) (by omega)
    rw [show start + (k - start) = k by omega, Vector.getElem?_eq_getElem hk] at hbyte
    rw [if_pos hin.1, ← hbyte, Option.getD_some]
  · by_cases hle : start ≤ k
    · rw [if_pos hle, List.getElem?_eq_none (by omega), Option.getD_none]
    · rw [if_neg hle]

end Memory

namespace Machine

/-- Of the whole machine, only `count` bytes of memory from the index on may differ. -/
structure StoresOnly (count : Nat) (before after : Machine) : Prop where
  memory : ∀ a, a < before.index.toNat ∨ before.index.toNat + count ≤ a →
    after.memory[a]? = before.memory[a]?
  rest : after = { before with memory := after.memory }

/-- The machine with the registers up to `x` replaced. -/
def refill (m : Machine) (x : Register) (values : Register → UInt8) : Machine :=
  { m with registers := .ofFn fun r => if r ≤ x then values r else m.register r }

variable {m m' : Machine} {d d' : Devices} {x : Register} {bytes : List UInt8}

theorem storesOnly_of_storeAtIndex (h : m.storeAtIndex bytes = .ok m') :
    StoresOnly bytes.length m m' ∧
      ∀ k < bytes.length, m'.memory[m.index.toNat + k]? = bytes[k]? := by
  obtain ⟨memory, hstore, rfl⟩ := exists_of_map_eq_ok h
  exact ⟨⟨fun _ hout => Memory.getElem?_store hstore hout, rfl⟩,
    fun _ hk => Memory.getElem?_store_inside hstore hk⟩

theorem getElem?_take_registers {r : Register} (hr : r ≤ x) :
    (m.registers.toList.take (x.val + 1))[r.val]? = some (m.register r) := by
  have hlt : r.val < x.val + 1 := Nat.lt_succ_of_le hr
  rw [List.getElem?_take_of_lt hlt, List.getElem?_eq_getElem (by simp)]
  rfl

theorem succeeds_iff_fits {i : Instruction} {count : Nat} (hi : i.fault? m = m.rangeFault? count)
    (d : Devices) :
    (∃ m', (m.execute d i).1 = .ok m') ↔ m.index.toNat + count ≤ memorySize := by
  rw [(decides_execute m d i).succeeds_iff, hi, rangeFault?, ite_eq_right_iff]
  simp

/-! Dumps and loads. -/

theorem storesOnly_of_dump (h : m.execute d (.storeRegisters x) = (.ok m', d')) :
    StoresOnly (x.val + 1) m m' ∧
      ∀ r ≤ x, m'.memory[m.index.toNat + r.val]? = some (m.register r) := by
  obtain ⟨honly, hbytes⟩ := storesOnly_of_storeAtIndex (congrArg Prod.fst h)
  rw [length_take_registers] at honly hbytes
  refine ⟨honly, ?_⟩
  intro r hr
  rw [hbytes r.val (Nat.lt_succ_of_le hr), getElem?_take_registers hr]

theorem load_eq {values : Register → UInt8} (hfits : m.index.toNat + (x.val + 1) ≤ memorySize)
    (hbytes : ∀ r ≤ x, m.memory[m.index.toNat + r.val]? = some (values r)) (d : Devices) :
    m.execute d (.loadRegisters x) = (.ok (m.refill x values), d) := by
  obtain ⟨bytes, hslice⟩ : ∃ bytes, m.memory.slice m.index.toNat (x.val + 1) = .ok bytes :=
    ⟨_, dif_pos hfits⟩
  obtain ⟨_, hlength, hget⟩ := Memory.slice_eq_ok_iff.mp hslice
  have hregisters : Cells.overwrite m.registers 0 bytes =
      .ofFn fun r => if r ≤ x then values r else m.register r := by
    apply Vector.ext
    intro r hr
    rw [Cells.getElem_overwrite, if_pos (Nat.zero_le r), Nat.sub_zero, Vector.getElem_ofFn]
    by_cases hle : r ≤ x.val
    · have hbyte := hbytes ⟨r, hr⟩ hle
      rw [hget r (Nat.lt_succ_of_le hle)] at hbyte
      rw [if_pos (Fin.le_def.mpr hle), hbyte, Option.getD_some]
    · rw [if_neg (Fin.le_def.not.mpr hle), List.getElem?_eq_none (by omega), Option.getD_none]
      rfl
  simp only [execute, loadFromIndex, hslice, Except.map, hregisters]
  rfl

theorem load_after_dump {dumped later : Machine} {y : Register}
    (h : m.execute d (.storeRegisters x) = (.ok dumped, d')) (hy : y ≤ x)
    (hindex : later.index = dumped.index)
    (hkept : ∀ r ≤ x, later.memory[m.index.toNat + r.val]? =
      dumped.memory[m.index.toNat + r.val]?) (d₁ : Devices) :
    later.execute d₁ (.loadRegisters y) = (.ok (later.refill y m.register), d₁) := by
  obtain ⟨honly, hbytes⟩ := storesOnly_of_dump h
  have hfits := (succeeds_iff_fits rfl d).mp ⟨dumped, congrArg Prod.fst h⟩
  have hsame : later.index = m.index := by rw [hindex, honly.rest]
  apply load_eq
  · rw [hsame]
    exact Nat.le_trans (Nat.add_le_add_left (Nat.succ_le_succ hy) _) hfits
  · intro r hr
    have hrx := Nat.le_trans hr hy
    rw [hsame, hkept r hrx, hbytes r hrx]

theorem dump_after_load (h : m.execute d (.loadRegisters x) = (.ok m', d')) (d₁ : Devices) :
    m'.execute d₁ (.storeRegisters x) = (.ok m', d₁) := by
  obtain ⟨bytes, hbytes, rfl⟩ := exists_of_map_eq_ok (congrArg Prod.fst h)
  have hlength := Memory.length_of_slice hbytes
  have hregisters : (Cells.overwrite m.registers 0 bytes).toList.take (x.val + 1) = bytes := by
    rw [← hlength]
    exact Cells.toList_overwrite_zero m.registers bytes (hlength ▸ x.isLt)
  simp only [execute, storeAtIndex, hregisters, Memory.store_slice hbytes]
  rfl

theorem decimalDigits_eq (value : UInt8) :
    ∃ hundreds tens ones : UInt8, decimalDigits value = [hundreds, tens, ones] ∧
      hundreds.toNat ≤ 9 ∧ tens.toNat ≤ 9 ∧ ones.toNat ≤ 9 ∧
      100 * hundreds.toNat + 10 * tens.toNat + ones.toNat = value.toNat := by
  have hvalue := value.toNat_lt
  refine ⟨_, _, _, rfl, ?_⟩
  simp only [UInt8.toNat_ofNat']
  omega

/-- Registers that were dumped are loaded back, all of them or the first of them, whatever happened
to the registers in between and to the rest of the machine, as long as the index and the dumped
bytes are as the dump left them. A dump right after a load changes nothing, the digits of a register
are decimal and make up its value, and each of the three is carried out if and only if its bytes lie
in memory as a whole. -/
theorem dumps_and_loads_invert (m : Machine) (d : Devices) (x : Register) :
    ((∃ m', (m.execute d (.storeRegisters x)).1 = .ok m') ↔
        m.index.toNat + (x.val + 1) ≤ memorySize) ∧
      ((∃ m', (m.execute d (.loadRegisters x)).1 = .ok m') ↔
        m.index.toNat + (x.val + 1) ≤ memorySize) ∧
      ((∃ m', (m.execute d (.storeDecimal x)).1 = .ok m') ↔ m.index.toNat + 3 ≤ memorySize) ∧
      (∀ dumped d', m.execute d (.storeRegisters x) = (.ok dumped, d') →
        d' = d ∧ StoresOnly (x.val + 1) m dumped ∧
          (∀ r ≤ x, dumped.memory[m.index.toNat + r.val]? = some (m.register r)) ∧
          ∀ (later : Machine) (d₁ : Devices) (y : Register), y ≤ x → later.index = dumped.index →
            (∀ r ≤ x, later.memory[m.index.toNat + r.val]? =
              dumped.memory[m.index.toNat + r.val]?) →
            later.execute d₁ (.loadRegisters y) = (.ok (later.refill y m.register), d₁)) ∧
      (∀ loaded d', m.execute d (.loadRegisters x) = (.ok loaded, d') →
        ∀ d₁, loaded.execute d₁ (.storeRegisters x) = (.ok loaded, d₁)) ∧
      ∀ written d', m.execute d (.storeDecimal x) = (.ok written, d') →
        d' = d ∧ StoresOnly 3 m written ∧
          ∃ hundreds tens ones : UInt8,
            written.memory[m.index.toNat]? = some hundreds ∧
            written.memory[m.index.toNat + 1]? = some tens ∧
            written.memory[m.index.toNat + 2]? = some ones ∧
            hundreds.toNat ≤ 9 ∧ tens.toNat ≤ 9 ∧ ones.toNat ≤ 9 ∧
            100 * hundreds.toNat + 10 * tens.toNat + ones.toNat = (m.register x).toNat := by
  refine ⟨succeeds_iff_fits rfl d, succeeds_iff_fits rfl d, succeeds_iff_fits rfl d, ?_, ?_, ?_⟩
  · intro dumped d' h
    obtain ⟨honly, hbytes⟩ := storesOnly_of_dump h
    refine ⟨(congrArg Prod.snd h).symm, honly, hbytes, ?_⟩
    intro later d₁ y hy hindex hkept
    exact load_after_dump h hy hindex hkept d₁
  · intro loaded d' h d₁
    exact dump_after_load h d₁
  · intro written d' h
    obtain ⟨honly, hbytes⟩ := storesOnly_of_storeAtIndex (congrArg Prod.fst h)
    obtain ⟨hundreds, tens, ones, hdigits, hdecimal⟩ := decimalDigits_eq (m.register x)
    rw [hdigits] at honly hbytes
    exact ⟨(congrArg Prod.snd h).symm, honly, hundreds, tens, ones, hbytes 0 (by simp),
      hbytes 1 (by simp), hbytes 2 (by simp), hdecimal⟩

/-- Three registers are dumped to the last bytes of memory, and two of them are loaded back after
all have been cleared; the digits of the third are stored at the same place. -/
theorem dumps_and_loads_invert_at_end :
    let m : Machine := { boot with registers := .ofFn fun r => .ofNat (90 * r.val), index := 0xFFD }
    ∃ dumped written : Machine,
      let cleared := { dumped with registers := .replicate registerCount 0 }
      let loaded := cleared.refill 1 m.register
      m.execute .fresh (.storeRegisters 2) = (.ok dumped, .fresh) ∧
        dumped.memory[0xFFF]? = some 180 ∧
        cleared.execute .fresh (.loadRegisters 1) = (.ok loaded, .fresh) ∧
        loaded.execute .fresh (.storeRegisters 1) = (.ok loaded, .fresh) ∧
        m.execute .fresh (.storeDecimal 2) = (.ok written, .fresh) ∧ StoresOnly 3 m written := by
  intro m
  obtain ⟨hstores, _, hwrites, hdumps, _, hdigits⟩ := dumps_and_loads_invert m .fresh 2
  obtain ⟨dumped, hdumped⟩ := hstores.mpr (by decide)
  obtain ⟨written, hwritten⟩ := hwrites.mpr (by decide)
  have hdump : m.execute .fresh (.storeRegisters 2) = (.ok dumped, .fresh) := Prod.ext hdumped rfl
  have hwrite : m.execute .fresh (.storeDecimal 2) = (.ok written, .fresh) := Prod.ext hwritten rfl
  obtain ⟨_, _, hbytes, hrestores⟩ := hdumps dumped _ hdump
  obtain ⟨_, _, _, _, hagain, _⟩ :=
    dumps_and_loads_invert { dumped with registers := .replicate registerCount 0 } .fresh 1
  have hload := hrestores { dumped with registers := .replicate registerCount 0 } .fresh 1
    (by decide) rfl fun _ _ => rfl
  exact ⟨dumped, written, hdump, hbytes 2 (by decide), hload, hagain _ _ hload .fresh, hwrite,
    (hdigits written _ hwrite).2.1⟩

end Machine
end ChipEight
