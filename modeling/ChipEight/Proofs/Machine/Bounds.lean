import ChipEight.Proofs.CallStack.Slots
import ChipEight.Proofs.Instruction.Patterns
import ChipEight.Proofs.Machine.Run

/-!
The bounds of every machine that a run comes to, and what they exclude: no sum of a step leaves the
width of its word and no index its array.

The program counter is not cut to twelve bits. A fetch bounds it before it is advanced, so it is at
most 4096 afterwards and 4098 after a skip; a jump stays below 4096, and an offset jump goes the
furthest, 255 past the last address. Return addresses are advanced program counters.
-/

namespace ChipEight

/-- The sums, array indices and register counts of an instruction stay in their range, on a
machine whose program counter is past the word. -/
def Instruction.Fits (m : Machine) : Instruction → Prop
  | .ret => ∀ top, m.stack.depth = top + 1 → top < stackDepth
  | .call _ =>
      (m.stack.depth ≠ stackDepth → m.stack.depth < stackDepth) ∧ m.stack.depth + 1 < 0x100
  | .skip _ => m.pc.toNat + 2 < 0x10000
  | .jumpOffset start => (m.register Machine.base).toNat + start.toNat < 0x10000
  | .addIndex x => m.index.toNat + (m.register x).toNat < 0x10000
  | .glyph x => (m.register x).toNat * Font.glyphSize < 0x10000
  | .draw x y rows =>
      (m.register x).toNat + 7 < 0x10000 ∧ (m.register y).toNat + rows.toNat < 0x10000 ∧
        m.index.toNat + rows.toNat < 0x10000
  | .storeDecimal _ => m.index.toNat + 3 < 0x10000
  | .storeRegisters x | .loadRegisters x =>
      x.val + 1 ≤ registerCount ∧ m.index.toNat + (x.val + 1) < 0x10000
  | _ => True

namespace Machine

structure Bounded (m : Machine) : Prop where
  depth_le : m.stack.depth ≤ stackDepth
  index_le : m.index.toNat ≤ 0xFFF
  pc_le : m.pc.toNat ≤ 0x10FE

structure Sound (m : Machine) : Prop extends Bounded m where
  live_range : ∀ a ∈ m.stack.live, 2 ≤ a.toNat ∧ a.toNat ≤ 0x1000

variable {m m' : Machine} {d d' : Devices} {i : Instruction}

theorem toNat_and_addressMask_le (a : UInt16) : (a &&& addressMask).toNat ≤ 0xFFF := by
  rw [UInt16.toNat_and]
  exact Nat.and_le_right

theorem sound_of_initial (h : m.Initial) : m.Sound := by
  rcases eq_of_initial h with rfl | ⟨memory, rfl⟩
  · exact ⟨⟨Nat.zero_le _, Nat.zero_le _, Nat.zero_le _⟩, List.forall_mem_nil _⟩
  · have hpc : (UInt16.ofNat programStart).toNat ≤ 0x10FE := by decide
    exact ⟨⟨Nat.zero_le _, Nat.zero_le _, hpc⟩, List.forall_mem_nil _⟩

theorem Sound.advance (hm : m.Sound) (hn : m.next = .ok i) :
    m.advance.Sound ∧ 2 ≤ m.advance.pc.toNat ∧ m.advance.pc.toNat ≤ 0x1000 := by
  have hpc : m.pc.toNat + 2 ≤ 4096 := pc_le_of_next hn
  have hadv := toNat_pc_advance hn
  exact ⟨⟨⟨hm.depth_le, hm.index_le, by omega⟩, hm.live_range⟩, by omega, by omega⟩

theorem Sound.push (hm : m.Sound) {stack : CallStack} (hp : m.stack.push m.pc = .ok stack)
    (hpc : 2 ≤ m.pc.toNat ∧ m.pc.toNat ≤ 0x1000) :
    stack.depth ≤ stackDepth ∧ ∀ a ∈ stack.live, 2 ≤ a.toNat ∧ a.toNat ≤ 0x1000 := by
  obtain ⟨hd, rfl⟩ := CallStack.push_eq_ok hp
  refine ⟨hd, ?_⟩
  intro a ha
  rw [CallStack.live_push hp, List.mem_append, List.mem_singleton] at ha
  rcases ha with ha | rfl
  · exact hm.live_range a ha
  · exact hpc

theorem Sound.pop (hm : m.Sound) {address : UInt16} {stack : CallStack}
    (hp : m.stack.pop = .ok (address, stack)) :
    { m with pc := address, stack }.Sound := by
  have hlive := CallStack.live_pop hm.depth_le hp
  have hrange := hm.live_range
  rw [hlive] at hrange
  have hd := hm.depth_le
  have hdepth := (CallStack.pop_eq_ok hp).1
  have hpc := hrange address (List.mem_append_right _ (List.mem_singleton_self _))
  refine ⟨⟨by simp only; omega, hm.index_le, by simp only; omega⟩, ?_⟩
  intro a ha
  exact hrange a (List.mem_append_left _ ha)

theorem toNat_address_le (w : Word) : w.address.toNat ≤ 0xFFF := by
  have h := w.toNat_address
  omega

theorem Sound.step (hs : m.Sound) (h : m.step d = (.ok m', d')) : m'.Sound := by
  obtain ⟨i, hn, he⟩ := exists_execute_of_step h
  obtain ⟨w, _, hw⟩ := next_eq_ok hn
  obtain ⟨hm, hpc⟩ := hs.advance hn
  have hop := Instruction.operandsOf_of_decode hw
  have shape := shape_of_execute he
  -- `hm` and `hpc` are about the machine past the word, where the fetch has bounded the counter
  cases i with
  | nop | clearScreen | loadByte | addByte | combine | shift | random | draw | readDelay | setDelay
  | setSound | loadRegisters =>
      obtain ⟨registers, rfl⟩ := shape
      exact ⟨⟨hm.depth_le, hm.index_le, hm.pc_le⟩, hm.live_range⟩
  | storeDecimal | storeRegisters =>
      obtain ⟨memory, rfl⟩ := shape
      exact ⟨⟨hm.depth_le, hm.index_le, hm.pc_le⟩, hm.live_range⟩
  | setIndex | addIndex | glyph =>
      obtain ⟨address, rfl⟩ := shape
      exact ⟨⟨hm.depth_le, toNat_and_addressMask_le address, hm.pc_le⟩, hm.live_range⟩
  | ret =>
      obtain ⟨address, stack, hp, rfl⟩ := shape
      exact hm.pop hp
  | jump target =>
      obtain rfl : m' = { m.advance with pc := target } := shape
      obtain rfl : target = w.address := hop
      have hw := toNat_address_le w
      exact ⟨⟨hm.depth_le, hm.index_le, by simp only; omega⟩, hm.live_range⟩
  | call target =>
      obtain ⟨stack, hp, rfl⟩ := shape
      obtain rfl : target = w.address := hop
      have hw := toNat_address_le w
      obtain ⟨hd, hlive⟩ := hm.push hp hpc
      exact ⟨⟨hd, hm.index_le, by simp only; omega⟩, hlive⟩
  | jumpOffset start =>
      obtain rfl : m' = { m.advance with pc := (m.advance.register base).toUInt16 + start } := shape
      obtain rfl : start = w.address := hop
      have hw := toNat_address_le w
      have hv := (m.advance.register base).toNat_lt
      refine ⟨⟨hm.depth_le, hm.index_le, ?_⟩, hm.live_range⟩
      simp only [UInt16.toNat_add, UInt8.toNat_toUInt16]
      omega
  | skip test =>
      rcases shape with rfl | rfl
      · exact hm
      · refine ⟨⟨hm.depth_le, hm.index_le, ?_⟩, hm.live_range⟩
        rw [pc_advance, UInt16.toNat_add]
        simp only [UInt16.reduceToNat]
        omega
  | awaitKey x =>
      rcases shape with ⟨registers, rfl⟩ | rfl
      · exact ⟨⟨hm.depth_le, hm.index_le, hm.pc_le⟩, hm.live_range⟩
      · refine ⟨⟨hm.depth_le, hm.index_le, ?_⟩, hm.live_range⟩
        have hback : m.advance.pc - 2 = m.pc := by simp
        simp only [hback]
        exact hs.pc_le

theorem Sound.fits {w : Word} (hm : m.Sound) (hw : Instruction.decode w = .ok i) : i.Fits m := by
  have hd := hm.depth_le
  have hi := hm.index_le
  have hpc := hm.pc_le
  cases i with
  | ret =>
      intro top htop
      omega
  | call target =>
      refine ⟨fun hne => Nat.lt_of_le_of_ne hd hne, ?_⟩
      exact Nat.lt_of_le_of_lt (Nat.succ_le_succ hd) (by decide)
  | skip test =>
      simp only [Instruction.Fits]
      omega
  | jumpOffset start =>
      obtain rfl : start = w.address := Instruction.operandsOf_of_decode hw
      have hstart := toNat_address_le w
      have hv := (m.register base).toNat_lt
      simp only [Instruction.Fits]
      omega
  | addIndex x =>
      have hv := (m.register x).toNat_lt
      simp only [Instruction.Fits]
      omega
  | glyph x =>
      have hv := (m.register x).toNat_lt
      simp only [Instruction.Fits, Font.glyphSize]
      omega
  | draw x y rows =>
      have hx := (m.register x).toNat_lt
      have hy := (m.register y).toNat_lt
      have hrows := rows.toNat_lt
      exact ⟨by omega, by omega, by omega⟩
  | storeDecimal x => exact Nat.lt_of_le_of_lt (Nat.add_le_add_right hi 3) (by decide)
  | storeRegisters x | loadRegisters x =>
      have hx : x.val < 16 := x.isLt
      exact ⟨hx, by omega⟩
  | _ => trivial

theorem Reachable.sound (h : m.Reachable) : m.Sound :=
  h.induct sound_of_initial Sound.step

end Machine
end ChipEight
