import ChipEight.Console.Dump
import ChipEight.Proofs.CallStack.DeadSlots
import ChipEight.Proofs.Console.Lifecycle
import ChipEight.Proofs.Text.Fields

/-!
What a dump tells. Its lines are made of fields that end by themselves, so the text gives every
register, both counters, the call stack and all of the memory, and of the devices the timers and the
latest key. Slots of the call stack that are not live do not show, and the dump of a running console
is the dump of no machine.
-/

namespace ChipEight

open Text

namespace Dump

/-- A dump shows the same of both devices. -/
structure SameDevices (d e : Devices) : Prop where
  delay : d.timers.delay = e.timers.delay
  sound : d.timers.sound = e.timers.sound
  latest : d.keypad.latest = e.keypad.latest

/-- A dump shows the same of both machines. -/
structure SameMachine (m n : Machine) : Prop where
  registers : m.registers = n.registers
  index : m.index = n.index
  pc : m.pc = n.pc
  depth : m.stack.depth = n.stack.depth
  live : m.stack.live = n.stack.live
  memory : m.memory = n.memory

variable {m n : Machine} {d e : Devices}

/-! The devices. -/

theorem newline_not_mem_keyText (key? : Option Key) : '\n' ∉ keyText key? := by
  cases key? with
  | none => decide +kernel
  | some key =>
      intro hmem
      exact absurd (Hex.mem_alphabet_of_mem_digits hmem) (by decide +kernel)

theorem keyText_inj {key? key?' : Option Key} (h : keyText key? = keyText key?') :
    key? = key?' := by
  have hdigit (key : Key) : keyText none ≠ keyText (some key) := by
    intro heq
    have hmem : 'n' ∈ keyText (some key) := heq ▸ (by decide +kernel : 'n' ∈ keyText none)
    exact absurd (Hex.mem_alphabet_of_mem_digits hmem) (by decide +kernel)
  cases key? with
  | none =>
      cases key?' with
      | none => rfl
      | some key' => exact absurd h (hdigit key')
  | some key =>
      cases key?' with
      | none => exact absurd h.symm (hdigit key)
      | some key' =>
          have hvalue := congrArg Hex.value h
          simp only [keyText, Hex.value_digits] at hvalue
          exact congrArg some (Fin.ext hvalue)

theorem reveals_deviceLine (d e : Devices) :
    Reveals (deviceLine d ++ ['\n']) (deviceLine e ++ ['\n']) (SameDevices d e) := by
  have hst : "  ST: ".toList.head? = some ' ' := by decide +kernel
  have hdelay := Decimal.reveals_digits hst rfl d.timers.delay.toNat e.timers.delay.toNat
  have hkey : "  Key: ".toList.head? = some ' ' := by decide +kernel
  have hsound := Decimal.reveals_digits hkey rfl d.timers.sound.toNat e.timers.sound.toNat
  have hend : ['\n'].head? = some '\n' := rfl
  have hkey := reveals_until hend (newline_not_mem_keyText d.keypad.latest)
    (newline_not_mem_keyText e.keypad.latest)
  refine ((((reveals_literal "DT: ".toList).field hdelay).field hsound).field hkey).imp ?_
  rintro ⟨⟨⟨-, hdelay⟩, hsound⟩, hkey⟩
  exact ⟨UInt8.toNat_inj.mp hdelay, UInt8.toNat_inj.mp hsound, keyText_inj hkey⟩

/-! The machine. -/

/-- A place among rows of the same length. -/
private theorem exists_row_column (rows columns : Nat) (k : Fin (rows * columns)) :
    ∃ (row : Fin rows) (column : Fin columns), k.val = columns * row.val + column.val := by
  have hk : k.val < columns * rows := Nat.mul_comm rows columns ▸ k.isLt
  have hcolumns : 0 < columns := Nat.pos_of_mul_pos_right (Nat.zero_lt_of_lt hk)
  exact ⟨⟨k.val / columns, Nat.div_lt_of_lt_mul hk⟩, ⟨k.val % columns, Nat.mod_lt _ hcolumns⟩,
    (Nat.div_add_mod k.val columns).symm⟩

private theorem space_not_mem : ' ' ∉ 'x' :: Hex.alphabet := by
  decide +kernel

theorem reveals_registerEntry (m n : Machine) (x : Register) :
    Reveals (registerEntry m x) (registerEntry n x) (m.register x = n.register x) := by
  have hend : "  ".toList.head? = some ' ' := by decide +kernel
  have hvalue := Hex.reveals_marked hend space_not_mem 2 (m.register x).toNat (n.register x).toNat
  refine ((reveals_literal ('V' :: Hex.digits x ++ ": ".toList)).field hvalue).imp ?_
  rintro ⟨-, hvalue⟩
  exact UInt8.toNat_inj.mp hvalue

theorem reveals_registerLines (m n : Machine) :
    Reveals ((registerLines m).flatMap (· ++ ['\n'])) ((registerLines n).flatMap (· ++ ['\n']))
      (m.registers = n.registers) := by
  rw [registerLines, registerLines, List.flatMap_map, List.flatMap_map]
  have hrow (row : Fin 4) := Reveals.flatMap (List.finRange 4) fun column _ =>
    reveals_registerEntry m n ⟨4 * row.val + column.val, by simp only [registerCount]; omega⟩
  have hrows := Reveals.flatMap (List.finRange 4) fun row _ =>
    (hrow row).append fun _ => reveals_literal ['\n']
  refine hrows.imp ?_
  intro h
  apply Vector.ext
  intro k hk
  obtain ⟨row, column, hplace⟩ := exists_row_column 4 4 ⟨k, hk⟩
  have hvalue := (h row (List.mem_finRange row)).1 column (List.mem_finRange column)
  simp only [Machine.register, Fin.getElem_fin, ← hplace] at hvalue
  exact hvalue

theorem reveals_counterLine (m n : Machine) :
    Reveals (counterLine m ++ ['\n']) (counterLine n ++ ['\n'])
      (m.index = n.index ∧ m.pc = n.pc ∧ m.stack.depth = n.stack.depth) := by
  have hpc : "  PC: ".toList.head? = some ' ' := by decide +kernel
  have hindex := Hex.reveals_marked hpc space_not_mem 3 m.index.toNat n.index.toNat
  have hsp : "  SP: ".toList.head? = some ' ' := by decide +kernel
  have hpc := Hex.reveals_marked hsp space_not_mem 3 m.pc.toNat n.pc.toNat
  have hend : ['\n'].head? = some '\n' := rfl
  have hdepth := Decimal.reveals_digits hend rfl m.stack.depth n.stack.depth
  refine ((((reveals_literal "I: ".toList).field hindex).field hpc).field hdepth).imp ?_
  rintro ⟨⟨⟨-, hindex⟩, hpc⟩, hdepth⟩
  exact ⟨UInt16.toNat_inj.mp hindex, UInt16.toNat_inj.mp hpc, hdepth⟩

/-- As many live addresses in both call stacks. -/
theorem reveals_stackLine (h : m.stack.depth = n.stack.depth) :
    Reveals (stackLine m ++ ['\n']) (stackLine n ++ ['\n']) (m.stack.live = n.stack.live) := by
  have hclear (addresses : List UInt16) :
      ∀ cs ∈ addresses.map fun address => Hex.padded 3 address.toNat, ',' ∉ cs ∧ ']' ∉ cs := by
    intro cs hcs
    obtain ⟨address, _, rfl⟩ := List.mem_map.mp hcs
    exact ⟨fun hmem => absurd (Hex.mem_alphabet_of_mem_padded hmem) (by decide +kernel),
      fun hmem => absurd (Hex.mem_alphabet_of_mem_padded hmem) (by decide +kernel)⟩
  have hlength : (m.stack.live.map fun address => Hex.padded 3 address.toNat).length =
      (n.stack.live.map fun address => Hex.padded 3 address.toNat).length := by
    simp only [CallStack.live, List.length_map, List.length_take, Vector.length_toList, h]
  have hcomma : ", ".toList.head? = some ',' := by decide +kernel
  have hclose : "]".toList.head? = some ']' := by decide +kernel
  have hlive := reveals_intercalate hcomma hclose hlength (hclear _) (hclear _)
  have hline := ((reveals_literal "Stack: [".toList).field hlive).append
    fun _ => reveals_literal ['\n']
  refine hline.imp ?_
  rintro ⟨⟨-, hlive⟩, -⟩
  refine List.map_injective_iff.mpr ?_ hlive
  intro a b hpadded
  exact UInt16.toNat_inj.mp (Hex.padded_inj hpadded)

theorem reveals_memoryLines (m n : Machine) :
    Reveals ((memoryLines m).flatMap (· ++ ['\n'])) ((memoryLines n).flatMap (· ++ ['\n']))
      (m.memory = n.memory) := by
  rw [memoryLines, memoryLines, List.flatMap_map, List.flatMap_map]
  have hbyte (line : Fin 256) (column : Fin 16) :
      Reveals (' ' :: Hex.padded 2 (byteAt m line column).toNat)
        (' ' :: Hex.padded 2 (byteAt n line column).toNat)
        (byteAt m line column = byteAt n line column) := by
    have hwidth : (Hex.padded 2 (byteAt m line column).toNat).length =
        (Hex.padded 2 (byteAt n line column).toNat).length := by
      rw [Hex.length_padded_byte, Hex.length_padded_byte]
    exact ((reveals_of_length hwidth).cons ' ').imp
      fun h => UInt8.toNat_inj.mp (Hex.padded_inj h)
  have hline (line : Fin 256) := ((Reveals.flatMap (List.finRange 16)
    fun column _ => hbyte line column).cons ':').prepend (Hex.marked 4 (16 * line.val))
  have hlines := Reveals.flatMap (List.finRange 256) fun line _ =>
    (hline line).append fun _ => reveals_literal ['\n']
  refine hlines.imp ?_
  intro h
  apply Vector.ext
  intro k hk
  obtain ⟨line, column, hplace⟩ := exists_row_column 256 16 ⟨k, hk⟩
  have hvalue := (h line (List.mem_finRange line)).1 column (List.mem_finRange column)
  simp only [byteAt, ← hplace] at hvalue
  exact hvalue

/-! Dumps. -/

theorem reveals_machine (m n : Machine) :
    Reveals ((machineLines m ++ memorySection m).flatMap (· ++ ['\n']))
      ((machineLines n ++ memorySection n).flatMap (· ++ ['\n'])) (SameMachine m n) := by
  have hclosed (rows memory : List (List Char)) (counters stack title : List Char) :
      (rows ++ [counters, stack] ++ title :: memory).flatMap (· ++ ['\n']) =
        rows.flatMap (· ++ ['\n']) ++ ((counters ++ ['\n']) ++ (stack ++ ['\n'])) ++
          ((title ++ ['\n']) ++ memory.flatMap (· ++ ['\n'])) := by
    simp only [List.flatMap_append, List.flatMap_cons, List.flatMap_nil, List.append_nil]
  rw [machineLines, machineLines, memorySection, memorySection, hclosed, hclosed]
  -- the depth comes before the call stack, and tells how many addresses to expect
  have hcounters := (reveals_counterLine m n).append fun h => reveals_stackLine h.2.2
  have hmemory := (reveals_memoryLines m n).prepend ("Memory:".toList ++ ['\n'])
  refine (((reveals_registerLines m n).append fun _ => hcounters).append fun _ => hmemory).imp ?_
  rintro ⟨⟨hregisters, ⟨hindex, hpc, hdepth⟩, hlive⟩, hmemory⟩
  exact ⟨hregisters, hindex, hpc, hdepth, hlive, hmemory⟩

theorem SameDevices.deviceLine_eq (h : SameDevices d e) : deviceLine d = deviceLine e := by
  delta deviceLine
  rw [h.delay, h.sound, h.latest]

theorem SameMachine.lines_eq (h : SameMachine m n) :
    machineLines m ++ memorySection m = machineLines n ++ memorySection n := by
  delta machineLines registerLines registerEntry Machine.register counterLine stackLine
    memorySection memoryLines byteAt
  rw [h.registers, h.index, h.pc, h.depth, h.live, h.memory]

theorem sameMachine_of_sameLive (h : m.SameLive n) : SameMachine m n where
  registers := h.registers
  index := h.index
  pc := h.pc
  depth := h.stack.depth
  live := by
    have hslots : ∀ k < m.stack.depth, m.stack.slots.toList[k]? = n.stack.slots.toList[k]? := by
      intro k hk
      have hlt : k < stackDepth := Nat.lt_of_lt_of_le hk h.stack.depth_le
      rw [Vector.getElem?_toList, Vector.getElem?_toList, Vector.getElem?_eq_getElem hlt,
        Vector.getElem?_eq_getElem hlt]
      exact congrArg some (h.stack.slots ⟨k, hlt⟩ hk)
    rw [CallStack.live, CallStack.live, ← h.stack.depth]
    apply List.ext_getElem?
    intro k
    rw [List.getElem?_take, List.getElem?_take]
    split
    · exact hslots k ‹_›
    · rfl
  memory := h.memory

theorem text_some_eq_iff (m n : Machine) (d e : Devices) :
    text (lines (some m) d) = text (lines (some n) e) ↔ SameMachine m n ∧ SameDevices d e := by
  rw [text, text, String.ofList_inj]
  constructor
  · intro h
    have hparts := (reveals_deviceLine d e).append fun _ => reveals_machine m n
    exact (hparts.of_eq h).symm
  · rintro ⟨hmachine, hdevices⟩
    have hlines (m : Machine) (d : Devices) :
        lines (some m) d = deviceLine d :: (machineLines m ++ memorySection m) := rfl
    rw [hlines, hlines, hdevices.deviceLine_eq, hmachine.lines_eq]

theorem text_none_eq_iff (d e : Devices) :
    text (lines none d) = text (lines none e) ↔ SameDevices d e := by
  rw [text, text, String.ofList_inj]
  constructor
  · intro h
    have hparts := (reveals_deviceLine d e).append
      fun _ => reveals_literal (unavailableLine ++ ['\n'])
    exact (hparts.of_eq h).1
  · intro h
    have hlines (d : Devices) : lines none d = [deviceLine d, unavailableLine] := rfl
    rw [hlines, hlines, h.deviceLine_eq]

/-- The line on the devices is followed by the registers or by other words. -/
theorem text_none_ne (m : Machine) (d e : Devices) :
    text (lines none d) ≠ text (lines (some m) e) := by
  intro h
  rw [text, text, String.ofList_inj] at h
  have hwords : Reveals (unavailableLine ++ ['\n'])
      ((machineLines m ++ memorySection m).flatMap (· ++ ['\n'])) False :=
    reveals_of_head_ne (a := 'r') (b := 'V') rfl rfl (by decide)
  have hparts := (reveals_deviceLine d e).append fun _ => hwords
  exact (hparts.of_eq h).2

/-- A dump tells all that it shows. Dumps of two machines are the same text exactly if the machines
agree in their registers, index, program counter, depth, live addresses and memory, and the devices
in both timers and the latest key; what is left in slots that are not live does not show. The dump
of a running console tells the timers and the latest key and nothing else, and is never that of a
machine. A console dumps the machine that it has, and it has none exactly while it runs. -/
theorem dumps_tell_what_they_show :
    (∀ (m n : Machine) (d e : Devices),
        text (lines (some m) d) = text (lines (some n) e) ↔ SameMachine m n ∧ SameDevices d e) ∧
      (∀ m n : Machine, m.SameLive n →
        ∀ d : Devices, text (lines (some m) d) = text (lines (some n) d)) ∧
      (∀ d e : Devices, text (lines none d) = text (lines none e) ↔ SameDevices d e) ∧
      (∀ (m : Machine) (d e : Devices), text (lines none d) ≠ text (lines (some m) e)) ∧
      ∀ c : Console, c.Reachable →
        c.dump = text (lines c.resting c.devices) ∧ (c.resting.isSome ↔ ¬ c.running) := by
  refine ⟨text_some_eq_iff, ?_, text_none_eq_iff, text_none_ne, ?_⟩
  · intro m n h d
    exact (text_some_eq_iff m n d d).mpr ⟨sameMachine_of_sameLive h, rfl, rfl, rfl⟩
  · intro c hc
    exact ⟨rfl, hc.orderly.lawful.resting_iff⟩

/-- An address is left behind by a return, and a program runs. -/
theorem dumps_tell_what_they_show_after_return :
    let stack : CallStack := ⟨CallStack.empty.slots.set 0 0x202, 0⟩
    let m := { Machine.boot with stack }
    let c := (Console.new.handle (.call (.load [0x12, 0x00]))).handle (.call .run)
    m.SameLive .boot ∧
      text (lines (some m) .fresh) = text (lines (some .boot) .fresh) ∧
      c.Reachable ∧ c.dump = text (lines none c.devices) := by
  intro stack m c
  obtain ⟨_, hstale, _, _, hconsole⟩ := dumps_tell_what_they_show
  have hstack : m.stack.SameLive Machine.boot.stack := ⟨Nat.zero_le _, rfl, nofun⟩
  have hlive : m.SameLive .boot := ⟨rfl, rfl, rfl, rfl, hstack⟩
  have hreach : c.Reachable := .event _ (.event _ .new)
  have hresting : c.resting = none := by decide +kernel
  have hdump := (hconsole c hreach).1
  rw [hresting] at hdump
  exact ⟨hlive, hstale m .boot hlive .fresh, hreach, hdump⟩

end Dump
end ChipEight
