import ChipEight.Proofs.Machine.Bounds
import ChipEight.Proofs.Machine.FontArea
import ChipEight.Proofs.Machine.KeyWait

/-!
What an instruction leaves alone. For each part of the machine and of the devices it says which
instructions change it and where, and where the program counter comes to; a step changes nothing
else.
-/

namespace ChipEight

/-- Whether the flag register reports on the operation. -/
def Operation.reports : Operation → Bool
  | .add | .subtract | .subtractFrom => true
  | .copy | .or | .and | .xor => false

namespace Instruction

/-- The registers that an instruction may set. -/
def writes : Instruction → List Register
  | .loadByte x _ | .addByte x _ | .random x _ | .readDelay x | .awaitKey x => [x]
  | .combine operation x _ => if operation.reports then [x, Machine.flag] else [x]
  | .shift _ x => [x, Machine.flag]
  | .draw _ _ _ => [Machine.flag]
  | .loadRegisters x => (List.finRange registerCount).filter (· ≤ x)
  | .nop | .clearScreen | .ret | .jump _ | .call _ | .skip _ | .setIndex _ | .jumpOffset _
  | .setDelay _ | .setSound _ | .addIndex _ | .glyph _ | .storeDecimal _ | .storeRegisters _ => []

def setsIndex : Instruction → Bool
  | .setIndex _ | .addIndex _ | .glyph _ => true
  | _ => false

def setsScreen : Instruction → Bool
  | .clearScreen | .draw _ _ _ => true
  | _ => false

/-- How the instruction moves the depth of the call stack. -/
def MovesDepth (before after : Nat) : Instruction → Prop
  | .call _ => after = before + 1
  | .ret => before = after + 1
  | _ => after = before

/-- A random instruction draws one byte, and a key wait takes one answer. -/
def draws (feed : Feed) : Instruction → Feed
  | .random _ _ => { feed with random := feed.random.tail }
  | .awaitKey _ => { feed with answers := feed.answers.tail }
  | _ => feed

/-- Where the instruction takes the program counter. A return goes to the address in the last slot
below the depth, and a key wait that is cancelled stays where it is. -/
def LandsAt (m : Machine) (d : Devices) (address : Nat) : Instruction → Prop
  | .ret => ∃ top : Fin stackDepth,
      m.stack.depth = top.val + 1 ∧ address = (m.stack.slots.get top).toNat
  | .jump target | .call target => address = target.toNat
  | .jumpOffset start => address = start.toNat + (m.register Machine.base).toNat
  | .skip test => ∃ taken,
      test.holds m d.keypad = .ok taken ∧ address = m.pc.toNat + if taken then 4 else 2
  | .awaitKey _ => address = m.pc.toNat + if d.feed.takeAnswer.1.isSome then 2 else 0
  | _ => address = m.pc.toNat + 2

/-- What a step of the instruction keeps. -/
structure Footprint (i : Instruction) (m m' : Machine) (d d' : Devices) : Prop where
  memory : ∀ k : Fin memorySize, ¬ (m.index.toNat ≤ k.val ∧ k.val < m.index.toNat + i.stored) →
    m'.memory.get k = m.memory.get k
  slots : ∀ k : Fin stackDepth, ¬ ((∃ target, i = .call target) ∧ k.val = m.stack.depth) →
    m'.stack.slots.get k = m.stack.slots.get k
  depth : i.MovesDepth m.stack.depth m'.stack.depth
  index : i.setsIndex = false → m'.index = m.index
  registers : ∀ r ∉ i.writes, m'.register r = m.register r
  pc : i.LandsAt m d m'.pc.toNat
  screen : i.setsScreen = false → d'.screen = d.screen
  delay : (∀ x, i ≠ .setDelay x) → d'.timers.delay = d.timers.delay
  sound : (∀ x, i ≠ .setSound x) → d'.timers.sound = d.timers.sound
  keypad : d'.keypad = d.keypad
  feed : d'.feed = i.draws d.feed

end Instruction

namespace Machine

variable {m m' : Machine} {d d' : Devices} {i : Instruction} {r x : Register} {value : UInt8}

/-! The machine. -/

theorem register_setRegister_of_ne (h : r ≠ x) :
    (m.setRegister x value).register r = m.register r := by
  have hne : x.val ≠ r.val := fun he => h (Fin.ext he.symm)
  exact Vector.getElem_set_ne x.isLt r.isLt hne

theorem register_setResult {flag? : Option Bool} (hx : r ≠ x) (hflag : flag? = none ∨ r ≠ flag) :
    (m.setResult x value flag?).register r = m.register r := by
  cases flag? with
  | none => exact register_setRegister_of_ne hx
  | some bit =>
      rcases hflag with hnone | hr
      · cases hnone
      · exact (register_setRegister_of_ne hr).trans (register_setRegister_of_ne hx)

theorem apply_reports {operation : Operation} (h : operation.reports = false) (a b : UInt8) :
    (operation.apply a b).2 = none := by
  cases operation with
  | copy | or | and | xor => rfl
  | add | subtract | subtractFrom => cases h

theorem registers_of_execute (h : m.execute d i = (.ok m', d')) (hr : r ∉ i.writes) :
    m'.register r = m.register r := by
  cases i with
  | loadByte x byte | addByte x byte | random x byte | readDelay x =>
      cases h
      exact register_setRegister_of_ne (List.ne_of_not_mem_cons hr)
  | combine operation x y =>
      cases h
      cases hreports : operation.reports with
      | false =>
          simp only [Instruction.writes, hreports] at hr
          exact register_setResult (List.ne_of_not_mem_cons hr) (.inl (apply_reports hreports _ _))
      | true =>
          obtain ⟨hx, hflag⟩ : r ≠ x ∧ r ≠ flag := by
            simpa [Instruction.writes, hreports] using hr
          exact register_setResult hx (.inr hflag)
  | shift direction x =>
      cases h
      obtain ⟨hx, hflag⟩ : r ≠ x ∧ r ≠ flag := by simpa [Instruction.writes] using hr
      exact register_setResult hx (.inr hflag)
  | draw x y rows =>
      simp only [execute] at h
      split at h
      · cases h
        exact register_setRegister_of_ne (List.ne_of_not_mem_cons hr)
      · cases h
  | awaitKey x =>
      simp only [execute] at h
      split at h
      · cases h
        exact register_setRegister_of_ne (List.ne_of_not_mem_cons hr)
      · cases h
        rfl
  | loadRegisters x =>
      obtain ⟨bytes, hbytes, rfl⟩ := exists_of_map_eq_ok (congrArg Prod.fst h)
      have hlength := Memory.length_of_slice hbytes
      have hx : x.val < r.val := Fin.lt_def.mp (by simpa [Instruction.writes] using hr)
      have hkept : (Cells.overwrite m.registers 0 bytes)[r.val]? = m.registers[r.val]? :=
        Cells.getElem?_overwrite_of_outside m.registers (.inr (by omega))
      simpa [register] using hkept
  | ret | call target | storeDecimal x | storeRegisters x =>
      obtain ⟨_, _, rfl⟩ := exists_of_map_eq_ok (congrArg Prod.fst h)
      rfl
  | skip test => rcases shape_of_execute h with rfl | rfl <;> rfl
  | nop | clearScreen | jump _ | setIndex _ | jumpOffset _ | setDelay _ | setSound _ | addIndex _
  | glyph _ =>
      cases h
      rfl

theorem index_of_execute (h : m.execute d i = (.ok m', d')) (hi : i.setsIndex = false) :
    m'.index = m.index := by
  have shape := shape_of_execute h
  cases i with
  | setIndex _ | addIndex _ | glyph _ => cases hi
  | ret =>
      obtain ⟨address, stack, _, rfl⟩ := shape
      rfl
  | call target =>
      obtain ⟨stack, _, rfl⟩ := shape
      rfl
  | skip test => rcases shape with rfl | rfl <;> rfl
  | awaitKey x => rcases shape with ⟨registers, rfl⟩ | rfl <;> rfl
  | jump target | jumpOffset start =>
      obtain rfl : m' = _ := shape
      rfl
  | _ =>
      obtain ⟨_, rfl⟩ := shape
      rfl

theorem slots_of_execute (h : m.execute d i = (.ok m', d')) (k : Fin stackDepth)
    (hk : ¬ ((∃ target, i = .call target) ∧ k.val = m.stack.depth)) :
    m'.stack.slots.get k = m.stack.slots.get k := by
  by_cases hcall : ∃ target, i = .call target
  · obtain ⟨target, rfl⟩ := hcall
    obtain ⟨stack, hpush, rfl⟩ := shape_of_execute h
    have hslot := CallStack.getElem_of_push hpush k
    rw [if_neg fun hd => hk ⟨⟨target, rfl⟩, hd.symm⟩] at hslot
    exact hslot
  · by_cases hret : i = .ret
    · subst hret
      obtain ⟨address, stack, hpop, rfl⟩ := shape_of_execute h
      rw [(CallStack.pop_eq_ok hpop).2.1]
    · rw [stack_of_execute h (fun target hi => hcall ⟨target, hi⟩) hret]

theorem depth_of_execute (h : m.execute d i = (.ok m', d')) :
    i.MovesDepth m.stack.depth m'.stack.depth := by
  cases i with
  | call target =>
      obtain ⟨stack, hpush, rfl⟩ := shape_of_execute h
      obtain ⟨_, rfl⟩ := CallStack.push_eq_ok hpush
      rfl
  | ret =>
      obtain ⟨address, stack, hpop, rfl⟩ := shape_of_execute h
      exact (CallStack.pop_eq_ok hpop).1
  | _ => exact congrArg CallStack.depth (stack_of_execute h nofun nofun)

/-! The devices. -/

/-- The devices after an instruction that succeeds. -/
theorem devices_of_execute (h : m.execute d i = (.ok m', d')) :
    match i with
    | .clearScreen | .draw _ _ _ => ∃ screen, d' = { d with screen }
    | .setDelay x => d' = { d with timers.delay := m.register x }
    | .setSound x => d' = { d with timers.sound := m.register x }
    | .random _ _ => d' = { d with feed := d.feed.takeRandom.2 }
    | .awaitKey _ => d' = { d with feed := d.feed.takeAnswer.2 }
    | _ => d' = d := by
  cases i with
  | draw x y rows =>
      simp only [execute] at h
      split at h
      · cases h
        exact ⟨_, rfl⟩
      · cases h
  | awaitKey x =>
      simp only [execute] at h
      split at h <;> cases h <;> rfl
  | clearScreen =>
      cases h
      exact ⟨_, rfl⟩
  | _ =>
      exact (congrArg Prod.snd h).symm

theorem screen_of_execute (h : m.execute d i = (.ok m', d')) (hi : i.setsScreen = false) :
    d'.screen = d.screen := by
  have shape := devices_of_execute h
  cases i with
  | clearScreen | draw _ _ _ => cases hi
  | _ =>
      obtain rfl : d' = _ := shape
      rfl

theorem delay_of_execute (h : m.execute d i = (.ok m', d')) (hi : ∀ x, i ≠ .setDelay x) :
    d'.timers.delay = d.timers.delay := by
  have shape := devices_of_execute h
  cases i with
  | setDelay x => exact absurd rfl (hi x)
  | clearScreen | draw _ _ _ =>
      obtain ⟨_, rfl⟩ := shape
      rfl
  | _ =>
      obtain rfl : d' = _ := shape
      rfl

theorem sound_of_execute (h : m.execute d i = (.ok m', d')) (hi : ∀ x, i ≠ .setSound x) :
    d'.timers.sound = d.timers.sound := by
  have shape := devices_of_execute h
  cases i with
  | setSound x => exact absurd rfl (hi x)
  | clearScreen | draw _ _ _ =>
      obtain ⟨_, rfl⟩ := shape
      rfl
  | _ =>
      obtain rfl : d' = _ := shape
      rfl

theorem takeRandom_eq (feed : Feed) :
    feed.takeRandom.2 = { feed with random := feed.random.tail } := by
  obtain ⟨random, answers⟩ := feed
  cases random <;> rfl

theorem takeAnswer_eq (feed : Feed) :
    feed.takeAnswer.2 = { feed with answers := feed.answers.tail } := by
  obtain ⟨random, answers⟩ := feed
  cases answers <;> rfl

theorem feed_of_execute (h : m.execute d i = (.ok m', d')) : d'.feed = i.draws d.feed := by
  have shape := devices_of_execute h
  cases i with
  | random x mask =>
      obtain rfl : d' = _ := shape
      exact takeRandom_eq d.feed
  | awaitKey x =>
      obtain rfl : d' = _ := shape
      exact takeAnswer_eq d.feed
  | clearScreen | draw _ _ _ =>
      obtain ⟨_, rfl⟩ := shape
      rfl
  | _ =>
      obtain rfl : d' = _ := shape
      rfl

/-! The program counter. -/

theorem holds_advance (test : Test) (m : Machine) (pad : Keypad) :
    test.holds m.advance pad = test.holds m pad := by
  cases test <;> rfl

theorem landsAt_of_execute (hm : m.Bounded) (hn : m.next = .ok i)
    (h : m.advance.execute d i = (.ok m', d')) : i.LandsAt m d m'.pc.toNat := by
  obtain ⟨w, _, hw⟩ := next_eq_ok hn
  have hop := Instruction.operandsOf_of_decode hw
  have hpast := toNat_pc_advance hn
  have hfits : m.pc.toNat + 2 ≤ 4096 := pc_le_of_next hn
  have shape := shape_of_execute h
  cases i with
  | ret =>
      obtain ⟨address, stack, hpop, rfl⟩ := shape
      obtain ⟨hdepth, _, htop⟩ := CallStack.pop_eq_ok hpop
      have hbound : m.advance.stack.depth ≤ stackDepth := hm.depth_le
      have hlt : stack.depth < stackDepth := by omega
      exact ⟨⟨stack.depth, hlt⟩, hdepth, congrArg UInt16.toNat (htop ⟨stack.depth, hlt⟩ rfl)⟩
  | jump target =>
      obtain rfl : m' = _ := shape
      rfl
  | call target =>
      obtain ⟨stack, _, rfl⟩ := shape
      rfl
  | jumpOffset start =>
      obtain rfl : m' = { m.advance with pc := (m.advance.register base).toUInt16 + start } := shape
      obtain rfl : start = w.address := hop
      have hstart := toNat_address_le w
      have hv := (m.register base).toNat_lt
      have hbase : m.advance.register base = m.register base := rfl
      simp only [Instruction.LandsAt, hbase, UInt16.toNat_add, UInt8.toNat_toUInt16]
      omega
  | skip test =>
      obtain ⟨taken, hholds, rfl⟩ := exists_of_map_eq_ok (congrArg Prod.fst h)
      rw [holds_advance] at hholds
      refine ⟨taken, hholds, ?_⟩
      cases taken with
      | false => exact hpast
      | true =>
          have htwo : (2 : UInt16).toNat = 2 := rfl
          simp only [skipIf, if_true, pc_advance m.advance, UInt16.toNat_add, hpast, htwo]
          omega
  | awaitKey x =>
      have hstep := step_awaitKey hn d
      rw [step_of_next hn, h] at hstep
      obtain rfl : m' = m.afterWait x d.feed.takeAnswer.1 :=
        Except.ok.inj (congrArg Prod.fst hstep)
      simp only [Instruction.LandsAt]
      cases d.feed.takeAnswer.1 with
      | none => rfl
      | some key => exact hpast
  | _ =>
      obtain ⟨_, rfl⟩ := shape
      exact hpast

theorem get_memory_of_step (hn : m.next = .ok i) (h : m.step d = (.ok m', d'))
    (k : Fin memorySize) (hout : ¬ (m.index.toNat ≤ k.val ∧ k.val < m.index.toNat + i.stored)) :
    m'.memory.get k = m.memory.get k := by
  have hkept : m'.memory[k.val]? = m.memory[k.val]? := getElem?_memory_of_step hn h (by omega)
  rw [Vector.getElem?_eq_getElem k.isLt, Vector.getElem?_eq_getElem k.isLt] at hkept
  exact Option.some.inj hkept

/-- A step changes only what its instruction names. -/
theorem step_within_footprint (hm : m.Bounded) (h : m.step d = (.ok m', d')) :
    ∃ i, m.next = .ok i ∧ i.Footprint m m' d d' := by
  obtain ⟨i, hn, he⟩ := exists_execute_of_step h
  refine ⟨i, hn, ?_⟩
  exact
    { memory := get_memory_of_step hn h
      slots := fun k => slots_of_execute (m := m.advance) he k
      depth := depth_of_execute (m := m.advance) he
      index := fun hi => index_of_execute (m := m.advance) he hi
      registers := fun r hr => registers_of_execute (m := m.advance) he hr
      pc := landsAt_of_execute hm hn he
      screen := screen_of_execute he
      delay := delay_of_execute he
      sound := sound_of_execute he
      keypad := by
        have hkeypad := keypad_of_step m d
        rwa [h] at hkeypad
      feed := feed_of_execute he }

/-- A random instruction with two bytes ready. -/
theorem step_within_footprint_random :
    let m := (load [0xC5, 0x0F]).2
    let m' := m.advance.setRegister 5 0x0B
    let d := { Devices.fresh with feed.random := [0xAB, 0xCD] }
    let d' := { Devices.fresh with feed.random := [0xCD] }
    m.Bounded ∧ m.step d = (.ok m', d') ∧ (Instruction.random 5 0x0F).Footprint m m' d d' := by
  intro m m' d d'
  have hm : m.Bounded := ⟨by decide, by decide, by decide⟩
  have hnext : m.next = .ok (.random 5 0x0F) := by decide +kernel
  have hstep : m.step d = (.ok m', d') := step_of_next hnext d
  obtain ⟨i, hi, hfootprint⟩ := step_within_footprint hm hstep
  cases hnext.symm.trans hi
  exact ⟨hm, hstep, hfootprint⟩

end Machine
end ChipEight
