import ChipEight.Proofs.Machine.Footprint

/-!
Arithmetic on registers. A result is cut to a byte, and the flag register tells what was cut: the
carry of a sum, that a difference took no borrow, or the bit that a shift moved out. Result and flag
together are exact, whichever registers coincide; only where the result was meant for the flag
register itself, the flag alone is left.
-/

namespace ChipEight.Machine

/-- The machine is as before but for these registers. -/
structure WritesOnly (targets : List Register) (before after : Machine) : Prop where
  registers : ∀ r ∉ targets, after.register r = before.register r
  rest : after = { before with registers := after.registers }

/-- The instruction puts `value` into one register and touches nothing else. -/
def Sets (m : Machine) (d : Devices) (i : Instruction) (x : Register) (value : Nat) : Prop :=
  ∃ m', m.execute d i = (.ok m', d) ∧ WritesOnly [x] m m' ∧ (m'.register x).toNat = value

/-- The instruction puts `bit` into the flag register, and into `x` what balances it, unless that is
the flag register. It touches nothing else. -/
def Reports (m : Machine) (d : Devices) (i : Instruction) (x : Register) (bit : Nat)
    (Balance : Int → Int → Prop) : Prop :=
  ∃ m', m.execute d i = (.ok m', d) ∧ WritesOnly [x, flag] m m' ∧ (m'.register flag).toNat = bit ∧
    (x ≠ flag → Balance (m'.register x).toNat (m'.register flag).toNat)

variable {m : Machine} {d : Devices} {i : Instruction} {x : Register} {value : UInt8} {bit : Bool}

theorem register_setRegister_self : (m.setRegister x value).register x = value :=
  Vector.getElem_set_self x.isLt

theorem toNat_register_setFlag : ((m.setFlag bit).register flag).toNat = bit.toNat := by
  rw [setFlag, register_setRegister_self]
  cases bit <;> rfl

theorem sets_of_execute {n : Nat} (he : m.execute d i = (.ok (m.setRegister x value), d))
    (hvalue : value.toNat = n) : m.Sets d i x n := by
  refine ⟨_, he, ⟨?_, rfl⟩, (congrArg UInt8.toNat register_setRegister_self).trans hvalue⟩
  intro r hr
  exact register_setRegister_of_ne (List.ne_of_not_mem_cons hr)

theorem reports_of_execute {n : Nat} {Balance : Int → Int → Prop}
    (he : m.execute d i = (.ok (m.setResult x value (some bit)), d)) (hbit : bit.toNat = n)
    (hbalance : Balance value.toNat bit.toNat) : m.Reports d i x n Balance := by
  have hflag : ((m.setResult x value (some bit)).register flag).toNat = bit.toNat :=
    toNat_register_setFlag
  refine ⟨_, he, ⟨?_, rfl⟩, hflag.trans hbit, ?_⟩
  · intro r hr
    obtain ⟨hx, hr⟩ := List.ne_and_not_mem_of_not_mem_cons hr
    exact register_setResult hx (.inr (List.ne_of_not_mem_cons hr))
  · intro hx
    have hvalue : (m.setResult x value (some bit)).register x = value :=
      (register_setRegister_of_ne hx).trans register_setRegister_self
    rwa [hvalue, hflag]

/-! Bytes and what is cut off them. -/

theorem toNat_decide_le (a b : UInt8) :
    (decide (a ≤ b)).toNat = if a.toNat ≤ b.toNat then 1 else 0 :=
  (Bool.cond_decide _ _ _).trans (if_congr UInt8.le_iff_toNat_le rfl rfl)

theorem carry_add (a b : UInt8) :
    256 * ((decide (256 ≤ a.toNat + b.toNat)).toNat : Int) + (a + b).toNat = a.toNat + b.toNat := by
  have ha := a.toNat_lt
  have hb := b.toNat_lt
  rw [UInt8.toNat_add]
  by_cases h : 256 ≤ a.toNat + b.toNat
  · rw [decide_eq_true h, Bool.toNat_true]
    omega
  · rw [decide_eq_false h, Bool.toNat_false]
    omega

theorem borrow_sub (a b : UInt8) :
    ((a - b).toNat : Int) = a.toNat - b.toNat + 256 * (1 - (decide (b ≤ a)).toNat) := by
  have ha := a.toNat_lt
  have hb := b.toNat_lt
  rw [UInt8.toNat_sub]
  by_cases h : b ≤ a
  · have hle := UInt8.le_iff_toNat_le.mp h
    rw [decide_eq_true h, Bool.toNat_true]
    omega
  · have hlt : ¬ b.toNat ≤ a.toNat := fun hle => h (UInt8.le_iff_toNat_le.mpr hle)
    rw [decide_eq_false h, Bool.toNat_false]
    omega

theorem shift_right_exact (a : UInt8) :
    (Direction.shift a .right).2.toNat = a.toNat % 2 ∧
      2 * ((Direction.shift a .right).1.toNat : Int) + (Direction.shift a .right).2.toNat =
        a.toNat := by
  have ha := a.toNat_lt
  have hbit : (a.toNat % 2 == 1).toNat = a.toNat % 2 := by
    rcases Nat.mod_two_eq_zero_or_one a.toNat with h | h <;> rw [h] <;> rfl
  refine ⟨hbit, ?_⟩
  simp only [Direction.shift, UInt8.toNat_ofNat', hbit]
  omega

theorem shift_left_exact (a : UInt8) :
    (Direction.shift a .left).2.toNat = a.toNat / 128 ∧
      256 * ((Direction.shift a .left).2.toNat : Int) + (Direction.shift a .left).1.toNat =
        2 * a.toNat := by
  have ha := a.toNat_lt
  have hbit : (decide (128 ≤ a.toNat)).toNat = a.toNat / 128 := by
    refine (Bool.cond_decide _ _ _).trans ?_
    split <;> omega
  refine ⟨hbit, ?_⟩
  simp only [Direction.shift, UInt8.toNat_ofNat', hbit]
  omega

/-- The flag tells the carry of a sum, that a difference took no borrow, equal operands included,
and the bit that a shift moves out, and with the result it gives back the exact value. All is
reckoned from the operands as they were, whichever registers they are. The other operations set the
first register and no flag. -/
theorem flags_complete_results (m : Machine) (d : Devices) (x y : Register) (byte : UInt8) :
    let a := (m.register x).toNat
    let b := (m.register y).toNat
    m.Reports d (.combine .add x y) x (if a + b > 255 then 1 else 0)
        (fun value bit => 256 * bit + value = a + b) ∧
      m.Reports d (.combine .subtract x y) x (if a ≥ b then 1 else 0)
        (fun value bit => value = a - b + 256 * (1 - bit)) ∧
      m.Reports d (.combine .subtractFrom x y) x (if b ≥ a then 1 else 0)
        (fun value bit => value = b - a + 256 * (1 - bit)) ∧
      m.Reports d (.shift .right x) x (a % 2) (fun value bit => 2 * value + bit = a) ∧
      m.Reports d (.shift .left x) x (a / 128) (fun value bit => 256 * bit + value = 2 * a) ∧
      m.Sets d (.addByte x byte) x ((a + byte.toNat) % 256) ∧
      m.Sets d (.combine .copy x y) x b ∧
      m.Sets d (.combine .or x y) x (a ||| b) ∧
      m.Sets d (.combine .and x y) x (a &&& b) ∧
      m.Sets d (.combine .xor x y) x (a ^^^ b) := by
  intro a b
  have hright := shift_right_exact (m.register x)
  have hleft := shift_left_exact (m.register x)
  refine ⟨?_, ?_, ?_, ?_, ?_, ?_, ?_, ?_, ?_, ?_⟩
  · exact reports_of_execute rfl (Bool.cond_decide _ _ _) (carry_add _ _)
  · exact reports_of_execute rfl (toNat_decide_le _ _) (borrow_sub _ _)
  · exact reports_of_execute rfl (toNat_decide_le _ _) (borrow_sub _ _)
  · exact reports_of_execute rfl hright.1 hright.2
  · exact reports_of_execute rfl hleft.1 hleft.2
  · exact sets_of_execute rfl (UInt8.toNat_add _ _)
  · exact sets_of_execute rfl rfl
  · exact sets_of_execute rfl (UInt8.toNat_or _ _)
  · exact sets_of_execute rfl (UInt8.toNat_and _ _)
  · exact sets_of_execute rfl (UInt8.toNat_xor _ _)

/-- A sum that carries, and a difference of the flag register from itself. -/
theorem flags_complete_results_carrying :
    let m : Machine := { boot with registers := .replicate registerCount 200 }
    (0 : Register) ≠ flag ∧
      (∃ m', m.execute .fresh (.combine .add 0 flag) = (.ok m', .fresh) ∧
        (256 : Int) * (m'.register flag).toNat + (m'.register 0).toNat = 400) ∧
      ∃ m', m.execute .fresh (.combine .subtract flag flag) = (.ok m', .fresh) ∧
        (m'.register flag).toNat = 1 := by
  intro m
  have hzero : (0 : Register) ≠ flag := by decide
  have hregister : ∀ r : Register, (m.register r).toNat = 200 := by decide
  obtain ⟨⟨sum, hsum, _, _, hbalance⟩, _⟩ := flags_complete_results m .fresh 0 flag 0
  obtain ⟨_, ⟨difference, hdifference, _, hbit, _⟩, _⟩ :=
    flags_complete_results m .fresh flag flag 0
  rw [hregister] at hbalance
  exact ⟨hzero, ⟨sum, hsum, hbalance hzero⟩, difference, hdifference, hbit⟩

end ChipEight.Machine
