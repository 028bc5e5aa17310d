import ChipEight.Text.Decimal
import ChipEight.Text.Hex
import Mathlib.Data.List.Basic

/-!
How a text tells its fields apart. A numeral goes on to the first character that is no digit, a
field of fixed width needs no such mark, and a text that is made of fields can begin like another
one only if field after field is the same.
-/

namespace ChipEight.Text

namespace Hex

def alphabet : List Char := "0123456789ABCDEF".toList

/-- A numeral of the number with at least `width` digits. -/
structure Numeral (width n : Nat) (cs : List Char) : Prop where
  width_le : width ≤ cs.length
  digits : ∀ c ∈ cs, c ∈ alphabet
  value : value cs = n

private theorem toUpper_digitChar_mem_alphabet :
    ∀ d : Fin 16, d.val.digitChar.toUpper ∈ alphabet := by
  decide +kernel

theorem mem_alphabet_of_mem_digits {n : Nat} {c : Char} (h : c ∈ digits n) : c ∈ alphabet := by
  induction n using Nat.strongRecOn with
  | ind n ih =>
      rw [Hex.digits, Nat.toDigits_eq_if (by decide)] at h
      split at h
      · rename_i hlt
        obtain rfl := List.mem_singleton.mp h
        exact toUpper_digitChar_mem_alphabet ⟨n, hlt⟩
      · rw [List.map_append, List.mem_append] at h
        rcases h with hinit | hlast
        · exact ih (n / 16) (by omega) hinit
        · obtain rfl := List.mem_singleton.mp hlast
          exact toUpper_digitChar_mem_alphabet ⟨n % 16, Nat.mod_lt n (by decide)⟩

theorem mem_alphabet_of_mem_padded {width n : Nat} {c : Char} (h : c ∈ padded width n) :
    c ∈ alphabet := by
  rw [padded, List.leftpad, List.mem_append] at h
  rcases h with hzero | hdigit
  · obtain rfl := List.eq_of_mem_replicate hzero
    decide +kernel
  · exact mem_alphabet_of_mem_digits hdigit

theorem numeral_padded (width n : Nat) : Numeral width n (padded width n) where
  width_le := by
    rw [padded, List.length_leftpad]
    exact Nat.le_max_left _ _
  digits := fun _ => mem_alphabet_of_mem_padded
  value := value_padded width n

theorem not_mem_marked {stop : Char} (h : stop ∉ 'x' :: alphabet) (width n : Nat) :
    stop ∉ marked width n := by
  obtain ⟨hx, hdigit⟩ := not_or.mp (mt List.mem_cons.mpr h)
  intro hmem
  rcases List.mem_cons.mp hmem with rfl | hmem
  · exact hdigit (by decide +kernel)
  · rcases List.mem_cons.mp hmem with rfl | hmem
    · exact hx rfl
    · exact hdigit (mem_alphabet_of_mem_padded hmem)

theorem padded_inj {width n n' : Nat} (h : padded width n = padded width n') : n = n' := by
  rw [← value_padded width n, h, value_padded]

theorem marked_inj {width n n' : Nat} (h : marked width n = marked width n') : n = n' :=
  padded_inj (List.cons.inj (List.cons.inj h).2).2

/-- A byte fills two digits. -/
theorem length_padded_byte (byte : UInt8) : (padded 2 byte.toNat).length = 2 := by
  have hlength : (digits byte.toNat).length ≤ 2 := by
    rw [digits, List.length_map]
    exact (Nat.length_toDigits_le_iff (by decide) (by decide)).mpr byte.toNat_lt
  rw [padded, List.length_leftpad]
  exact Nat.max_eq_left hlength

end Hex

theorem Decimal.isDigit_of_mem_digits {n : Nat} {c : Char} (h : c ∈ digits n) : c.isDigit :=
  Nat.isDigit_of_mem_toDigits (by decide) (by decide) h

/-- Whatever comes after them, the two texts begin alike only where the fact holds, and then they
end at the same place. -/
def Reveals (first second : List Char) (fact : Prop) : Prop :=
  ∀ rest rest' : List Char, first ++ rest = second ++ rest' → fact ∧ rest = rest'

variable {first second first' second' : List Char} {P Q : Prop}

theorem Reveals.of_eq (h : Reveals first second P) (heq : first = second) : P :=
  (h [] [] (congrArg (· ++ []) heq)).1

theorem Reveals.imp (h : Reveals first second P) (hPQ : P → Q) : Reveals first second Q :=
  fun rest rest' heq => (h rest rest' heq).imp_left hPQ

theorem reveals_literal (cs : List Char) : Reveals cs cs True :=
  fun _ _ heq => ⟨trivial, List.append_cancel_left heq⟩

/-- What a part reveals may be needed to read the next one. -/
theorem Reveals.append (h : Reveals first second P) (h' : P → Reveals first' second' Q) :
    Reveals (first ++ first') (second ++ second') (P ∧ Q) := by
  intro rest rest' heq
  rw [List.append_assoc, List.append_assoc] at heq
  obtain ⟨hP, htail⟩ := h _ _ heq
  obtain ⟨hQ, hrest⟩ := h' hP _ _ htail
  exact ⟨⟨hP, hQ⟩, hrest⟩

theorem Reveals.prepend (cs : List Char) (h : Reveals first second P) :
    Reveals (cs ++ first) (cs ++ second) P :=
  ((reveals_literal cs).append fun _ => h).imp And.right

theorem Reveals.cons (c : Char) (h : Reveals first second P) :
    Reveals (c :: first) (c :: second) P :=
  h.prepend [c]

/-- One more field of a line, with the words after it. -/
theorem Reveals.field {after : List Char} (h : Reveals first second P)
    (h' : Reveals (first' ++ after) (second' ++ after) Q) :
    Reveals (first ++ first' ++ after) (second ++ second' ++ after) (P ∧ Q) := by
  rw [List.append_assoc, List.append_assoc]
  exact h.append fun _ => h'

theorem reveals_of_head_ne {a b : Char} (hfirst : first.head? = some a)
    (hsecond : second.head? = some b) (h : a ≠ b) : Reveals first second P := by
  intro rest rest' heq
  have hhead := congrArg List.head? heq
  rw [List.head?_append, List.head?_append, hfirst, hsecond] at hhead
  exact absurd (Option.some.inj hhead) h

theorem reveals_of_length (h : first.length = second.length) :
    Reveals first second (first = second) :=
  fun _ _ heq => List.append_inj heq h

/-- A field goes on to the first `stop`, with which the words after it begin. -/
theorem reveals_until {stop : Char} {after : List Char} (hafter : after.head? = some stop)
    (hfirst : stop ∉ first) (hsecond : stop ∉ second) :
    Reveals (first ++ after) (second ++ after) (first = second) := by
  intro rest rest' heq
  obtain ⟨tail, rfl⟩ := List.head?_eq_some_iff.mp hafter
  have htake (cs more : List Char) (h : stop ∉ cs) :
      (cs ++ stop :: tail ++ more).takeWhile (· != stop) = cs := by
    have hall : ∀ c ∈ cs, (c != stop) = true := by
      intro c hc
      exact bne_iff_ne.mpr (ne_of_mem_of_not_mem hc h)
    rw [List.append_assoc, List.takeWhile_append_of_pos hall]
    simp
  have hfield : first = second := by
    rw [← htake first rest hfirst, ← htake second rest' hsecond, heq]
  subst hfield
  exact ⟨rfl, List.append_cancel_left heq⟩

theorem Hex.reveals_marked {stop : Char} {after : List Char} (hafter : after.head? = some stop)
    (h : stop ∉ 'x' :: Hex.alphabet) (width n n' : Nat) :
    Reveals (Hex.marked width n ++ after) (Hex.marked width n' ++ after) (n = n') :=
  (reveals_until hafter (Hex.not_mem_marked h width n) (Hex.not_mem_marked h width n')).imp
    Hex.marked_inj

theorem Decimal.reveals_digits {stop : Char} {after : List Char}
    (hafter : after.head? = some stop) (h : stop.isDigit = false) (n n' : Nat) :
    Reveals (Decimal.digits n ++ after) (Decimal.digits n' ++ after) (n = n') := by
  have hstop (n : Nat) : stop ∉ Decimal.digits n := by
    intro hmem
    exact Bool.false_ne_true (h.symm.trans (isDigit_of_mem_digits hmem))
  refine (reveals_until hafter (hstop n) (hstop n')).imp ?_
  intro heq
  rw [← Decimal.value_digits n, heq, Decimal.value_digits]

/-- A list of fields, each of which reveals its own fact. -/
theorem Reveals.flatMap {ι : Type} (keys : List ι) {render render' : ι → List Char}
    {fact : ι → Prop} (h : ∀ k ∈ keys, Reveals (render k) (render' k) (fact k)) :
    Reveals (keys.flatMap render) (keys.flatMap render') (∀ k ∈ keys, fact k) := by
  induction keys with
  | nil => exact (reveals_literal []).imp fun _ => List.forall_mem_nil _
  | cons k rest ih =>
      obtain ⟨hk, hrest⟩ := List.forall_mem_cons.mp h
      rw [List.flatMap_cons, List.flatMap_cons]
      exact (hk.append fun _ => ih hrest).imp List.forall_mem_cons.mpr

/-- As many fields with a separator between them, and words after the last one. -/
theorem reveals_intercalate {fields fields' : List (List Char)} {separator after : List Char}
    {stop last : Char} (hseparator : separator.head? = some stop)
    (hafter : after.head? = some last) (hlength : fields.length = fields'.length)
    (hfields : ∀ cs ∈ fields, stop ∉ cs ∧ last ∉ cs)
    (hfields' : ∀ cs ∈ fields', stop ∉ cs ∧ last ∉ cs) :
    Reveals (separator.intercalate fields ++ after) (separator.intercalate fields' ++ after)
      (fields = fields') := by
  induction fields generalizing fields' with
  | nil =>
      obtain rfl := List.eq_nil_of_length_eq_zero hlength.symm
      exact (reveals_literal _).imp fun _ => rfl
  | cons cs rest ih =>
      cases fields' with
      | nil => cases hlength
      | cons cs' rest' =>
          obtain ⟨⟨hstop, hlast⟩, hrest⟩ := List.forall_mem_cons.mp hfields
          obtain ⟨⟨hstop', hlast'⟩, hrest'⟩ := List.forall_mem_cons.mp hfields'
          have htail := Nat.succ.inj hlength
          cases rest with
          | nil =>
              obtain rfl := List.eq_nil_of_length_eq_zero htail.symm
              rw [List.intercalate_singleton, List.intercalate_singleton]
              exact (reveals_until hafter hlast hlast').imp fun h => congrArg (· :: []) h
          | cons next more =>
              cases rest' with
              | nil => cases htail
              | cons next' more' =>
                  rw [List.intercalate_cons_cons, List.intercalate_cons_cons, List.append_assoc,
                    List.append_assoc (cs' ++ separator)]
                  have hfield := reveals_until hseparator hstop hstop'
                  exact (hfield.append fun _ => ih htail hrest hrest').imp
                    fun ⟨hcs, hmore⟩ => congrArg₂ List.cons hcs hmore

end ChipEight.Text
