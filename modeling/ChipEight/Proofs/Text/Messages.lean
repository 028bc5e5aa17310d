import ChipEight.Fault
import ChipEight.Proofs.Text.Fields

/-!
What the text of a trap tells. The first letter tells the kind of the fault, and every number stands
between words, as a hexadecimal numeral that grows with it. So no two traps have the same text, and
each number can be read back from its digits.
-/

namespace ChipEight

open Text

/-- The text has the number between these words, marked as hexadecimal. -/
def Text.Hex.Shows (width n : Nat) (before after text : String) : Prop :=
  ∃ cs, Hex.Numeral width n cs ∧ text = before ++ "0x" ++ .ofList cs ++ after

theorem Text.Hex.shows_marked (width n : Nat) (before after : String) :
    Hex.Shows width n before after (before ++ .ofList (Hex.marked width n) ++ after) := by
  refine ⟨Hex.padded width n, Hex.numeral_padded width n, ?_⟩
  apply String.toList_inj.mp
  simp only [String.toList_append, String.toList_ofList, Hex.marked, List.append_assoc]
  rfl

namespace Fault

/-- How the text of the fault shows what the fault is about. -/
def ShownIn (text : String) : Fault → Prop
  | .invalidInstruction w => Hex.Shows 4 w.toNat "invalid instruction " "" text
  | .unsupportedLegacyCall w => Hex.Shows 4 w.toNat "unsupported legacy host call " "" text
  | .stackOverflow => text = "call stack overflow"
  | .stackUnderflow => text = "return with an empty call stack"
  | .invalidKeyIndex k => Hex.Shows 2 k.toNat "key index " " is outside 0x0..=0xF" text
  | .memoryOutOfBounds a => Hex.Shows 4 a "memory access out of bounds at " "" text

theorem shownIn_message (f : Fault) : f.ShownIn f.message := by
  have hlast (width n : Nat) (before : String) :
      Hex.Shows width n before "" (before ++ .ofList (Hex.marked width n)) := by
    have h := Hex.shows_marked width n before ""
    rwa [String.append_empty] at h
  cases f with
  | stackOverflow | stackUnderflow => rfl
  | invalidInstruction w | unsupportedLegacyCall w => exact hlast 4 w.toNat _
  | invalidKeyIndex k => exact Hex.shows_marked 2 k.toNat _ _
  | memoryOutOfBounds a => exact hlast 4 a _

theorem toList_message (f : Fault) :
    f.message.toList =
      match f with
      | .invalidInstruction w => "invalid instruction ".toList ++ Hex.marked 4 w.toNat
      | .unsupportedLegacyCall w => "unsupported legacy host call ".toList ++ Hex.marked 4 w.toNat
      | .stackOverflow => "call stack overflow".toList
      | .stackUnderflow => "return with an empty call stack".toList
      | .invalidKeyIndex k =>
          "key index ".toList ++ Hex.marked 2 k.toNat ++ " is outside 0x0..=0xF".toList
      | .memoryOutOfBounds a => "memory access out of bounds at ".toList ++ Hex.marked 4 a := by
  have hnumbered (before : String) (width n : Nat) :
      (before ++ .ofList (Hex.marked width n)).toList = before.toList ++ Hex.marked width n := by
    rw [String.toList_append, String.toList_ofList]
  cases f with
  | stackOverflow | stackUnderflow => rfl
  | invalidInstruction w | unsupportedLegacyCall w => exact hnumbered _ 4 w.toNat
  | invalidKeyIndex k =>
      exact String.toList_append.trans (congrArg (· ++ _) (hnumbered _ 2 k.toNat))
  | memoryOutOfBounds a => exact hnumbered _ 4 a

/-- The first letter of the text. -/
def initial : Fault → Char
  | .invalidInstruction _ => 'i'
  | .unsupportedLegacyCall _ => 'u'
  | .stackOverflow => 'c'
  | .stackUnderflow => 'r'
  | .invalidKeyIndex _ => 'k'
  | .memoryOutOfBounds _ => 'm'

theorem head?_message (f : Fault) (rest : List Char) :
    (f.message.toList ++ rest).head? = some f.initial := by
  have hlead {lead : List Char} {c : Char} (h : lead.head? = some c) (tail : List Char) :
      (lead ++ tail).head? = some c := by
    rw [List.head?_append, h]
    rfl
  rw [toList_message]
  cases f with
  | stackOverflow | stackUnderflow => exact hlead (by decide +kernel) rest
  | _ =>
      simp only [initial, List.append_assoc]
      exact hlead (by decide +kernel) _

/-- Where a blank comes next, what is before it tells the fault. -/
theorem reveals_message {after : List Char} (hafter : after.head? = some ' ') (f g : Fault) :
    Reveals (f.message.toList ++ after) (g.message.toList ++ after) (f = g) := by
  have hnumber (lead words : List Char) (hwords : words.head? = some ' ') (width n n' : Nat) :
      Reveals (lead ++ Hex.marked width n ++ words) (lead ++ Hex.marked width n' ++ words)
        (n = n') := by
    rw [List.append_assoc, List.append_assoc]
    exact (Hex.reveals_marked hwords (by decide +kernel) width n n').prepend lead
  by_cases hinitial : f.initial = g.initial
  · rw [toList_message, toList_message]
    cases f with
    | invalidInstruction w =>
        cases g with
        | invalidInstruction w' =>
            exact (hnumber _ after hafter 4 _ _).imp
              fun h => congrArg invalidInstruction (UInt16.toNat_inj.mp h)
        | _ => simp [initial] at hinitial
    | unsupportedLegacyCall w =>
        cases g with
        | unsupportedLegacyCall w' =>
            exact (hnumber _ after hafter 4 _ _).imp
              fun h => congrArg unsupportedLegacyCall (UInt16.toNat_inj.mp h)
        | _ => simp [initial] at hinitial
    | stackOverflow =>
        cases g with
        | stackOverflow => exact (reveals_literal _).imp fun _ => rfl
        | _ => simp [initial] at hinitial
    | stackUnderflow =>
        cases g with
        | stackUnderflow => exact (reveals_literal _).imp fun _ => rfl
        | _ => simp [initial] at hinitial
    | invalidKeyIndex k =>
        cases g with
        | invalidKeyIndex k' =>
            have hkey := hnumber "key index ".toList " is outside 0x0..=0xF".toList
              (by decide +kernel) 2 k.toNat k'.toNat
            exact (hkey.append fun _ => reveals_literal after).imp
              fun h => congrArg invalidKeyIndex (UInt8.toNat_inj.mp h.1)
        | _ => simp [initial] at hinitial
    | memoryOutOfBounds a =>
        cases g with
        | memoryOutOfBounds a' =>
            exact (hnumber _ after hafter 4 _ _).imp fun h => congrArg memoryOutOfBounds h
        | _ => simp [initial] at hinitial
  · exact reveals_of_head_ne (head?_message f _) (head?_message g _) hinitial

end Fault

namespace Trap

theorem toList_message (t : Trap) :
    t.message.toList =
      t.fault.message.toList ++ " (instruction at ".toList ++
        (Hex.marked 3 t.address.toNat ++ ")".toList) := by
  simp only [message, String.toList_append, String.toList_ofList, List.append_assoc]

theorem eq_of_message_eq {t t' : Trap} (h : t.message = t'.message) : t = t' := by
  have hlist := congrArg String.toList h
  rw [toList_message, toList_message] at hlist
  have hwords : " (instruction at ".toList.head? = some ' ' := by decide +kernel
  have hclose : ")".toList.head? = some ')' := by decide +kernel
  have haddress := Hex.reveals_marked hclose (by decide +kernel) 3 t.address.toNat
    t'.address.toNat
  have hparts := (Fault.reveals_message hwords t.fault t'.fault).append fun _ => haddress
  obtain ⟨hfault, haddr⟩ := hparts.of_eq hlist
  cases t
  cases t'
  rw [mk.injEq]
  exact ⟨UInt16.toNat_inj.mp haddr, hfault⟩

/-- The text of a trap tells which trap it is: traps with the same text are the same. Each number in
it, the word, the key, the address that was accessed and the address of the instruction, is a
hexadecimal numeral of at least 4, 2, 4 and 3 digits, which grows with the number and is read back
as the number. -/
theorem messages_tell_traps_apart :
    (∀ t t' : Trap, t.message = t'.message ↔ t = t') ∧
      ∀ t : Trap,
        t.fault.ShownIn t.fault.message ∧
          Hex.Shows 3 t.address.toNat (t.fault.message ++ " (instruction at ") ")" t.message := by
  refine ⟨fun t t' => ⟨eq_of_message_eq, congrArg message⟩, ?_⟩
  intro t
  exact ⟨t.fault.shownIn_message, Hex.shows_marked 3 t.address.toNat _ _⟩

/-- An address past twelve bits has a fourth digit. -/
example : (Trap.mk 0x10FE (.memoryOutOfBounds 0xFFF)).message =
    "memory access out of bounds at 0x0FFF (instruction at 0x10FE)" := by decide +kernel

end Trap
end ChipEight
