import ChipEight.Proofs.Text.Fields
import ChipEight.Terminal.Arguments

/-!
What is asked of a parser: that it reads the arguments for a run without a time limit, at the usual
rate or at any other, with a dump or without. The parser of the terminal does, since it reads back
numerals as they were written.
-/

namespace ChipEight

namespace Text.Decimal

theorem exists_digits_eq_cons (n : Nat) : ∃ c rest, digits n = c :: rest ∧ c.isDigit := by
  obtain ⟨c, rest, h⟩ := List.exists_cons_of_ne_nil (Nat.toDigits_ne_nil : digits n ≠ [])
  exact ⟨c, rest, h, isDigit_of_mem_digits (h ▸ List.mem_cons_self)⟩

theorem natural?_digits (n : Nat) : natural? (digits n) = some n := by
  obtain ⟨c, rest, h, hc⟩ := exists_digits_eq_cons n
  have hne : c ≠ '+' := by
    rintro rfl
    cases hc
  have hall : (c :: rest).all Char.isDigit = true :=
    List.all_eq_true.mpr fun _ hmem => isDigit_of_mem_digits (h ▸ hmem)
  have hvalue : value (c :: rest) = n := h ▸ value_digits n
  have hunsigned : natural? (c :: rest) =
      if (c :: rest).isEmpty || !(c :: rest).all Char.isDigit then none
      else some (value (c :: rest)) := by
    simp only [natural?]
    split
    · rename_i hplus
      exact absurd (List.cons.inj hplus).1 hne
    · rfl
  rw [h, hunsigned, hall, hvalue]
  rfl

end Text.Decimal

namespace CommandLine

/-- The arguments for a run without a time limit. -/
def runArguments (rom : String) (rate : Option Nat) (dump : Bool) : List String :=
  (if dump then ["--dump"] else []) ++ rate.elim [] (fun rate => ["--ips", rate.repr]) ++
    ["--", rom]

/-- The parser takes a rate of 64 bits from its flag, and 700 where there is none. -/
def Parser.ReadsRuns (parse : Parser) : Prop :=
  ∀ rom rate dump, rom ≠ "" → (∀ r ∈ rate, r < UInt64.size) →
    parse (runArguments rom rate dump) = .ok ⟨rom, rate.getD 700, none, dump⟩

end CommandLine

namespace Terminal

open CommandLine Text

namespace Arguments

theorem rate?_repr {rate : Nat} (h : rate < UInt64.size) : rate? rate.repr = some rate := by
  have hnatural : Decimal.natural? rate.repr.toList = some rate := by
    rw [Nat.toList_repr]
    exact Decimal.natural?_digits rate
  rw [rate?, hnatural, Option.filter_some, if_pos (decide_eq_true h)]

theorem classify_repr (n : Nat) : classify n.repr = .positional n.repr := by
  obtain ⟨c, rest, h, hc⟩ := Decimal.exists_digits_eq_cons n
  have hlist : n.repr.toList = c :: rest := Nat.toList_repr.trans h
  have hne : c ≠ '-' := by
    rintro rfl
    cases hc
  rw [classify, hlist]
  split
  all_goals
    first
    | rfl
    | rename_i hdash
      exact absurd (List.cons.inj hdash).1 hne

theorem readPositional_rom {g : Given} (hg : g.rom = none) {rom : String} (hrom : rom ≠ "") :
    readPositional g [rom] = .ok (.run ⟨rom, g.rate.getD defaultRate, g.seconds, g.dump⟩) := by
  have hempty : rom.isEmpty = false := by
    rw [Bool.eq_false_iff]
    exact mt String.isEmpty_iff.mp hrom
  simp only [readPositional, Given.addRom, hg, hempty]
  rfl

theorem readFrom_separator {g : Given} (hg : g.rom = none) {rom : String} (hrom : rom ≠ "") :
    readFrom g ["--", rom] = .ok (.run ⟨rom, g.rate.getD defaultRate, g.seconds, g.dump⟩) := by
  have hseparator : classify "--" = .separator := by decide +kernel
  simp only [readFrom, hseparator]
  exact readPositional_rom hg hrom

theorem readFrom_rate {g : Given} (hg : g.rate = none) {rate : Nat} (hrate : rate < UInt64.size)
    (rest : List String) :
    readFrom g ("--ips" :: rate.repr :: rest) = readFrom { g with rate := some rate } rest := by
  have hips : classify "--ips" = .setting .rate none := by decide +kernel
  simp only [readFrom, hips, classify_repr, Given.set, hg, rate?_repr hrate]
  rfl

theorem readFrom_rate? {g : Given} (hg : g.rom = none) (hg' : g.rate = none) {rom : String}
    (hrom : rom ≠ "") {rate : Option Nat} (hrate : ∀ r ∈ rate, r < UInt64.size) :
    readFrom g (rate.elim [] (fun rate => ["--ips", rate.repr]) ++ ["--", rom]) =
      .ok (.run ⟨rom, rate.getD defaultRate, g.seconds, g.dump⟩) := by
  cases rate with
  | none =>
      have hread := readFrom_separator hg hrom
      rwa [hg'] at hread
  | some rate =>
      have hread := readFrom_rate hg' (hrate rate rfl) ["--", rom]
      exact hread.trans (readFrom_separator (g := { g with rate := some rate }) hg hrom)

end Arguments

theorem parse_readsRuns : parse.ReadsRuns := by
  intro rom rate dump hrom hrate
  have hdump : Arguments.classify "--dump" = .dump := by decide +kernel
  have hread : Arguments.readFrom .nothing (runArguments rom rate dump) =
      .ok (.run ⟨rom, rate.getD 700, none, dump⟩) := by
    cases dump with
    | true =>
        let given : Arguments.Given := { Arguments.Given.nothing with dump := true }
        have hfirst : Arguments.readFrom .nothing (runArguments rom rate true) =
            Arguments.readFrom given
              (rate.elim [] (fun rate => ["--ips", rate.repr]) ++ ["--", rom]) := by
          simp only [runArguments, if_true, List.cons_append, List.nil_append, Arguments.readFrom,
            hdump]
          rfl
        rw [hfirst]
        exact Arguments.readFrom_rate? rfl rfl hrom hrate
    | false => exact Arguments.readFrom_rate? rfl rfl hrom hrate
  rw [parse, hread]

end Terminal
end ChipEight
