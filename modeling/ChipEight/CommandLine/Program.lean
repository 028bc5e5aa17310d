import ChipEight.CommandLine.Headless
import ChipEight.CommandLine.Seconds

/-!
The command line as a function of its arguments and of the files that it can read. How arguments are
parsed and how records are shown is left to a parser and a logger, which are parameters. The order
of the refusals is: what the parser answers itself, a time limit that is no duration, a file that is
missing, a program that is too large.

The thread of the loop is joined when the loop has stopped, which is no event of its own here; that
a thread may panic and poison a lock is left out, and so is what is dropped at the end of the
process.
-/

namespace ChipEight.CommandLine

structure Options where
  rom : String
  /-- Instructions per second. -/
  rate : Nat
  seconds : Option Seconds
  dump : Bool

/-- What the arguments say, or the outcome with which the parser ends the program itself: a
complaint about its usage, help, or the version. -/
abbrev Parser := List String → Except Outcome Options

inductive Failure where
  | invalidLimit
  | missingFile
  | refused (refusal : Refusal)

def refusalName : Refusal → String
  | .programTooLarge size limit =>
      "ProgramTooLarge \x7b size: " ++ size.repr ++ ", max: " ++ limit.repr ++ " \x7d"
  | .noProgramLoaded => "NoProgramLoaded"
  | .alreadyRunning => "AlreadyRunning"

def missingFileName : String :=
  "Os \x7b code: 2, kind: NotFound, message: \"No such file or directory\" \x7d"

/-- A refusal is logged before the program ends with it. -/
def Failure.outcome (sink : Sink) : Failure → Outcome
  | .invalidLimit => ⟨101, "", "error: the time limit is not a duration\n"⟩
  | .missingFile => ⟨1, "", "Error: " ++ missingFileName ++ "\n"⟩
  | .refused refusal =>
      ⟨1, "", sink [.ofRefusal refusal] [] ++ ("Error: " ++ refusalName refusal ++ "\n")⟩

/-- What the arguments ask for: an answer at once, or a run of the program in a file. -/
inductive Task where
  | answer (outcome : Outcome)
  | play (options : Options) (limit : Option Nat)

def Task.ofArguments (parse : Parser) (sink : Sink) (arguments : List String) : Task :=
  match parse arguments with
  | .error outcome => .answer outcome
  | .ok options =>
      match options.seconds with
      | none => .play options none
      | some seconds =>
          match seconds.nanoseconds? with
          | some limit => .play options (some limit)
          | none => .answer (Failure.invalidLimit.outcome sink)

/-- The run of a program, about to begin. -/
def Options.headless (options : Options) (limit : Option Nat) (program : List UInt8) :
    Except Refusal Headless :=
  match Console.new.load program with
  | (.ok (), console) =>
      let started := console.resting.elim [] fun m => Record.start options.rom program.length m.pc
      .ok (.start console (.ofRate options.rate) limit options.dump started)
  | (.error refusal, _) => .error refusal

/-- The outcome of the command line, for runs of `periods` periods at most. -/
def outcome (parse : Parser) (sink : Sink) (readFile : String → Option (List UInt8))
    (arguments : List String) (periods : Nat) : Outcome :=
  match Task.ofArguments parse sink arguments with
  | .answer outcome => outcome
  | .play options limit =>
      match readFile options.rom with
      | none => Failure.missingFile.outcome sink
      | some program =>
          match options.headless limit program with
          | .error refusal => (Failure.refused refusal).outcome sink
          | .ok headless => (headless.play periods).finish sink

end ChipEight.CommandLine
