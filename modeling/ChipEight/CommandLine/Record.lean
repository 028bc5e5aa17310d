import ChipEight.Fault

/-!
What a run logs, and the logger that shows it. Which records a logger shows, in what form, and how
those of two threads come to be mixed, is not the affair of the run: a sink is any function of both.
The records are those of errors, warnings and information. A run also logs, for those who debug it,
that a key is waited for or that a halt found the loop running, and it traces every instruction;
these records are left out, and a sink may make up what it writes of them.
-/

namespace ChipEight.CommandLine

open Text

inductive Level where
  | error
  | warning
  | information
  deriving DecidableEq, Repr

structure Record where
  level : Level
  text : String
  deriving DecidableEq, Repr

namespace Record

def ofProgram (size : Nat) : Record :=
  ⟨.information, "loaded " ++ size.repr ++ " byte program"⟩

def ofRom (path : String) : Record := ⟨.information, "loaded " ++ path⟩

def ofRefusal (refusal : Refusal) : Record := ⟨.warning, refusal.message⟩

def ofTrap (trap : Trap) : Record := ⟨.error, trap.message⟩

def ofStart (pc : UInt16) : Record :=
  ⟨.information, "execution loop started at " ++ .ofList (Hex.marked 3 pc.toNat)⟩

def ofStop (pc : UInt16) : Record :=
  ⟨.information, "execution loop stopped at " ++ .ofList (Hex.marked 3 pc.toNat)⟩

/-- The main thread until the loop runs at `pc`. -/
def start (path : String) (size : Nat) (pc : UInt16) : List Record :=
  [ofProgram size, ofRom path, ofStart pc]

/-- The thread of the loop, which stops at `pc`. -/
def stop (pc : UInt16) (trap : Option Trap) : List Record :=
  (trap.map ofTrap).toList ++ [ofStop pc]

end Record

/-- What the logger has written to the stream of errors, from the records of the main thread and
those of the loop's. -/
abbrev Sink := List Record → List Record → String

/-- The logger shows errors and nothing else, each as a line of its own. -/
def Sink.ShowsErrors (sink : Sink) (line : Record → String) : Prop :=
  ∀ main loop, sink main loop =
    String.join (((main ++ loop).filter (·.level = .error)).map line)

end ChipEight.CommandLine
