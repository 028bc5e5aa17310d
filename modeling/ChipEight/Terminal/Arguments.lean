import ChipEight.CommandLine.Program

/-!
The parser of the program: its arguments, read from left to right. A flag that takes a value has it
after an equals sign or as the next argument; each flag may be given once, and after a double hyphen
nothing is a flag. The first argument that is wrong, or that asks for help or the version, decides.
-/

namespace ChipEight.Terminal

open CommandLine

inductive Request where
  | run (options : Options)
  | version
  | help

inductive UsageError where
  | unexpected (argument : String)
  | repeated (flag : String)
  | missingValue (flag : String)
  | invalidValue (argument value : String)
  | missingRom
  deriving DecidableEq, Repr

def UsageError.message : UsageError → String
  | .unexpected argument => "unexpected argument '" ++ argument ++ "'"
  | .repeated flag => "the argument '" ++ flag ++ "' cannot be used multiple times"
  | .missingValue flag => "a value is required for '" ++ flag ++ "'"
  | .invalidValue argument value => "invalid value '" ++ value ++ "' for '" ++ argument ++ "'"
  | .missingRom => "the required argument <ROM> was not provided"

namespace Arguments

open Text

def defaultRate : Nat := 700

/-- What has been read so far. -/
structure Given where
  rom : Option String
  rate : Option Nat
  seconds : Option Seconds
  dump : Bool

def Given.nothing : Given := ⟨none, none, none, false⟩

def Given.finish (g : Given) : Except UsageError Request :=
  match g.rom with
  | none => .error .missingRom
  | some rom => .ok (.run ⟨rom, g.rate.getD defaultRate, g.seconds, g.dump⟩)

/-- The flags that take a value. -/
inductive Setting where
  | rate
  | seconds
  deriving DecidableEq, Repr

def Setting.flag : Setting → String
  | .rate => "--ips"
  | .seconds => "--seconds"

/-- One argument by its form. -/
inductive Argument where
  | positional (text : String)
  /-- From here on every argument is positional. -/
  | separator
  | setting (setting : Setting) (value : Option String)
  | dump
  | version
  | help
  | unknown
  deriving DecidableEq, Repr

def longFlag (name : List Char) (value : Option String) : Argument :=
  match String.ofList name, value with
  | "ips", _ => .setting .rate value
  | "seconds", _ => .setting .seconds value
  | "dump", none => .dump
  | "version", none => .version
  | "help", none => .help
  | _, _ => .unknown

def classify (text : String) : Argument :=
  match text.toList with
  | ['-', '-'] => .separator
  | '-' :: '-' :: flag =>
      match flag.span (· ≠ '=') with
      | (name, '=' :: value) => longFlag name (some (.ofList value))
      | (name, _) => longFlag name none
  | '-' :: 'V' :: _ => .version
  | '-' :: 'h' :: _ => .help
  | ['-'] => .positional text
  | '-' :: _ => .unknown
  | _ => .positional text

def Given.addRom (g : Given) (text : String) : Except UsageError Given :=
  if g.rom.isSome then .error (.unexpected text)
  else if text.isEmpty then .error (.invalidValue "<ROM>" text)
  else .ok { g with rom := some text }

/-- Rates are numbers of 64 bits. -/
def rate? (text : String) : Option Nat :=
  (Decimal.natural? text.toList).filter (· < UInt64.size)

def Given.set (g : Given) (setting : Setting) (text : String) : Except UsageError Given :=
  let invalid := UsageError.invalidValue setting.flag text
  match setting with
  | .rate =>
      if g.rate.isSome then .error (.repeated setting.flag)
      else match rate? text with
        | some rate => .ok { g with rate := some rate }
        | none => .error invalid
  | .seconds =>
      if g.seconds.isSome then .error (.repeated setting.flag)
      else match Seconds.ofText? text with
        | some seconds => .ok { g with seconds := some seconds }
        | none => .error invalid

def Given.addDump (g : Given) : Except UsageError Given :=
  if g.dump then .error (.repeated "--dump") else .ok { g with dump := true }

/-- The arguments after a separator. -/
def readPositional (g : Given) : List String → Except UsageError Request
  | [] => g.finish
  | text :: rest => do readPositional (← g.addRom text) rest

def readFrom (g : Given) : List String → Except UsageError Request
  | [] => g.finish
  | text :: rest =>
      match classify text with
      | .positional text => do readFrom (← g.addRom text) rest
      | .separator => readPositional g rest
      | .setting setting (some value) => do readFrom (← g.set setting value) rest
      | .setting setting none =>
          match rest with
          | [] => .error (.missingValue setting.flag)
          | value :: rest =>
              match classify value with
              | .positional value => do readFrom (← g.set setting value) rest
              | _ => .error (.missingValue setting.flag)
      | .dump => do readFrom (← g.addDump) rest
      | .version => .ok .version
      | .help => .ok .help
      | .unknown => .error (.unexpected text)

end Arguments

def versionText : String := "chip8 0.1.0\n"

def helpText : String :=
  "Run a Chip-8 program headless and print the final frame\n\n" ++
  "Usage: chip8 [OPTIONS] <ROM>\n\n" ++
  "Arguments:\n" ++
  "  <ROM>  Path to a raw Chip-8 ROM\n\n" ++
  "Options:\n" ++
  "      --ips <IPS>          Instructions executed per second; 0 runs unthrottled " ++
  "[default: 700]\n" ++
  "      --seconds <SECONDS>  Stop after this many seconds instead of running until the " ++
  "program faults\n" ++
  "      --dump               Print registers and memory when the program stops\n" ++
  "  -h, --help               Print help\n" ++
  "  -V, --version            Print version\n"

def parse : Parser := fun arguments =>
  match Arguments.readFrom .nothing arguments with
  | .ok (.run options) => .ok options
  | .ok .version => .error ⟨0, versionText, ""⟩
  | .ok .help => .error ⟨0, helpText, ""⟩
  | .error error => .error ⟨2, "", "error: " ++ error.message ++ "\n"⟩

end ChipEight.Terminal
