import ChipEight.Terminal.Arguments

/-!
The command line program: files, streams, the clock, the log and the source of random bytes.
-/

namespace ChipEight.Terminal

open CommandLine

/-- The log shows errors alone. -/
def log : Sink := fun main loop =>
  String.join (((main ++ loop).filter (·.level = .error)).map fun record =>
    "[ERROR] " ++ record.text ++ "\n")

/-- The random bytes that are kept ready for the program. -/
def reserve : Nat := 4096

def replenish (h : Headless) : IO Headless := do
  let random := h.console.devices.feed.random
  if random.length ≥ Headless.burst then return h
  let bytes ← IO.getRandomBytes (.ofNat (Headless.burst + reserve - random.length))
  return { h with console.devices.feed.random := random ++ bytes.toList }

/-- Passes the periods of a run at their own times. -/
partial def playLive (h : Headless) (started : Nat) : IO Headless := do
  if h.ended then return h
  let next := (← replenish h).pass
  let now := (← IO.monoNanosNow) - started
  unless next.ended || next.now ≤ now do
    IO.sleep (.ofNat ((next.now - now) / 1000000))
  playLive next started

def readRom (path : String) : IO (Except Outcome (List UInt8)) := do
  try
    return .ok (← IO.FS.readBinFile path).toList
  catch
    | .noFileOrDirectory .. => return .error (Failure.missingFile.outcome log)
    | error => return .error ⟨1, "", "Error: " ++ toString error ++ "\n"⟩

def perform (arguments : List String) : IO Outcome := do
  match Task.ofArguments parse log arguments with
  | .answer outcome => return outcome
  | .play options limit =>
      match ← readRom options.rom with
      | .error outcome => return outcome
      | .ok program =>
          match options.headless limit program with
          | .error refusal => return (Failure.refused refusal).outcome log
          | .ok headless => return (← playLive headless (← IO.monoNanosNow)).finish log

end ChipEight.Terminal

def main (arguments : List String) : IO UInt32 := do
  let outcome ← ChipEight.Terminal.perform arguments
  (← IO.getStdout).putStr outcome.output
  (← IO.getStderr).putStr outcome.errors
  return .ofNat outcome.exitCode
