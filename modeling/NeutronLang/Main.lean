import NeutronLang.CommandLine.Report

/-!
# The command line

Reads files and prints reports; all else is decided elsewhere.
-/

namespace NeutronLang.CommandLine

/-- The contents of a file of the system. -/
def contentsOf (path : String) : IO Contents := do
  try
    return .ok (← IO.FS.readBinFile path).toList
  catch fault =>
    match fault with
    | .noFileOrDirectory .. => return .error .notFound
    | .inappropriateType _ code _ =>
      -- The system's number, which arrives negated where the path is looked up.
      return .error (if code = 20 || -code = 20 then .notDirectory else .isDirectory)
    | .permissionDenied .. => return .error (.system 13 "Permission denied")
    | other => return .error (.system 5 other.toString)

/-- Milliseconds with two places, by a number of microseconds. -/
def millisecondsText (micros : Nat) : String :=
  let hundredths := (micros + 5) / 10
  let places := hundredths % 100
  let zero := if places < 10 then "0" else ""
  s!"{hundredths / 100}.{zero}{places}"

/-- Prints a report. -/
def printReport (verbose : Bool) (micros : Nat) (report : Report) : IO Unit := do
  (← IO.getStderr).putStr (report.stderr verbose (millisecondsText micros))
  (← IO.getStdout).putStr report.stdout

/-- Reports on files one by one, and answers with the status of all (`Report.statusAfter`). -/
def runFiles (options : Options) : IO Nat := do
  let mut status := 0
  for path in options.files do
    let contents ← contentsOf path
    let started ← IO.monoNanosNow
    let report ← IO.lazyPure fun _ => fileReport options path contents .standard
    status := Report.statusAfter status report.status
    let finished ← IO.monoNanosNow
    printReport options.verbose ((finished - started) / 1000) report
  printReport options.verbose 0 (closing options status)
  return status

end NeutronLang.CommandLine

open NeutronLang.CommandLine

/-- The command line. -/
def main (command : List String) : IO UInt32 := do
  match Options.ofWords command with
  | .error exit =>
    for line in exit.output do IO.println line
    if exit ≠ .version then
      IO.eprintln "usage: neutron-check [options] FILE [FILE ...]"
    return exit.status.toUInt32
  | .ok options => return (← runFiles options).toUInt32
