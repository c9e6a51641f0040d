import ChangeSplit.CommandLine.Settings
import ChangeSplit.Report
import ChangeSplit.Run

/-! The program as it is run from the command line. -/

namespace ChangeSplit.CommandLine

/-- The text that is shown if help is asked for. -/
def usage : String :=
  "usage: untangle [options] [commit] < recording\n\n" ++
  "Take a change of a Java repository apart into groups of hunks that belong together.\n\n" ++
  String.join (Flag.all.map fun f =>
    "  " ++ ", ".intercalate f.names ++ (if f.takesValue then " VALUE" else "") ++ "\n")

/-- The end of a program. -/
inductive Ending where
  /-- Help was asked for. -/
  | help
  | misused (fault : UsageFault)
  /-- The change was taken apart, with this text as the outcome. -/
  | finished (output : String)
  | failed (failure : Failure)
  | interrupted
  | unwritable (fault : WriteFault)
  | ungroupable (fault : Grouping.Fault)

/-- The exit code of a program. -/
def Ending.exitCode : Ending → Nat
  | help | finished _ => 0
  | misused _ => 2
  | interrupted => 130
  | failed _ | unwritable _ | ungroupable _ => 1

/-- What a program shows at its end. -/
def Ending.printed : Ending → String
  | help => usage
  | finished output => output
  | _ => ""

/-- The complaint at the end of a program. -/
def Ending.complaint : Ending → String
  | misused fault => "untangle: error: " ++ fault.message ++ "\n"
  | failed failure => "untangle: error: " ++ failure.message ++ "\n"
  | _ => ""

/-- Whether a note is shown. -/
def isShown (verbosity : Nat) (n : Note) : Bool := verbosity > 0 || n.level ≠ .info

/-- The outcome as text. -/
def output (s : Settings) (a : Analysis) : String :=
  (if s.asData then Report.data a.groups else Report.text a.groups a.files) ++ "\n"

/-- Run the program. The transcript has only the notes that are shown. -/
def run (w : Surroundings) (arguments : List String) : Ending × Transcript :=
  match read arguments with
  | .error e => (.misused e, {})
  | .ok .help => (.help, {})
  | .ok (.settings s) =>
    let (outcome, t) := ((analyze s).run w).run.run {}
    let t := { t with notes := t.notes.filter (isShown s.verbosity) }
    match outcome with
    | .ok a => (.finished (output s a), t)
    | .error .interrupted => (.interrupted, t)
    | .error (.failed f) => (.failed f, t)
    | .error (.unwritable f) => (.unwritable f, t)
    | .error (.ungroupable f) => (.ungroupable f, t)

end ChangeSplit.CommandLine
