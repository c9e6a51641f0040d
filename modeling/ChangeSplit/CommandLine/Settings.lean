import ChangeSplit.CommandLine.Option
import ChangeSplit.Number.Numeral
import ChangeSplit.Settings

/-! The settings that the arguments of the command line ask for. -/

namespace ChangeSplit.CommandLine

/-- An option with its value. -/
structure Setting where
  flag : Flag
  value : String := ""
deriving DecidableEq, Repr

/-- What an argument with short options comes to: the options in it, a value that is still wanted
for the last of them, and a rest that is no option. -/
structure Cluster where
  settings : List Setting := []
  wanting : Option Flag := none
  rest : Option String := none

/-- Read the options in one argument. A short option without a value may be followed by another
one at once. `depth` bounds the number of characters. -/
def readCluster : Nat → Flag → Bool → Option Attached → Except UsageFault Cluster
  | 0, _, _, _ => .ok {}
  | depth + 1, flag, isShort, attached =>
    match attached with
    | none =>
      .ok (if flag.takesValue then { wanting := some flag } else { settings := [⟨flag, ""⟩] })
    | some ⟨equals, value⟩ =>
      if flag.takesValue then .ok { settings := [⟨flag, String.ofList value⟩] }
      else
        match value with
        | [] => .error (.takesNoValue flag "")
        | c :: more =>
          if !isShort || equals || c = '-' then
            .error (.takesNoValue flag (String.ofList value))
          else
            match namedFlags.lookup (String.ofList ['-', c]) with
            | none =>
              .ok { settings := [⟨flag, ""⟩], rest := some (String.ofList ('-' :: value)) }
            | some next =>
              let attached := match more with
                | [] => none
                | '=' :: value => some ⟨true, value⟩
                | value => some ⟨false, value⟩
              (readCluster depth next true attached).map fun cluster =>
                { cluster with settings := ⟨flag, ""⟩ :: cluster.settings }

/-- What reading the arguments comes to. -/
inductive Reading where
  | help
  | settings (settings : Settings)

/-- Arguments that are being read. -/
structure Progress where
  settings : Settings := {}
  /-- Whether the commit to take apart was given. -/
  hasTarget : Bool := false
  /-- Arguments that nothing is known of. -/
  extra : List String := []

/-- Take in an option. There is no result if it asks for help. -/
def applySetting (s : Settings) (o : Setting) : Except UsageFault (Option Settings) :=
  let cs := o.value.toList
  let integer (k : Int → Except UsageFault (Option Settings)) :=
    match Numeral.int? cs with
    | some n => k n
    | none => .error (.notInteger o.flag o.value)
  let number (k : Binary64 → Settings) : Except UsageFault (Option Settings) :=
    match Numeral.binary64? cs with
    | some x => .ok (some (k x))
    | none => .error (.notNumber o.flag o.value)
  match o.flag with
  | .help => .ok none
  | .workingTree => .ok (some { s with workingTree := true })
  | .repository => .ok (some { s with repository := o.value })
  | .asData => .ok (some { s with asData := true })
  | .verbose => .ok (some { s with verbosity := s.verbosity + 1 })
  | .minSimilarity => number fun x => { s with minSimilarity := x }
  | .weightThreshold => number fun x => { s with weightThreshold := x }
  | .workers => integer fun n => .ok (some { s with workers := n })
  | .maxDistance => integer fun n =>
      if n < 0 || n > 3 then .error (.notChosen .maxDistance n)
      else .ok (some { s with maxDistance := n })

/-- Take in options one after the other. There is no result if one of them asks for help. -/
def applySettings (s : Settings) : List Setting → Except UsageFault (Option Settings)
  | [] => .ok (some s)
  | o :: rest =>
    match applySetting s o with
    | .error e => .error e
    | .ok none => .ok none
    | .ok (some s) => applySettings s rest

/-- The options of an argument with the value that is wanted, if the next argument is one. -/
def Cluster.complete (c : Cluster) (next : Option String) : Except UsageFault (List Setting) :=
  match c.wanting, next with
  | none, _ => .ok c.settings
  | some flag, some value => .ok (c.settings ++ [⟨flag, value⟩])
  | some flag, none => .error (.wantsValue flag)

/-- Read the options of one argument, with a value from the next one if it is wanted. -/
def readOption (flag : Flag) (isShort : Bool) (attached : Option Attached)
    (next : Option String) : Except UsageFault (Cluster × List Setting) :=
  match readCluster ((attached.elim 0 (·.value.length)) + 1) flag isShort attached with
  | .error e => .error e
  | .ok cluster => (cluster.complete next).map (cluster, ·)

/-- The argument that a word came from, if it is not an option. -/
def Word.text : Word → String
  | plain text | unknown text => text
  | separator => "--"
  | option .. => ""

/-- Read words one after the other. The first plain one is the commit to take apart. The flag says
that the word in front was used up as a value. -/
def readWords (p : Progress) (used : Bool) : List Word → Except UsageFault (Option Progress)
  | [] => .ok (some p)
  | word :: rest =>
    if used then readWords p false rest
    else
      match word with
      | .plain text =>
        if p.hasTarget then readWords { p with extra := p.extra ++ [text] } false rest
        else
          let p := { p with hasTarget := true, settings := { p.settings with target := some text } }
          readWords p (rest.head? = some .separator) rest
      | .separator =>
        if p.hasTarget then readWords { p with extra := p.extra ++ ["--"] } false rest
        else readWords p false rest
      | .unknown text => readWords { p with extra := p.extra ++ [text] } false rest
      | .option flag isShort attached =>
        let next := match rest.head? with
          | some (.plain text) => some text
          | _ => none
        match readOption flag isShort attached next with
        | .error e => .error e
        | .ok (cluster, settings) =>
          match applySettings p.settings settings with
          | .error e => .error e
          | .ok none => .ok none
          | .ok (some s) =>
            readWords { p with settings := s, extra := p.extra ++ cluster.rest.toList }
              cluster.wanting.isSome rest

/-- Read the arguments of the command line. -/
def read (arguments : List String) : Except UsageFault Reading :=
  match Word.ofArguments arguments with
  | .error e => .error e
  | .ok words =>
    match readWords {} false words with
    | .error e => .error e
    | .ok none => .ok .help
    | .ok (some p) =>
      if p.extra.isEmpty then .ok (.settings p.settings) else .error (.unrecognized p.extra)

end ChangeSplit.CommandLine
