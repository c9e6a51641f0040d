import ChangeSplit.Text.Quoted

/-! The options of the command line and what the arguments say about them. -/

namespace ChangeSplit.CommandLine

/-- An option of the command line. -/
inductive Flag where
  | help
  | workingTree
  | repository
  | maxDistance
  | minSimilarity
  | weightThreshold
  | workers
  | asData
  | verbose
deriving DecidableEq, Repr

namespace Flag

/-- All options. -/
def all : List Flag :=
  [help, workingTree, repository, maxDistance, minSimilarity, weightThreshold, workers, asData,
    verbose]

/-- The names of an option, the short one first. -/
def names : Flag → List String
  | help => ["-h", "--help"]
  | workingTree => ["--working-tree"]
  | repository => ["-C", "--repo"]
  | maxDistance => ["--max-distance"]
  | minSimilarity => ["--min-similarity"]
  | weightThreshold => ["--weight-threshold"]
  | workers => ["--workers"]
  | asData => ["--json"]
  | verbose => ["-v", "--verbose"]

/-- Whether an option wants a value. -/
def takesValue : Flag → Bool
  | repository | maxDistance | minSimilarity | weightThreshold | workers => true
  | _ => false

/-- The names of an option as a message shows them. -/
def shown (f : Flag) : String := "/".intercalate f.names

end Flag

/-- All names of options, with the options. -/
def namedFlags : List (String × Flag) :=
  Flag.all.flatMap fun f => f.names.map (·, f)

/-- A fault in the arguments. -/
inductive UsageFault where
  | ambiguous (argument : String) (names : List String)
  | unrecognized (arguments : List String)
  | wantsValue (flag : Flag)
  /-- A value is given to an option that wants none. -/
  | takesNoValue (flag : Flag) (value : String)
  | notInteger (flag : Flag) (value : String)
  | notNumber (flag : Flag) (value : String)
  | notChosen (flag : Flag) (value : Int)
deriving DecidableEq, Repr

/-- The words for a fault in the arguments. -/
def UsageFault.message : UsageFault → String
  | ambiguous argument names =>
    "ambiguous option: " ++ argument ++ " could match " ++ ", ".intercalate names
  | unrecognized arguments => "unrecognized arguments: " ++ " ".intercalate arguments
  | wantsValue flag => "argument " ++ flag.shown ++ ": expected one argument"
  | takesNoValue flag value =>
    "argument " ++ flag.shown ++ ": ignored explicit argument " ++ Text.quoted value
  | notInteger flag value =>
    "argument " ++ flag.shown ++ ": invalid int value: " ++ Text.quoted value
  | notNumber flag value =>
    "argument " ++ flag.shown ++ ": invalid float value: " ++ Text.quoted value
  | notChosen flag value =>
    "argument " ++ flag.shown ++ ": invalid choice: " ++ toString value ++
      " (choose from 0, 1, 2, 3)"

/-- A value that is written in one argument with its option, with or without an equals sign. -/
structure Attached where
  equals : Bool
  value : List Char
deriving DecidableEq, Repr

/-- What an argument is, before the options in it are looked at more closely. -/
inductive Word where
  | plain (text : String)
  /-- Two dashes alone. Every argument after them is plain. -/
  | separator
  /-- An option by one of its names. -/
  | option (flag : Flag) (isShort : Bool) (attached : Option Attached)
  /-- Something with a dash in front that no option is called. -/
  | unknown (text : String)
deriving DecidableEq, Repr

/-- Whether a text is a negative number in plain digits. A line feed may follow it. -/
def isNegativeNumber (cs : List Char) : Bool :=
  match cs with
  | '-' :: rest =>
    let rest := if rest.getLast? = some '\n' then rest.dropLast else rest
    let fraction := rest.dropWhile Category.isDigit
    let digits := match fraction with
      | '.' :: more => more
      | _ => rest
    (fraction.isEmpty || fraction.head? = some '.') && !digits.isEmpty &&
      digits.all Category.isDigit
  | _ => false

/-- What stands before and after the first equals sign of a text. -/
def splitEquals (cs : List Char) : List Char × Option Attached :=
  match cs.dropWhile (· ≠ '=') with
  | [] => (cs, none)
  | _ :: value => (cs.takeWhile (· ≠ '='), some ⟨true, value⟩)

/-- The options that an argument may mean that is not the full name of one. Long names may be
shortened, and a value may follow a short name at once. -/
def meanings (cs : List Char) : List (String × Word) :=
  if cs.take 2 = ['-', '-'] then
    let (front, attached) := splitEquals cs
    (namedFlags.filter fun (name, _) => front.isPrefixOf name.toList).map fun (name, flag) =>
      (name, .option flag false attached)
  else
    (namedFlags.filter fun (name, _) => name.toList = cs.take 2).map fun (name, flag) =>
      (name, .option flag true (some ⟨false, cs.drop 2⟩))

/-- What an argument is. Two dashes alone are not asked about here. -/
def Word.ofArgument (argument : String) : Except UsageFault Word :=
  let cs := argument.toList
  let exact (name : List Char) : Option Flag := namedFlags.lookup (String.ofList name)
  let isShort (name : List Char) : Bool := name.length = 2
  if cs.head? ≠ some '-' then .ok (.plain argument)
  else
    match exact cs with
    | some flag => .ok (.option flag (isShort cs) none)
    | none =>
      if cs.length = 1 then .ok (.plain argument)
      else
        let (name, attached) := splitEquals cs
        match attached.bind fun _ => exact name with
        | some flag => .ok (.option flag (isShort name) attached)
        | none =>
          match meanings cs with
          | [(_, word)] => .ok word
          | [] =>
            if isNegativeNumber cs || cs.contains ' ' then .ok (.plain argument)
            else .ok (.unknown argument)
          | several => .error (.ambiguous argument (several.map (·.1)))

/-- What the arguments are. -/
def Word.ofArguments : List String → Except UsageFault (List Word)
  | [] => .ok []
  | argument :: rest =>
    if argument = "--" then .ok (.separator :: rest.map .plain)
    else
      match ofArgument argument with
      | .error e => .error e
      | .ok word => (ofArguments rest).map (word :: ·)

end ChangeSplit.CommandLine
