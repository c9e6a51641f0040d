import ChangeSplit.Java.Grammar
import ChangeSplit.Text.Utf8

/-! One Java source: its bytes, its syntax tree, and where its lines begin. All positions are
byte offsets into the source. -/

namespace ChangeSplit.Java

/-- Why a source has no syntax tree. -/
inductive SourceFault where
  /-- The bytes are not text. -/
  | encoding (fault : Utf8.Fault)
  /-- The text is not a sequence of declarations and statements. -/
  | form
deriving DecidableEq, Repr

/-- The words for a fault. -/
def SourceFault.message : SourceFault → String
  | .encoding fault => "not valid UTF-8 (" ++ fault.message ++ ")"
  | .form => "syntax errors in source"

/-- A source that was read. -/
structure SourceUnit where
  /-- Where the source comes from, for messages only. -/
  path : String
  source : List UInt8
  root : Tree
  /-- The name of the package, empty if the source declares none. -/
  package : String
  lineStarts : List Nat

/-- The text of a stretch of bytes. -/
def sliceText (source : List UInt8) (start stop : Nat) : String :=
  match Utf8.decode ((source.drop start).take (stop - start)) with
  | .ok cs => String.ofList cs
  | .error _ => ""

/-- The depth of reading that suffices for any source of so many tokens: every level of nesting
takes a token and passes through each rule at most a few times. -/
def readingDepth (count : Nat) : Nat := 512 * (count + 1)

/-- The tree of a whole source of `length` bytes over the given tokens. Comments play no part in
the reading and are put in afterwards. -/
def treeOf? (length : Nat) (tokens : List Token) : Option Tree :=
  let solid := tokens.filter (!·.isComment)
  match Pattern.read Grammar.java (readingDepth solid.length) (.many (.rule .topLevel)) []
    solid with
  | some (trees, []) =>
    let start := (tokens.head?.map (·.start)).getD length
    let bare := Tree.node none .program start length trees
    some (tokens.foldl (fun root t =>
      match t.lexeme with
      | .comment kind => Tree.insert (.node none kind t.start t.stop []) root
      | _ => root) bare)
  | _ => none

/-- Where the lines begin, from the byte `offset` on. A newline at the very end begins none. -/
def lineStartsFrom (offset : Nat) : List UInt8 → List Nat
  | [] => []
  | [_] => []
  | b :: next :: rest =>
    if b = 0x0A then (offset + 1) :: lineStartsFrom (offset + 1) (next :: rest)
    else lineStartsFrom (offset + 1) (next :: rest)

/-- Where the lines of a source begin. Even an empty source has one line. -/
def startsOfLines (source : List UInt8) : List Nat := 0 :: lineStartsFrom 0 source

/-- The package name of a source whose tree is given: the first name in the first package
declaration. -/
def packageName (source : List UInt8) (root : Tree) : String :=
  let names := (root.namedChildren.filter (·.isA .packageDeclaration)).flatMap fun d =>
    d.namedChildren.filter (·.kindIs Kind.isName)
  match names.head? with
  | some name => sliceText source name.start name.stop
  | none => ""

namespace SourceUnit

/-- Read a source. -/
def parse (source : List UInt8) (path : String) : Except SourceFault SourceUnit :=
  match Utf8.decode source with
  | .error fault => .error (.encoding fault)
  | .ok cs =>
    match (Token.tokens? cs).bind (treeOf? source.length) with
    | none => .error .form
    | some root => .ok ⟨path, source, root, packageName source root, startsOfLines source⟩

/-- The text that a tree spans, blanks and comments in it included. -/
def text (unit : SourceUnit) (t : Tree) : String := sliceText unit.source t.start t.stop

/-- The text of a tree that may be missing. -/
def text? (unit : SourceUnit) (t : Option Tree) : String := t.elim "" unit.text

/-- The name that a declaration gives. -/
def declaredName (unit : SourceUnit) (t : Tree) : String := unit.text? (t.childAs? .name)

/-- The names that a declaration of fields or of an enumeration constant gives. -/
def declaredFields (unit : SourceUnit) (t : Tree) : List String :=
  if t.isA .enumConstant then [unit.declaredName t]
  else (t.childrenAs .declarator).map unit.declaredName

end SourceUnit

/-- Whether a byte ends a line or stands before one that does. -/
def isLineEnd (b : UInt8) : Bool := b = 0x0A || b = 0x0D

/-- The bytes from the first column of line `first` to the end of line `last`, without the marks
at the end of it. Lines count from one. A last line before the first counts as the first, and one
past the end as the very last. There are no such bytes if the first line does not exist. -/
def lineSpan (source : List UInt8) (first last : Int) : Nat × Nat :=
  let starts := startsOfLines source
  let count := starts.length
  if first < 1 || first > count then (0, 0)
  else
    let final := min (max last first).toNat count
    let start := starts.getD (first.toNat - 1) 0
    let stop := if final < count then starts.getD final 0 - 1 else source.length
    let kept := ((source.drop start).take (stop - start)).reverse.dropWhile isLineEnd
    (start, start + kept.length)

/-- The words that qualify a declaration, in order. Annotations are no such words. -/
def modifierWords (t : Tree) : List String :=
  match t.children.find? (·.isA .modifiers) with
  | some m => m.children.filterMap fun
    | .token text _ _ => some text
    | .node .. => none
  | none => []

end ChangeSplit.Java
