import ChangeSplit.Text.Blank

/-! What sort of thing some lines of a source hold, told from their looks alone. -/

namespace ChangeSplit

/-- What some lines hold. -/
inductive Content where
  /-- There are no lines. -/
  | empty
  | blank
  | comment
  | imports
  | code
deriving DecidableEq, Repr

namespace Content

open Category

/-- The name of a sort of content. -/
def name : Content → String
  | empty => "empty"
  | blank => "blankline"
  | comment => "comment"
  | imports => "import"
  | code => "code"

/-- The rest of a text after a word in front of it, if it begins with the word. -/
def after? (word text : List Char) : Option (List Char) :=
  if word.isPrefixOf text then some (text.drop word.length) else none

/-- The rest of a text after at least one blank. -/
def afterBlanks? : List Char → Option (List Char)
  | [] => none
  | c :: rest => if isBlank c then some (Text.trimStart rest) else none

/-- Whether a character can be part of an imported name. -/
def isNamePart (c : Char) : Bool := isWord c || c = '.'

/-- Whether a text begins with the end of an import: blanks and a semicolon. -/
def endsImport (cs : List Char) : Bool := (Text.trimStart cs).head? = some ';'

/-- Whether a text begins with an imported name and the end of the import. A star can stand after
the last point of the name if something stands before that point. -/
def isImported (cs : List Char) : Bool :=
  let name := cs.takeWhile isNamePart
  let rest := cs.dropWhile isNamePart
  (!name.isEmpty && endsImport rest) ||
    (name.length ≥ 2 && name.getLast? = some '.' && rest.head? = some '*' &&
      endsImport (rest.drop 1))

/-- Whether a line without blanks in front begins with an import. -/
def isImport (line : List Char) : Bool :=
  match (after? "import".toList line).bind afterBlanks? with
  | none => false
  | some rest =>
    isImported rest || ((after? "static".toList rest).bind afterBlanks?).any isImported

/-- What follows the first end of a comment in a text. -/
def afterComment? : List Char → Option (List Char)
  | [] => none
  | '*' :: '/' :: rest => some rest
  | _ :: rest => afterComment? rest

/-- Whether a line without blanks in front is a comment throughout. A star in front goes on a
comment that was begun before. What follows the end of a comment has to be a comment again, so the
question comes back at most once for each comment on the line. -/
def isCommentWithin : Nat → List Char → Bool
  | 0, _ => false
  | depth + 1, line =>
    let closed (inside : List Char) : Bool :=
      match afterComment? inside with
      | none => true
      | some rest =>
        match Text.trim rest with
        | [] => true
        | c :: more => c = '/' && isCommentWithin depth (c :: more)
    match line with
    | '/' :: '/' :: _ => true
    | '/' :: '*' :: inside => closed inside
    | '*' :: rest => closed ('*' :: rest)
    | _ => false

/-- Whether a line without blanks in front is a comment throughout. -/
def isComment (line : List Char) : Bool := isCommentWithin (line.length + 1) line

/-- What one line holds. -/
def ofLine (line : String) : Content :=
  match Text.trim line.toList with
  | [] => blank
  | stripped => if isImport stripped then imports else if isComment stripped then comment else code

/-- What some lines hold: code if any of them is code, or else imports, or else comments. -/
def ofLines (lines : List String) : Content :=
  let kinds := lines.map ofLine
  if lines.isEmpty then empty
  else if kinds.contains code then code
  else if kinds.contains imports then imports
  else if kinds.contains comment then comment
  else blank

/-- Whether content has a bearing on what the source means. -/
def isCode : Content → Bool
  | code | imports => true
  | _ => false

end Content

end ChangeSplit
