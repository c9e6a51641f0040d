import ChangeSplit.Text.Category

/-! Cutting text at blanks, at line ends and at separators. Text is a list of characters here. -/

namespace ChangeSplit.Text

open Category

/-- The text without the blanks in front. -/
def trimStart (cs : List Char) : List Char := cs.dropWhile isBlank

/-- The text without the blanks at its end. -/
def trimEnd (cs : List Char) : List Char := (cs.reverse.dropWhile isBlank).reverse

/-- The text without the blanks at both ends. -/
def trim (cs : List Char) : List Char := trimEnd (trimStart cs)

/-- A string without the blanks at both ends. -/
def trimmed (s : String) : String := String.ofList (trim s.toList)

/-- The stretches between the separators, which the test tells. There is always one more of them
than there are separators. -/
def pieces (separator : Char → Bool) : List Char → List (List Char)
  | [] => [[]]
  | c :: rest =>
    if separator c then [] :: pieces separator rest
    else
      match pieces separator rest with
      | [] => [[c]]
      | piece :: more => (c :: piece) :: more

/-- The words of a text: the stretches between blanks that are not empty. -/
def words (cs : List Char) : List (List Char) := (pieces isBlank cs).filter (!·.isEmpty)

/-- The lines of a text, each without what ends it. A boundary at the very end begins no further
line. The flag says that a carriage return stands right before. -/
def linesAfter (afterReturn : Bool) : List Char → List (List Char)
  | [] => []
  | c :: rest =>
    if afterReturn && c = '\n' then linesAfter false rest
    else if isLineBoundary c then [] :: linesAfter (c = '\r') rest
    else
      match linesAfter false rest with
      | line :: more => (c :: line) :: more
      | [] => [[c]]

/-- The lines of a text. -/
def lines (cs : List Char) : List (List Char) := linesAfter false cs

end ChangeSplit.Text
