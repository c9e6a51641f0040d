import ChangeSplit.Java.Kind
import ChangeSplit.Text.Category

/-! The tokens of a Java source. At every place the longest token wins, and among tokens of one
length the one whose rule stands first. Only a closing angle bracket is always cut alone, since
several of them may close nested type arguments; whether neighbours form one operator is decided
where an operator is wanted. Blanks are skipped, and comments are kept as tokens of their own. -/

namespace ChangeSplit.Java

/-- What sort of token a stretch of source is. -/
inductive Lexeme where
  /-- A keyword or an identifier. Which of the two is decided where it is read. -/
  | word
  /-- Punctuation or an operator. -/
  | mark
  | literal (kind : Kind)
  | comment (kind : Kind)
deriving DecidableEq, Repr

/-- A piece of a token that has a kind of its own, such as an escape in a string. -/
structure Part where
  kind : Kind
  start : Nat
  stop : Nat
deriving DecidableEq, Repr

/-- A token with its text and the bytes it spans. -/
structure Token where
  lexeme : Lexeme
  text : String
  start : Nat
  stop : Nat
  parts : List Part := []
deriving DecidableEq, Repr

namespace Token

open Category

/-- The number of bytes that some characters take. -/
def byteLength (cs : List Char) : Nat := cs.foldl (fun n c => n + c.utf8Size) 0

/-- How many characters at the front pass a test. -/
def runLength (test : Char → Bool) (cs : List Char) : Nat := (cs.takeWhile test).length

/-- Digits of which each later run stands after separators. The answer is how many characters
they take, or zero where no digit begins. -/
def separatedRun (digit : Char → Bool) (longSeparators : Bool) (cs : List Char) : Nat :=
  let rec go : Nat → List Char → Nat
    | 0, _ => 0
    | fuel + 1, rest =>
      let run := runLength digit rest
      if run = 0 then 0
      else
        let after := rest.drop run
        let low := runLength (· = '_') after
        let gap := if longSeparators then low else min 1 low
        if gap = 0 then run
        else
          let more := go fuel (after.drop gap)
          if more = 0 then run else run + gap + more
  go (cs.length + 1) cs

/-- One more character if the next passes a test. -/
def optionalMark (test : Char → Bool) (cs : List Char) : Nat :=
  match cs with
  | c :: _ => if test c then 1 else 0
  | [] => 0

/-- Digits in tens of a fraction or an exponent. -/
def decimalRun (cs : List Char) : Nat := separatedRun isAsciiDigit false cs

def isHexDigit (c : Char) : Bool := isAsciiDigit c || ('a' ≤ c && c ≤ 'f') || ('A' ≤ c && c ≤ 'F')

def isOctalDigit (c : Char) : Bool := '0' ≤ c && c ≤ '7'

def isBinaryDigit (c : Char) : Bool := c = '0' || c = '1'

def isLongSuffix (c : Char) : Bool := c = 'l' || c = 'L'

def isFloatSuffix (c : Char) : Bool := c = 'f' || c = 'F' || c = 'd' || c = 'D'

/-- The length of a whole number in tens: zero alone, or digits that do not begin with zero. -/
def decimalInteger (cs : List Char) : Nat :=
  match cs with
  | '0' :: rest => 1 + optionalMark isLongSuffix rest
  | _ =>
    let run := separatedRun isAsciiDigit true cs
    if run = 0 then 0 else run + optionalMark isLongSuffix (cs.drop run)

/-- The length of a whole number that begins with a zero and one of the given letters. -/
def radixInteger (letters : List Char) (digit : Char → Bool) (cs : List Char) : Nat :=
  match cs with
  | '0' :: letter :: rest =>
    let run := separatedRun digit false rest
    if letter ∈ letters && run > 0 then 2 + run + optionalMark isLongSuffix (rest.drop run) else 0
  | _ => 0

/-- The length of a whole number in eights, which begins with a zero and perhaps a letter. -/
def octalInteger (cs : List Char) : Nat :=
  match cs with
  | '0' :: rest =>
    let run := separatedRun isOctalDigit false rest
    if run > 0 then 1 + run + optionalMark isLongSuffix (rest.drop run)
    else radixInteger ['o', 'O'] isOctalDigit cs
  | _ => 0

/-- The length of an exponent: one of the given letters, a sign or none, and digits. -/
def exponent (letters : List Char) (cs : List Char) : Nat :=
  match cs with
  | letter :: rest =>
    if letter ∈ letters then
      let sign := optionalMark (fun c => c = '+' || c = '-') rest
      let run := decimalRun (rest.drop sign)
      if run = 0 then 0 else 1 + sign + run
    else 0
  | [] => 0

/-- The length of a number in tens that has a point, an exponent or a suffix. -/
def decimalFloat (cs : List Char) : Nat :=
  let whole := decimalRun cs
  let tail (n : Nat) : Nat :=
    let e := exponent ['e', 'E'] (cs.drop n)
    n + e + optionalMark isFloatSuffix (cs.drop (n + e))
  match cs.drop whole with
  | '.' :: rest =>
    let fraction := decimalRun rest
    if whole = 0 && fraction = 0 then 0 else tail (whole + 1 + fraction)
  | _ => if whole = 0 || tail whole = whole then 0 else tail whole

/-- The length of a number in sixteens with a point or an exponent to the base two. -/
def hexFloat (cs : List Char) : Nat :=
  match cs with
  | '0' :: letter :: rest =>
    if letter = 'x' || letter = 'X' then
      let whole := separatedRun isHexDigit false rest
      let digits := match rest.drop whole with
        | '.' :: more => whole + 1 + separatedRun isHexDigit false more
        | _ => whole
      if whole = 0 && digits ≤ 1 then 0
      else
        let e := exponent ['p', 'P'] (rest.drop digits)
        let suffix := if e = 0 then 0 else optionalMark isFloatSuffix (rest.drop (digits + e))
        2 + digits + e + suffix
    else 0
  | _ => 0

/-- The length of an escape: a backslash and one character, up to three octal digits, or the
number of a character. -/
def escapeLength (cs : List Char) : Nat :=
  match cs with
  | '\\' :: 'x' :: rest => if runLength isHexDigit (rest.take 2) = 2 then 4 else 0
  | '\\' :: 'u' :: '{' :: rest =>
    let run := runLength isHexDigit rest
    if run > 0 && (rest.drop run).head? = some '}' then 4 + run else 0
  | '\\' :: 'u' :: rest => if runLength isHexDigit (rest.take 4) = 4 then 6 else 0
  | '\\' :: c :: rest =>
    if isOctalDigit c then 2 + runLength isOctalDigit (rest.take 2) else 2
  | _ => 0

/-- Whether a character stands for itself inside a string. -/
def isPlain (c : Char) : Bool := c ≠ '"' && c ≠ '\\'

/-- The pieces of a string after its opening mark, and how many characters it takes up to and
with its closing mark. -/
def stringTail : Nat → Nat → List Char → Option (List Part × Nat)
  | 0, _, _ => none
  | fuel + 1, at_, cs =>
    match cs with
    | [] => none
    | '"' :: _ => some ([], 1)
    | '\\' :: _ =>
      let n := escapeLength cs
      if n = 0 then none
      else
        let stop := at_ + byteLength (cs.take n)
        (stringTail fuel stop (cs.drop n)).map fun (parts, m) =>
          (⟨.escapeSequence, at_, stop⟩ :: parts, n + m)
    | _ =>
      let n := runLength isPlain cs
      let stop := at_ + byteLength (cs.take n)
      (stringTail fuel stop (cs.drop n)).map fun (parts, m) =>
        (⟨.stringFragment, at_, stop⟩ :: parts, n + m)

/-- How far a fragment of a text block goes that begins with a quotation mark. Quotation marks
after a backslash belong to it. -/
def quotedRun : Nat → List Char → Nat
  | 0, _ => 0
  | fuel + 1, cs =>
    match cs with
    | '\\' :: '"' :: rest => 2 + quotedRun fuel rest
    | '\\' :: _ => 0
    | '"' :: _ => 0
    | [] => 0
    | _ :: rest => 1 + quotedRun fuel rest

/-- The characters whose escape is a piece of its own in a text block. A backslash before another
character is one only where it takes more than that character. -/
def blockEscapes : List Char := ['b', 'f', 'n', 'r', 't', 's', '\'', '"', '\\']

/-- The pieces of a text block after its opening marks, and how many characters it takes up to
and with its closing marks. -/
def blockTail : Nat → Nat → List Char → Option (List Part × Nat)
  | 0, _, _ => none
  | fuel + 1, at_, cs =>
    let piece (kind : Option Kind) (n : Nat) : Option (List Part × Nat) :=
      let stop := at_ + byteLength (cs.take n)
      (blockTail fuel stop (cs.drop n)).map fun (parts, m) =>
        ((kind.map fun k => ⟨k, at_, stop⟩).toList ++ parts, n + m)
    match cs with
    | [] => none
    | '"' :: '"' :: '"' :: _ => some ([], 3)
    | '"' :: rest => piece (some .multilineStringFragment) (1 + quotedRun rest.length rest)
    | ['\\'] => none
    | '\\' :: c :: _ =>
      let n := escapeLength cs
      if n > 2 || c ∈ blockEscapes then piece (some .escapeSequence) n else piece none 2
    | _ => piece (some .multilineStringFragment) (runLength isPlain cs)

/-- The length of a character in single quotation marks. -/
def characterLength (cs : List Char) : Nat :=
  let rec go : Nat → List Char → Nat
    | 0, _ => 0
    | fuel + 1, rest =>
      match rest with
      | '\'' :: _ => 1
      | '\\' :: _ :: more => let n := go fuel more; if n = 0 then 0 else 2 + n
      | '\\' :: [] => 0
      | '\n' :: _ => 0
      | [] => 0
      | _ :: more => let n := go fuel more; if n = 0 then 0 else 1 + n
  match cs with
  | '\'' :: rest =>
    let n := go (rest.length + 1) rest
    if n ≤ 1 then 0 else 1 + n
  | _ => 0

/-- How many characters a comment takes after its opening marks, if it is closed. -/
def blockCommentTail : List Char → Option Nat
  | '*' :: '/' :: _ => some 2
  | _ :: rest => (blockCommentTail rest).map (· + 1)
  | [] => none

/-- The marks, longer ones before their beginnings. -/
def marks : List String := [
  "@interface", "non-sealed", "<<=", "...", "->", "::", "++", "--", "&&", "||", "==", "!=", "<=",
  "<<", "+=", "-=", "*=", "/=", "&=", "|=", "^=", "%=", "(", ")", "\x7b", "\x7d", "[", "]", ";",
  ",", ".", "@", "=", "<", ">", "!", "~", "?", ":", "+", "-", "*", "/", "&", "|", "^", "%"]

/-- The mark at the front. A mark that ends in a letter ends a word there. -/
def mark? (cs : List Char) : Option String :=
  marks.find? fun m =>
    match m.toList.isPrefixOf? cs with
    | some rest => !(m.toList.getLast?.any isAsciiLetter && rest.head?.any isIdentifierContinue)
    | none => false

/-- The rules for numbers, in order of rank. -/
def numberRules : List (Kind × (List Char → Nat)) := [
  (.decimalIntegerLiteral, decimalInteger),
  (.hexIntegerLiteral, radixInteger ['x', 'X'] isHexDigit),
  (.octalIntegerLiteral, octalInteger),
  (.binaryIntegerLiteral, radixInteger ['b', 'B'] isBinaryDigit),
  (.decimalFloatingPointLiteral, decimalFloat),
  (.hexFloatingPointLiteral, hexFloat)]

/-- The longest number at the front, by the first rule that gives its length. -/
def number? (cs : List Char) : Option (Kind × Nat) :=
  numberRules.foldl (fun best (kind, rule) =>
    let n := rule cs
    if n > best.elim 0 Prod.snd then some (kind, n) else best) none

/-- The token that begins at the front of the characters, `start` bytes into the source. -/
def scan? (start : Nat) (cs : List Char) : Option (Lexeme × Nat × List Part) :=
  match cs with
  | [] => none
  | '/' :: '/' :: rest => some (.comment .lineComment, 2 + runLength (· ≠ '\n') rest, [])
  | '/' :: '*' :: rest => (blockCommentTail rest).map fun n => (.comment .blockComment, 2 + n, [])
  | '"' :: '"' :: '"' :: rest =>
    (blockTail (rest.length + 1) (start + 3) rest).map fun (parts, n) =>
      (.literal .stringLiteral, 3 + n, parts)
  | '"' :: rest =>
    (stringTail (rest.length + 1) (start + 1) rest).map fun (parts, n) =>
      (.literal .stringLiteral, 1 + n, parts)
  | '\'' :: _ =>
    let n := characterLength cs
    if n = 0 then none else some (.literal .characterLiteral, n, [])
  | c :: rest =>
    match number? cs with
    | some (kind, n) => some (.literal kind, n, [])
    | none =>
      match mark? cs with
      | some m => some (.mark, m.length, [])
      | none =>
        if isIdentifierStart c then some (.word, 1 + runLength isIdentifierContinue rest, [])
        else none

/-- The blanks between tokens, all of them ASCII. -/
def isGap (c : Char) : Bool :=
  c = ' ' || c = '\t' || c = '\n' || c = '\r' || c = '\x0B' || c = '\x0C'

/-- Cut the rest of a source into tokens, from the byte `start` on. Each step of the fuel takes a
blank or a token. -/
def cut : Nat → Nat → List Char → Option (List Token)
  | _, _, [] => some []
  | 0, _, _ => none
  | fuel + 1, start, c :: rest =>
    if isGap c then cut fuel (start + 1) rest
    else
      match scan? start (c :: rest) with
      | none => none
      | some (lexeme, n, parts) =>
        let text := (c :: rest).take n
        let stop := start + byteLength text
        (cut fuel stop ((c :: rest).drop n)).map
          (⟨lexeme, String.ofList text, start, stop, parts⟩ :: ·)

/-- The tokens of a source, comments among them, or nothing if some place begins no token. A byte
order mark in front takes up its bytes and is no token. -/
def tokens? (source : List Char) : Option (List Token) :=
  match source with
  | '\uFEFF' :: rest => cut (rest.length + 1) 3 rest
  | _ => cut (source.length + 1) 0 source

/-- Whether a token is a comment. -/
def isComment (t : Token) : Bool :=
  match t.lexeme with
  | .comment _ => true
  | _ => false

end Token

end ChangeSplit.Java
