import ChangeSplit.Java.Token
import ChangeSplit.Java.Tree

/-! Grammars as data. A pattern says how a stretch of tokens is read and which trees come of it,
and a grammar gives every rule its pattern. Choices are ordered: the first alternative that reads
is taken. A left-recursive form is read as a base that grows: each step wraps what was read so
far into a larger node. -/

namespace ChangeSplit.Java

/-- A pattern over the rules `ρ`. -/
inductive Pattern (ρ : Type) where
  /-- Read nothing. -/
  | empty
  /-- A keyword or mark with the given text. -/
  | mark (text : String)
  /-- Marks that stand side by side with nothing between them, read as one token. -/
  | joined (texts : List String)
  /-- A word that is none of the reserved ones, as a leaf of the given kind. -/
  | name (kind : Kind) (reserved : List String)
  /-- A literal of whatever kind. -/
  | literal
  /-- Whatever the rule stands for. -/
  | rule (r : ρ)
  /-- One pattern and then another. -/
  | seq (first second : Pattern ρ)
  /-- The first pattern or, where that does not read, the second. -/
  | alt (first second : Pattern ρ)
  /-- The pattern as often as it reads. -/
  | many (p : Pattern ρ)
  /-- A node over what the pattern reads. -/
  | node (kind : Kind) (p : Pattern ρ)
  /-- What the pattern reads, in the given role. -/
  | role (r : Role) (p : Pattern ρ)
  /-- What the pattern reads, provided that its trees are of the given kinds. -/
  | only (kinds : List Kind) (p : Pattern ρ)
  /-- Read nothing, provided that the pattern would read. -/
  | ahead (p : Pattern ρ)
  /-- Read nothing, provided that the pattern would not read. -/
  | notAhead (p : Pattern ρ)
  /-- The trees that are pending: those of the base that is being wrapped. -/
  | pending
  /-- A base, whose trees are then pending for the pattern that gives the answer. -/
  | wrap (base whole : Pattern ρ)
  /-- Wrap the pending trees as often as the step reads. -/
  | grow (step : Pattern ρ)

/-- A pattern for every rule. -/
abbrev Grammar (ρ : Type) := ρ → Pattern ρ

namespace Pattern

variable {ρ : Type}

instance : Coe String (Pattern ρ) := ⟨mark⟩

/-- The patterns one after another. -/
def all (ps : List (Pattern ρ)) : Pattern ρ := ps.foldr seq empty

/-- The first of the patterns that reads. Nothing reads as a choice among none. -/
def any : List (Pattern ρ) → Pattern ρ
  | [] => notAhead empty
  | [p] => p
  | p :: ps => alt p (any ps)

/-- The pattern or nothing. -/
def optional (p : Pattern ρ) : Pattern ρ := alt p empty

/-- The pattern at least once. -/
def many1 (p : Pattern ρ) : Pattern ρ := seq p (many p)

/-- The pattern at least once, with the separator between. -/
def sepBy1 (separator p : Pattern ρ) : Pattern ρ := seq p (many (seq separator p))

/-- The pattern as often as wanted, with the separator between. -/
def sepBy (separator p : Pattern ρ) : Pattern ρ := optional (sepBy1 separator p)

/-- A leaf of a kind that is written as one keyword or mark. -/
def leaf (kind : Kind) (text : String) : Pattern ρ := node kind (mark text)

/-- The leaf for a token, with the pieces of the token below it. -/
def leafOf (kind : Kind) (t : Token) : Tree :=
  .node none kind t.start t.stop
    (t.parts.map fun part => .node none part.kind part.start part.stop [])

/-- The last byte of marks that follow each other without a gap from the byte `from_` on, and the
tokens after them. -/
def join? : List String → Nat → List Token → Option (Nat × List Token)
  | [], stop, rest => some (stop, rest)
  | text :: texts, stop, t :: rest =>
    if t.text = text && t.lexeme = .mark && t.start = stop then join? texts t.stop rest else none
  | _ :: _, _, [] => none

/-- What a pattern reads at the front of the tokens: the trees that come of it and the tokens
that are left. The fuel bounds the depth of the reading, and nothing is read once it is spent.
The trees in `left` are the pending ones. -/
def read (g : Grammar ρ) : Nat → Pattern ρ → List Tree → List Token →
    Option (List Tree × List Token)
  | 0, _, _, _ => none
  | fuel + 1, p, left, tokens =>
    match p with
    | empty => some ([], tokens)
    | mark text =>
      match tokens with
      | t :: rest =>
        if t.text = text && (t.lexeme = .mark || t.lexeme = .word) then
          some ([.token t.text t.start t.stop], rest)
        else none
      | [] => none
    | joined texts =>
      match tokens with
      | t :: _ =>
        (join? texts t.start tokens).map fun (stop, rest) =>
          ([.token (String.join texts) t.start stop], rest)
      | [] => none
    | name kind reserved =>
      match tokens with
      | t :: rest =>
        if t.lexeme = .word && !reserved.contains t.text then some ([leafOf kind t], rest) else none
      | [] => none
    | literal =>
      match tokens with
      | t :: rest =>
        match t.lexeme with
        | .literal kind => some ([leafOf kind t], rest)
        | _ => none
      | [] => none
    | rule r => read g fuel (g r) left tokens
    | seq first second =>
      match read g fuel first left tokens with
      | some (ts, rest) =>
        match read g fuel second left rest with
        | some (us, rest) => some (ts ++ us, rest)
        | none => none
      | none => none
    | alt first second =>
      match read g fuel first left tokens with
      | some reading => some reading
      | none => read g fuel second left tokens
    | many p =>
      match read g fuel p left tokens with
      | some (ts, rest) =>
        match read g fuel (many p) left rest with
        | some (us, rest) => some (ts ++ us, rest)
        | none => none
      | none => some ([], tokens)
    | node kind p =>
      match read g fuel p left tokens with
      | some (ts, rest) => (Tree.over? kind ts).map fun t => ([t], rest)
      | none => none
    | role r p =>
      match read g fuel p left tokens with
      | some (ts, rest) => some (ts.map (Tree.withRole r), rest)
      | none => none
    | only kinds p =>
      match read g fuel p left tokens with
      | some (ts, rest) => if ts.all (·.kindIs kinds.contains) then some (ts, rest) else none
      | none => none
    | ahead p => if (read g fuel p left tokens).isSome then some ([], tokens) else none
    | notAhead p => if (read g fuel p left tokens).isSome then none else some ([], tokens)
    | pending => some (left, tokens)
    | wrap base whole =>
      match read g fuel base left tokens with
      | some (ts, rest) => read g fuel whole ts rest
      | none => none
    | grow step =>
      match read g fuel step left tokens with
      | some (ts, rest) => read g fuel (grow step) ts rest
      | none => some (left, tokens)

end Pattern

end ChangeSplit.Java
