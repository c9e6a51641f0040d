import ChangeSplit.Java.Token
import Mathlib.Algebra.Ring.Nat

/-! How a source is cut into tokens, as relations. The steps that the inside of a string is taken
in, the rules for the token at the front of some characters, and the cuts of all that is left each
hold of what the scanner gives, so that a fact about tokens takes one look at every rule. -/

namespace ChangeSplit.Java

/-- The kinds of literals that are single tokens. -/
def Kind.literals : List Kind := [
  .decimalIntegerLiteral, .hexIntegerLiteral, .octalIntegerLiteral, .binaryIntegerLiteral,
  .decimalFloatingPointLiteral, .hexFloatingPointLiteral, .characterLiteral, .stringLiteral]

/-- The kinds of pieces of a string. -/
def Kind.stringPieces : List Kind := [.escapeSequence, .stringFragment, .multilineStringFragment]

namespace Token

open Category

variable {at_ start n : Nat} {cs : List Char} {lexeme : Lexeme} {parts : List Part}

theorem byteLength_eq_sum (cs : List Char) : byteLength cs = (cs.map Char.utf8Size).sum := by
  rw [byteLength, List.sum_eq_foldl, List.foldl_map]

theorem byteLength_append (cs ds : List Char) :
    byteLength (cs ++ ds) = byteLength cs + byteLength ds := by
  simp [byteLength_eq_sum]

theorem pos_runLength {c : Char} {rest : List Char} {test : Char → Bool} (h : test c = true) :
    0 < runLength test (c :: rest) := by
  simp [runLength, h]

/-- The inside of a string from the byte `at_` on, up to and with the marks that close it. It is
taken in steps of some characters each, and a step may be a piece. A piece whose first character
stands for itself takes all at the front that do. -/
inductive Steps : Nat → List Char → List Part → Nat → Prop
  | close {at_ n : Nat} {rest : List Char} (hn : 0 < n) : Steps at_ ('"' :: rest) [] n
  | step {at_ k n : Nat} {c : Char} {rest : List Char} {parts : List Part} (own : Option Kind)
      (hk : 0 < k) (hKind : ∀ kind ∈ own, kind ∈ Kind.stringPieces)
      (hPlain : own.isSome = true → isPlain c = true → k = runLength isPlain (c :: rest))
      (hRest : Steps (at_ + byteLength ((c :: rest).take k)) ((c :: rest).drop k) parts n) :
      Steps at_ (c :: rest)
        ((own.map fun kind => ⟨kind, at_, at_ + byteLength ((c :: rest).take k)⟩).toList ++ parts)
        (k + n)

theorem Steps.pos (h : Steps at_ cs parts n) : 0 < n := by
  cases h with
  | close hn => exact hn
  | step _ hk => exact Nat.add_pos_left hk _

theorem Steps.ne_nil (h : Steps at_ cs parts n) : cs ≠ [] := by
  cases h <;> exact List.cons_ne_nil _ _

theorem Steps.kind_mem (h : Steps at_ cs parts n) :
    ∀ part ∈ parts, part.kind ∈ Kind.stringPieces := by
  induction h with
  | close => exact List.forall_mem_nil _
  | step own _ hKind _ _ ih =>
    refine List.forall_mem_append.2 ⟨fun part hPart => ?_, ih⟩
    obtain ⟨kind, hOwn, rfl⟩ := Option.map_eq_some_iff.1 (Option.mem_toList.1 hPart)
    exact hKind kind hOwn

theorem isPlain_of_ne {c : Char} (hQuote : c ≠ '"') (hEscape : c ≠ '\\') : isPlain c = true := by
  simp [isPlain, hQuote, hEscape]

theorem steps_of_stringTail {fuel : Nat} (h : stringTail fuel at_ cs = some (parts, n)) :
    Steps at_ cs parts n := by
  induction fuel generalizing at_ n cs parts with
  | zero => cases h
  | succ fuel ih =>
    unfold stringTail at h
    split at h
    case h_1 => cases h
    case h_2 =>
      cases h
      exact .close Nat.one_pos
    case h_3 =>
      dsimp only at h
      split at h
      case isTrue => cases h
      case isFalse hSome =>
        obtain ⟨⟨later, m⟩, hLater, hSame⟩ := Option.map_eq_some_iff.1 h
        cases hSame
        exact .step (some .escapeSequence) (Nat.pos_of_ne_zero hSome) (by simp [Kind.stringPieces])
          (fun _ hPlain => absurd hPlain (by decide)) (ih hLater)
    case h_4 hNil hQuote hEscape =>
      obtain ⟨⟨later, m⟩, hLater, hSame⟩ := Option.map_eq_some_iff.1 h
      cases hSame
      obtain ⟨c, rest, rfl⟩ := List.exists_cons_of_ne_nil hNil
      have hPlain : isPlain c = true :=
        isPlain_of_ne (fun hc => hQuote rest (by rw [hc])) (fun hc => hEscape rest (by rw [hc]))
      exact .step (some .stringFragment) (pos_runLength hPlain) (by simp [Kind.stringPieces])
        (fun _ _ => rfl) (ih hLater)

/-- An escape that is a piece of its own in a text block takes some characters. -/
theorem pos_escapeLength {c : Char} {rest : List Char}
    (h : (escapeLength ('\\' :: c :: rest) > 2 || decide (c ∈ blockEscapes)) = true) :
    0 < escapeLength ('\\' :: c :: rest) := by
  rw [Bool.or_eq_true, decide_eq_true_eq, decide_eq_true_eq] at h
  rcases h with hLong | hMem
  · omega
  · simp only [blockEscapes, List.mem_cons, List.not_mem_nil, or_false] at hMem
    rcases hMem with rfl | rfl | rfl | rfl | rfl | rfl | rfl | rfl | rfl <;>
      exact Nat.succ_pos 1

theorem steps_of_blockTail {fuel : Nat} (h : blockTail fuel at_ cs = some (parts, n)) :
    Steps at_ cs parts n := by
  induction fuel generalizing at_ n cs parts with
  | zero => cases h
  | succ fuel ih =>
    unfold blockTail at h
    extract_lets piece at h
    have hStep {own : Option Kind} {k : Nat} {c : Char} {rest : List Char} (hCons : cs = c :: rest)
        (hPiece : piece own k = some (parts, n)) (hk : 0 < k)
        (hKind : ∀ kind ∈ own, kind ∈ Kind.stringPieces)
        (hPlain : own.isSome = true → isPlain c = true → k = runLength isPlain (c :: rest)) :
        Steps at_ cs parts n := by
      obtain ⟨⟨later, m⟩, hLater, hSame⟩ := Option.map_eq_some_iff.1 hPiece
      cases hSame
      subst hCons
      exact .step own hk hKind hPlain (ih hLater)
    split at h
    case h_1 => cases h
    case h_2 =>
      cases h
      exact .close (Nat.succ_pos 2)
    case h_3 =>
      exact hStep rfl h (by omega) (by simp [Kind.stringPieces])
        fun _ hPlain => absurd hPlain (by decide)
    case h_4 => cases h
    case h_5 =>
      split at h
      case isTrue hEscape =>
        exact hStep rfl h (pos_escapeLength hEscape) (by simp [Kind.stringPieces])
          fun _ hPlain => absurd hPlain (by decide)
      case isFalse => exact hStep rfl h Nat.two_pos (fun _ hNone => nomatch hNone) nofun
    case h_6 _ hNil _ hQuote hLast hEscape =>
      obtain ⟨c, rest, rfl⟩ := List.exists_cons_of_ne_nil hNil
      have hBackslash : c ≠ '\\' := by
        rintro rfl
        cases rest with
        | nil => exact hLast rfl
        | cons d more => exact hEscape d more rfl
      have hPlain : isPlain c = true :=
        isPlain_of_ne (fun hc => hQuote rest (by rw [hc])) hBackslash
      exact hStep rfl h (pos_runLength hPlain) (by simp [Kind.stringPieces]) fun _ _ => rfl

/-- A number is as long as the rule for its kind says, and has a character at least. -/
theorem exists_rule_of_number? {kind : Kind} (h : number? cs = some (kind, n)) :
    0 < n ∧ ∃ rule, (kind, rule) ∈ numberRules ∧ rule cs = n := by
  have hAll : ∀ found, number? cs = some found →
      0 < found.2 ∧ ∃ rule, (found.1, rule) ∈ numberRules ∧ rule cs = found.2 := by
    unfold number?
    refine List.foldlRecOn (motive := fun best : Option (Kind × Nat) => ∀ found,
      best = some found → 0 < found.2 ∧ ∃ rule, (found.1, rule) ∈ numberRules ∧
        rule cs = found.2) numberRules _ nofun ?_
    intro best hBest rule hRule found hFound
    dsimp only at hFound
    split at hFound
    case isTrue hLonger =>
      cases hFound
      exact ⟨Nat.lt_of_le_of_lt (Nat.zero_le _) hLonger, rule.2, hRule, rfl⟩
    case isFalse => exact hBest found hFound
  exact hAll _ h

/-- The token at the front of some characters, from the byte `start` on, by the rule for it,
whatever other rules are tried before. -/
inductive Scans (start : Nat) : List Char → Lexeme → Nat → List Part → Prop
  | lineComment {rest : List Char} : Scans start ('/' :: '/' :: rest) (.comment .lineComment)
      (2 + runLength (· ≠ '\n') rest) []
  | blockComment {rest : List Char} {n : Nat} (hTail : blockCommentTail rest = some n) :
      Scans start ('/' :: '*' :: rest) (.comment .blockComment) (2 + n) []
  | string {front rest : List Char} {parts : List Part} {n : Nat}
      (hFront : front = ['"'] ∨ front = ['"', '"', '"'])
      (hSteps : Steps (start + byteLength front) rest parts n) :
      Scans start (front ++ rest) (.literal .stringLiteral) (front.length + n) parts
  | character {rest : List Char} (hLength : characterLength ('\'' :: rest) ≠ 0) :
      Scans start ('\'' :: rest) (.literal .characterLiteral) (characterLength ('\'' :: rest)) []
  | number {cs : List Char} {kind : Kind} {n : Nat} (hNumber : number? cs = some (kind, n)) :
      Scans start cs (.literal kind) n []
  | mark {cs : List Char} {mark : String} (hMark : mark? cs = some mark) :
      Scans start cs .mark mark.length []
  | word {c : Char} {rest : List Char} (hStart : isIdentifierStart c = true) :
      Scans start (c :: rest) .word (1 + runLength isIdentifierContinue rest) []

theorem scans_of_scan? (h : scan? start cs = some (lexeme, n, parts)) :
    Scans start cs lexeme n parts := by
  unfold scan? at h
  split at h
  case h_1 => cases h
  case h_2 =>
    cases h
    exact .lineComment
  case h_3 =>
    obtain ⟨m, hTail, hSame⟩ := Option.map_eq_some_iff.1 h
    cases hSame
    exact .blockComment hTail
  case h_4 rest =>
    obtain ⟨⟨pieces, m⟩, hTail, hSame⟩ := Option.map_eq_some_iff.1 h
    cases hSame
    exact @Scans.string start ['"', '"', '"'] rest _ _ (.inr rfl) (steps_of_blockTail hTail)
  case h_5 rest _ =>
    obtain ⟨⟨pieces, m⟩, hTail, hSame⟩ := Option.map_eq_some_iff.1 h
    cases hSame
    exact @Scans.string start ['"'] rest _ _ (.inl rfl) (steps_of_stringTail hTail)
  case h_6 =>
    dsimp only at h
    split at h
    case isTrue => cases h
    case isFalse hLength =>
      cases h
      exact .character hLength
  case h_7 =>
    split at h
    case h_1 hNumber =>
      cases h
      exact .number hNumber
    case h_2 =>
      split at h
      case h_1 hMark =>
        cases h
        exact .mark hMark
      case h_2 =>
        split at h
        case isFalse => cases h
        case isTrue hStart =>
          cases h
          exact .word hStart

/-- How characters are cut into tokens, from a byte on. -/
inductive Cuts : Nat → List Char → List Token → Prop
  | done {start : Nat} : Cuts start [] []
  | gap {start : Nat} {c : Char} {rest : List Char} {ts : List Token} (hGap : isGap c = true)
      (hRest : Cuts (start + 1) rest ts) : Cuts start (c :: rest) ts
  | token {start n : Nat} {c : Char} {rest : List Char} {lexeme : Lexeme} {parts : List Part}
      {ts : List Token} (hGap : isGap c = false)
      (hScan : scan? start (c :: rest) = some (lexeme, n, parts))
      (hRest : Cuts (start + byteLength ((c :: rest).take n)) ((c :: rest).drop n) ts) :
      Cuts start (c :: rest) (⟨lexeme, String.ofList ((c :: rest).take n), start,
        start + byteLength ((c :: rest).take n), parts⟩ :: ts)

theorem cuts_of_cut {fuel : Nat} {ts : List Token} (h : cut fuel start cs = some ts) :
    Cuts start cs ts := by
  induction fuel generalizing start cs ts with
  | zero =>
    cases cs with
    | nil =>
      cases h
      exact .done
    | cons c rest => cases h
  | succ fuel ih =>
    cases cs with
    | nil =>
      cases h
      exact .done
    | cons c rest =>
      rw [cut] at h
      split at h
      case isTrue hGap => exact .gap hGap (ih h)
      case isFalse hGap =>
        split at h
        case h_1 => cases h
        case h_2 lexeme n parts hScan =>
          obtain ⟨later, hLater, rfl⟩ := Option.map_eq_some_iff.1 h
          exact .token (by simpa using hGap) hScan (ih hLater)

/-- The text of a source that is cut into tokens: all of it but a byte order mark. -/
theorem exists_cuts_of_tokens? {source : List Char} {ts : List Token}
    (h : tokens? source = some ts) :
    ∃ front rest, source = front ++ rest ∧ (front = [] ∨ front = ['\uFEFF']) ∧
      Cuts (byteLength front) rest ts := by
  unfold tokens? at h
  split at h
  case h_1 rest => exact ⟨['\uFEFF'], rest, rfl, .inr rfl, cuts_of_cut h⟩
  case h_2 => exact ⟨[], source, rfl, .inl rfl, cuts_of_cut h⟩

end Token

end ChangeSplit.Java
