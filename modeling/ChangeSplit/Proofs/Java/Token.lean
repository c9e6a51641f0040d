import ChangeSplit.Proofs.Java.Scan

/-! Where the tokens of a source stand. Each is scanned at its own place, and the bytes that it
spans are those of its text. -/

namespace ChangeSplit.Java

/-- What every token of a source has: comments and literals are of the kinds of such, and only
strings have pieces. -/
structure Lexeme.Regular (lexeme : Lexeme) (parts : List Part) : Prop where
  comment : ∀ kind, lexeme = .comment kind → kind.isComment = true
  literal : ∀ kind, lexeme = .literal kind → kind ∈ Kind.literals
  piece : ∀ piece ∈ parts, piece.kind ∈ Kind.stringPieces
  word : lexeme = .word → parts = []

theorem Lexeme.Regular.ofComment {kind : Kind} (h : kind.isComment = true) :
    (Lexeme.comment kind).Regular [] := by
  refine ⟨fun other hSame => ?_, fun _ hSame => ?_, List.forall_mem_nil _, fun _ => rfl⟩
  · cases hSame
    exact h
  · cases hSame

theorem Lexeme.Regular.ofPlain {lexeme : Lexeme} (h : lexeme = .word ∨ lexeme = .mark) :
    lexeme.Regular [] := by
  refine ⟨fun _ hSame => ?_, fun _ hSame => ?_, List.forall_mem_nil _, fun _ => rfl⟩ <;>
    rcases h with rfl | rfl <;> cases hSame

theorem Lexeme.Regular.ofLiteral {kind : Kind} {parts : List Part} (h : kind ∈ Kind.literals)
    (hPieces : ∀ piece ∈ parts, piece.kind ∈ Kind.stringPieces) :
    (Lexeme.literal kind).Regular parts := by
  refine ⟨fun _ hSame => ?_, fun other hSame => ?_, hPieces, fun hWord => ?_⟩
  · cases hSame
  · cases hSame
    exact h
  · cases hWord

namespace Token

open Category

theorem byteLength_of_isGap {c : Char} (h : isGap c = true) : byteLength [c] = 1 := by
  simp only [isGap, Bool.or_eq_true, decide_eq_true_eq] at h
  rcases h with ((((rfl | rfl) | rfl) | rfl) | rfl) | rfl <;> rfl

/-- A token of some characters that begin at the byte `start`: it was scanned at the front of those
that are left where it begins. -/
def ScannedIn (start : Nat) (cs : List Char) (t : Token) : Prop :=
  ∃ before rest n, cs = before ++ rest ∧ t.start = start + byteLength before ∧
    scan? t.start rest = some (t.lexeme, n, t.parts) ∧ t.text = String.ofList (rest.take n) ∧
    t.stop = t.start + byteLength (rest.take n)

theorem ScannedIn.after {start : Nat} (front : List Char) {cs : List Char} {t : Token}
    (h : ScannedIn (start + byteLength front) cs t) : ScannedIn start (front ++ cs) t := by
  obtain ⟨before, rest, n, rfl, hStart, hScan⟩ := h
  refine ⟨front ++ before, rest, n, (List.append_assoc front before rest).symm, ?_, hScan⟩
  rw [hStart, byteLength_append, Nat.add_assoc]

theorem Cuts.scannedIn {start : Nat} {cs : List Char} {ts : List Token} (h : Cuts start cs ts) :
    ∀ t ∈ ts, ScannedIn start cs t := by
  induction h with
  | done => exact List.forall_mem_nil _
  | @gap start c rest ts hGap _ ih =>
      rw [← byteLength_of_isGap hGap] at ih
      exact fun t ht => .after [c] (ih t ht)
  | @token start n c rest lexeme parts ts _ hScan _ ih =>
      refine List.forall_mem_cons.2 ⟨⟨[], c :: rest, n, rfl, rfl, hScan, rfl, rfl⟩, fun t ht => ?_⟩
      rw [← List.take_append_drop n (c :: rest)]
      exact .after _ (ih t ht)

/-- Every token of a source is scanned where it begins. -/
theorem scannedIn_of_mem_tokens? {source : List Char} {ts : List Token} {t : Token}
    (h : tokens? source = some ts) (ht : t ∈ ts) : ScannedIn 0 source t := by
  obtain ⟨front, rest, rfl, _, hCuts⟩ := exists_cuts_of_tokens? h
  rw [← Nat.zero_add (byteLength front)] at hCuts
  exact .after front (hCuts.scannedIn t ht)

/-- A word is one character that can begin an identifier and others that can go on one. -/
theorem scan?_eq_word {start n : Nat} {cs : List Char} {parts : List Part}
    (h : scan? start cs = some (.word, n, parts)) :
    ∃ c rest, cs = c :: rest ∧ isIdentifierStart c = true ∧
      cs.take n = c :: rest.takeWhile isIdentifierContinue := by
  cases scans_of_scan? h with
  | @word c rest hStart =>
    refine ⟨c, rest, rfl, hStart, ?_⟩
    rw [Nat.add_comm, List.take_succ_cons, runLength]
    rw [← List.prefix_iff_eq_take.1 (List.takeWhile_prefix isIdentifierContinue)]

/-- No point is in a word. -/
theorem ScannedIn.not_mem_word {start : Nat} {cs : List Char} {t : Token}
    (h : ScannedIn start cs t) (hWord : t.lexeme = .word) : ¬ '.' ∈ t.text.toList := by
  obtain ⟨before, rest, n, _, _, hScan, hText, _⟩ := h
  rw [hWord] at hScan
  obtain ⟨c, later, _, hStart, hTake⟩ := scan?_eq_word hScan
  rw [hText, String.toList_ofList, hTake]
  intro hMem
  rcases List.mem_cons.1 hMem with rfl | hMem
  · exact absurd hStart (by decide)
  · exact absurd (List.all_eq_true.1 List.all_takeWhile _ hMem) (by decide)

theorem ScannedIn.text_ne_empty {start : Nat} {cs : List Char} {t : Token}
    (h : ScannedIn start cs t) (hWord : t.lexeme = .word) : t.text ≠ "" := by
  obtain ⟨before, rest, n, _, _, hScan, hText, _⟩ := h
  rw [hWord] at hScan
  obtain ⟨c, later, _, _, hTake⟩ := scan?_eq_word hScan
  rw [hText, hTake, ne_eq, ← String.toList_inj, String.toList_ofList]
  exact List.cons_ne_nil _ _

theorem kind_of_number? {cs : List Char} {kind : Kind} {n : Nat} (h : number? cs = some (kind, n)) :
    kind ∈ Kind.literals := by
  have hRules : ∀ rule ∈ numberRules, rule.1 ∈ Kind.literals := by decide
  obtain ⟨_, rule, hRule, _⟩ := exists_rule_of_number? h
  exact hRules _ hRule

theorem regular_of_scan? {start n : Nat} {cs : List Char} {lexeme : Lexeme} {parts : List Part}
    (h : scan? start cs = some (lexeme, n, parts)) : lexeme.Regular parts := by
  cases scans_of_scan? h with
  | lineComment | blockComment => exact .ofComment rfl
  | string _ hSteps => exact .ofLiteral (by decide) hSteps.kind_mem
  | character => exact .ofLiteral (by decide) (List.forall_mem_nil _)
  | number hNumber => exact .ofLiteral (kind_of_number? hNumber) (List.forall_mem_nil _)
  | mark => exact .ofPlain (.inr rfl)
  | word => exact .ofPlain (.inl rfl)

theorem ScannedIn.regular {start : Nat} {cs : List Char} {t : Token} (h : ScannedIn start cs t) :
    t.lexeme.Regular t.parts := by
  obtain ⟨before, rest, n, _, _, hScan, _⟩ := h
  exact regular_of_scan? hScan

end Token

end ChangeSplit.Java
