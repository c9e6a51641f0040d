import ChangeSplit.Proofs.Java.Undisturbed
import ChangeSplit.Proofs.Java.Wording

/-! Sources without anything between their tokens. Every source that can be read has a tight form:
the bytes of its tokens, comments left out, with the condensed tree over them. The text of a tree in
the tight form is that of its tokens alone, and sources with the same words have the same tight
form. -/

namespace ChangeSplit.Java

namespace Token

/-- Tokens in the order of the source, each of which takes up some bytes. -/
structure InOrder (ts : List Token) : Prop where
  ordered : ts.Pairwise fun t u => t.stop ≤ u.start
  proper : ∀ t ∈ ts, t.start < t.stop

theorem InOrder.head {t : Token} {ts : List Token} (h : InOrder (t :: ts)) :
    t.start < t.stop ∧ ∀ u ∈ ts, t.stop ≤ u.start :=
  ⟨(List.forall_mem_cons.1 h.proper).1, (List.pairwise_cons.1 h.ordered).1⟩

theorem InOrder.tail {t : Token} {ts : List Token} (h : InOrder (t :: ts)) : InOrder ts :=
  ⟨(List.pairwise_cons.1 h.ordered).2, (List.forall_mem_cons.1 h.proper).2⟩

/-- How many bytes those tokens take that begin in front of a place. -/
def room (ts : List Token) (place : Nat) : Nat :=
  ((ts.filter (·.start < place)).map fun t => t.stop - t.start).sum

section

variable {t : Token} {ts : List Token} {place : Nat}

theorem room_eq_zero (h : ∀ t ∈ ts, place ≤ t.start) : room ts place = 0 := by
  have hNone : ts.filter (·.start < place) = [] := by
    rw [List.filter_eq_nil_iff]
    intro t ht
    simpa using h t ht
  rw [room, hNone]
  rfl

theorem room_cons_of_lt (h : t.start < place) :
    room (t :: ts) place = (t.stop - t.start) + room ts place := by
  simp [room, h]

theorem room_mono {later : Nat} (h : place ≤ later) : room ts place ≤ room ts later := by
  induction ts with
  | nil => exact Nat.le_refl _
  | cons t ts ih =>
    by_cases hPlace : t.start < place
    · rw [room_cons_of_lt hPlace, room_cons_of_lt (Nat.lt_of_lt_of_le hPlace h)]
      omega
    · have hSkip : room (t :: ts) place = room ts place := by simp [room, hPlace]
      have hMore : room ts later ≤ room (t :: ts) later := by
        by_cases hLater : t.start < later <;> simp [room, hLater]
      omega

end

/-- The tokens that begin from the one place on and in front of the other. -/
def between (first last : Nat) (ts : List Token) : List Token :=
  ts.filter fun t => first ≤ t.start && t.start < last

/-- The texts of some tokens with nothing between them. -/
def joinText (ts : List Token) : List Char := ts.flatMap fun t => t.text.toList

/-- Bytes of a token: they stand for its text, and there are as many as it spans. -/
def Spells (bytes : List UInt8) (t : Token) : Prop :=
  Utf8.decode bytes = .ok t.text.toList ∧ bytes.length = t.stop - t.start

section

variable {ts : List Token} {blocks : List (List UInt8)} {first last : Nat}

/-- The bytes of the first tokens are in front of those of the others. -/
theorem decode_take_flatten (hOrder : InOrder ts) (h : List.Forall₂ Spells blocks ts) :
    Utf8.decode (blocks.flatten.take (room ts last)) =
      .ok (joinText (ts.filter (·.start < last))) := by
  induction h with
  | nil => rfl
  | @cons bytes t blocks ts hBytes _ ih =>
    by_cases hLast : t.start < last
    · rw [room_cons_of_lt hLast, ← hBytes.2, List.flatten_cons, List.take_length_add_append,
        Utf8.decode_append hBytes.1, ih hOrder.tail]
      simp [joinText, hLast, Except.map]
    · have hBehind : ∀ u ∈ t :: ts, last ≤ u.start := by
        obtain ⟨hLt, hLater⟩ := hOrder.head
        refine List.forall_mem_cons.2 ⟨by omega, fun u hu => ?_⟩
        have := hLater u hu
        omega
      have hNone : (t :: ts).filter (·.start < last) = [] := by
        rw [List.filter_eq_nil_iff]
        intro u hu
        simpa using hBehind u hu
      rw [room_eq_zero hBehind, hNone]
      rfl

/-- The bytes between two places, moved to where they are without what is between the tokens, stand
for the texts of the tokens that begin between the places. -/
theorem decode_slice_flatten (hOrder : InOrder ts) (h : List.Forall₂ Spells blocks ts) :
    Utf8.decode ((blocks.flatten.drop (room ts first)).take (room ts last - room ts first)) =
      .ok (joinText (between first last ts)) := by
  by_cases hPlaces : last ≤ first
  · have hRoom : room ts last - room ts first = 0 := Nat.sub_eq_zero_of_le (room_mono hPlaces)
    have hNone : between first last ts = [] := by
      rw [between, List.filter_eq_nil_iff]
      intro t _
      simp only [Bool.and_eq_true, decide_eq_true_eq]
      omega
    rw [hRoom, hNone]
    rfl
  induction h with
  | nil => simp [room, between, joinText, Utf8.decode, Utf8.decodeFrom]
  | @cons bytes t blocks ts hBytes hRest ih =>
    by_cases hFirst : t.start < first
    · have hLast : t.start < last := by omega
      rw [room_cons_of_lt hFirst, room_cons_of_lt hLast, ← hBytes.2, List.flatten_cons,
        List.drop_length_add_append, Nat.add_sub_add_left, ih hOrder.tail]
      simp [between, Nat.not_le.2 hFirst]
    · have hBehind : ∀ u ∈ t :: ts, first ≤ u.start := by
        obtain ⟨hLt, hLater⟩ := hOrder.head
        refine List.forall_mem_cons.2 ⟨by omega, fun u hu => ?_⟩
        have := hLater u hu
        omega
      have hAll : between first last (t :: ts) = (t :: ts).filter (·.start < last) :=
        List.filter_congr fun u hu => by simp [hBehind u hu]
      rw [room_eq_zero hBehind, hAll, List.drop_zero, Nat.sub_zero]
      exact decode_take_flatten hOrder (.cons hBytes hRest)

end

/-- How many bytes some tokens take. -/
def size (ts : List Token) : Nat := (ts.map fun t => t.stop - t.start).sum

theorem size_append (ts us : List Token) : size (ts ++ us) = size ts + size us := by
  simp [size]

section

variable {before after : List Token} {t : Token}

/-- What is in front of the place where a token begins are the tokens before it. -/
theorem room_start (h : InOrder (before ++ t :: after)) :
    room (before ++ t :: after) t.start = size before := by
  obtain ⟨_, hAfter, hBefore⟩ := List.pairwise_append.1 h.ordered
  have hAll : before.filter (·.start < t.start) = before := by
    rw [List.filter_eq_self]
    intro u hu
    have hLt := h.proper u (List.mem_append_left _ hu)
    have hLe := hBefore u hu t (List.mem_cons_self ..)
    exact decide_eq_true (by omega)
  have hNone : (t :: after).filter (·.start < t.start) = [] := by
    rw [List.filter_eq_nil_iff]
    refine List.forall_mem_cons.2 ⟨by simp, fun u hu => ?_⟩
    have hLt := h.proper t (List.mem_append_right _ (List.mem_cons_self ..))
    have hLe := (List.pairwise_cons.1 hAfter).1 u hu
    simp only [decide_eq_true_eq]
    omega
  rw [room, List.filter_append, hAll, hNone, List.append_nil, size]

theorem room_stop (h : InOrder (before ++ t :: after)) :
    room (before ++ t :: after) t.stop = size before + (t.stop - t.start) := by
  obtain ⟨_, hAfter, hBefore⟩ := List.pairwise_append.1 h.ordered
  have hProper := h.proper t (List.mem_append_right _ (List.mem_cons_self ..))
  have hAll : (before ++ [t]).filter (·.start < t.stop) = before ++ [t] := by
    rw [List.filter_eq_self]
    refine List.forall_mem_append.2 ⟨fun u hu => ?_, by simpa using hProper⟩
    have hLt := h.proper u (List.mem_append_left _ hu)
    have hLe := hBefore u hu t (List.mem_cons_self ..)
    exact decide_eq_true (by omega)
  have hNone : after.filter (·.start < t.stop) = [] := by
    rw [List.filter_eq_nil_iff]
    intro u hu
    have hLe := (List.pairwise_cons.1 hAfter).1 u hu
    simp only [decide_eq_true_eq]
    omega
  rw [room, ← List.singleton_append, ← List.append_assoc, List.filter_append, hAll, hNone,
    List.append_nil]
  simp [size]

end

/-- Whether a token spans the bytes of its text and has no pieces but those of strings. -/
structure Regular (t : Token) : Prop where
  span : t.stop = t.start + byteLength t.text.toList
  pieces : ∀ part ∈ t.parts, part.kind ∈ Kind.stringPieces

/-- Tokens that are the same words are alike, once what is between them is left out. -/
theorem alike_of_words {all₁ all₂ before₁ before₂ ts us : List Token} (h₁ : InOrder all₁)
    (h₂ : InOrder all₂) (hRegular₁ : ∀ t ∈ ts, t.Regular) (hRegular₂ : ∀ t ∈ us, t.Regular)
    (hAll₁ : before₁ ++ ts = all₁) (hAll₂ : before₂ ++ us = all₂)
    (hBefore : size before₁ = size before₂) (hWords : words ts = words us) :
    Alike (room all₁) (room all₂) ts us ∧ size all₁ = size all₂ := by
  induction ts generalizing before₁ before₂ us with
  | nil =>
    cases us with
    | cons => cases hWords
    | nil =>
      rw [List.append_nil] at hAll₁ hAll₂
      exact ⟨.nil, by rw [← hAll₁, ← hAll₂, hBefore]⟩
  | cons t ts ih =>
    cases us with
    | nil => cases hWords
    | cons u us =>
      obtain ⟨hWord, hRest⟩ := List.cons.inj hWords
      obtain ⟨hLexeme, hText, hJoins⟩ := Word.mk.inj hWord
      obtain ⟨hRegular, hRegulars₁⟩ := List.forall_mem_cons.1 hRegular₁
      obtain ⟨hRegular', hRegulars₂⟩ := List.forall_mem_cons.1 hRegular₂
      have hSpan : t.stop - t.start = u.stop - u.start := by
        rw [hRegular.span, hRegular'.span, hText]
        omega
      have hBefore' : size (before₁ ++ [t]) = size (before₂ ++ [u]) := by
        rw [size_append, size_append, hBefore]
        simp [size, hSpan]
      have hAll₁' : (before₁ ++ [t]) ++ ts = all₁ := by simpa using hAll₁
      have hAll₂' : (before₂ ++ [u]) ++ us = all₂ := by simpa using hAll₂
      obtain ⟨hAlike, hSize⟩ := ih hRegulars₁ hRegulars₂ hAll₁' hAll₂' hBefore' hRest
      subst hAll₁ hAll₂
      refine ⟨.cons hLexeme hText hJoins ?_ ?_ ?_ hAlike, hSize⟩
      · rw [room_start h₁, room_start h₂, hBefore]
      · rw [room_stop h₁, room_stop h₂, hBefore, hSpan]
      · exact List.forall_mem_append.2 ⟨hRegular.pieces, hRegular'.pieces⟩

/-- The same bytes spell tokens that are alike. -/
theorem Alike.spells {f g : Nat → Nat} {ts us : List Token} {blocks : List (List UInt8)}
    (h : Alike f g ts us) (hRegular₁ : ∀ t ∈ ts, t.Regular) (hRegular₂ : ∀ t ∈ us, t.Regular)
    (hBlocks : List.Forall₂ Spells blocks ts) : List.Forall₂ Spells blocks us := by
  induction h generalizing blocks with
  | nil => exact hBlocks
  | cons hLexeme hText _ _ _ _ _ ih =>
    obtain ⟨hRegular, hRegulars₁⟩ := List.forall_mem_cons.1 hRegular₁
    obtain ⟨hRegular', hRegulars₂⟩ := List.forall_mem_cons.1 hRegular₂
    cases hBlocks with
    | cons hBytes hBlocks =>
      refine .cons ⟨?_, ?_⟩ (ih hRegulars₁ hRegulars₂ hBlocks)
      · rw [hBytes.1, hText]
      · rw [hBytes.2, hRegular.span, hRegular'.span, hText]
        omega

end Token

namespace SourceUnit

variable {unit : SourceUnit} {source : List UInt8} {path : String}

/-- The tokens of a source that are no comments. -/
def solid (unit : SourceUnit) : List Token :=
  match Utf8.decode unit.source with
  | .ok cs => ((Token.tokens? cs).getD []).filter (!·.isComment)
  | .error _ => []

/-- The words of a source: its tokens but for comments, without their places. -/
def words (unit : SourceUnit) : List Word := Token.words unit.solid

/-- The text of the tokens that a tree spans, without anything between them. -/
def tightText (unit : SourceUnit) (t : Tree) : String :=
  String.ofList (Token.joinText (Token.between t.start t.stop unit.solid))

/-- The bytes that a token spans. -/
def bytesOf (unit : SourceUnit) (t : Token) : List UInt8 :=
  (unit.source.drop t.start).take (t.stop - t.start)

theorem spells_of_scannedIn {cs : List Char} {t : Token}
    (hDecode : Utf8.decode unit.source = .ok cs) (h : t.ScannedIn 0 cs) :
    Token.Spells (unit.bytesOf t) t := by
  obtain ⟨hText, _, hInside⟩ := decode_of_scannedIn hDecode h
  refine ⟨hText, ?_⟩
  rw [bytesOf, List.length_take, List.length_drop]
  omega

/-- What is known of the tokens of a source that was read. -/
structure Cut (unit : SourceUnit) (tokens : List Token) : Prop where
  tree : treeOf? unit.source.length tokens = some unit.root
  solid : unit.solid = tokens.filter (!·.isComment)
  inOrder : Token.InOrder tokens
  lexemes : ∀ t ∈ tokens, t.lexeme.Regular t.parts
  regular : ∀ t ∈ tokens, t.Regular
  spelled : ∀ t ∈ tokens, Token.Spells (unit.bytesOf t) t
  inside : ∀ t ∈ tokens, t.stop ≤ unit.source.length

theorem exists_cut_of_parse (h : parse source path = .ok unit) :
    ∃ tokens, unit.Cut tokens ∧ unit.package = packageName unit.source unit.root := by
  obtain ⟨cs, tokens, hDecode, hTokens, hTree, hPackage⟩ := exists_tokens_of_parse h
  have hScanned (t : Token) (ht : t ∈ tokens) := Token.scannedIn_of_mem_tokens? hTokens ht
  obtain ⟨_, _, _, _, hCuts⟩ := Token.exists_cuts_of_tokens? hTokens
  obtain ⟨hProper, hOrdered⟩ := hCuts.ordered
  refine ⟨tokens, ⟨hTree, ?_, ⟨hOrdered, fun t ht => (hProper t ht).2⟩, ?_, ?_, ?_, ?_⟩, hPackage⟩
  · rw [solid, hDecode]
    dsimp only
    rw [hTokens, Option.getD_some]
  · exact fun t ht => (hScanned t ht).regular
  · exact fun t ht =>
      ⟨(decode_of_scannedIn hDecode (hScanned t ht)).2.1, (hScanned t ht).regular.piece⟩
  · exact fun t ht => spells_of_scannedIn hDecode (hScanned t ht)
  · exact fun t ht => (decode_of_scannedIn hDecode (hScanned t ht)).2.2

namespace Cut

variable {tokens : List Token} {t : Token}

theorem mem_of_mem_solid (h : unit.Cut tokens) (ht : t ∈ unit.solid) : t ∈ tokens := by
  rw [h.solid] at ht
  exact (List.mem_filter.1 ht).1

theorem inOrder_solid (h : unit.Cut tokens) : Token.InOrder unit.solid :=
  ⟨h.solid ▸ h.inOrder.ordered.sublist List.filter_sublist,
    fun t ht => h.inOrder.proper t (h.mem_of_mem_solid ht)⟩

/-- Nothing is in front of the first token. -/
theorem room_start (h : unit.Cut tokens) :
    Token.room unit.solid ((tokens.head?.map (·.start)).getD unit.source.length) = 0 := by
  apply Token.room_eq_zero
  intro t ht
  have hMem := h.mem_of_mem_solid ht
  cases tokens with
  | nil => cases hMem
  | cons first rest =>
    obtain ⟨hLt, hLater⟩ := h.inOrder.head
    rcases List.mem_cons.1 hMem with rfl | hMem
    · exact Nat.le_refl _
    · have := hLater t hMem
      show first.start ≤ t.start
      omega

/-- All tokens are in front of the end. -/
theorem room_length (h : unit.Cut tokens) :
    Token.room unit.solid unit.source.length = Token.size unit.solid := by
  have hAll : unit.solid.filter (·.start < unit.source.length) = unit.solid := by
    rw [List.filter_eq_self]
    intro t ht
    have hMem := h.mem_of_mem_solid ht
    have hLt := h.inOrder.proper t hMem
    have hLe := h.inside t hMem
    exact decide_eq_true (by omega)
  rw [Token.room, hAll, Token.size]

end Cut

/-- A source without anything between the tokens of another one. -/
structure Tightens (tight unit : SourceUnit) : Prop where
  root : tight.root = unit.root.condense (Token.room unit.solid)
  package : tight.package = packageName tight.source tight.root
  text : ∀ t : Tree, tight.text (t.condense (Token.room unit.solid)) = unit.tightText t

/-- The bytes of the tokens and the condensed tree over them are a tight form. -/
theorem tightens_of_spells {tight : SourceUnit} {tokens : List Token}
    {blocks : List (List UInt8)} (h : unit.Cut tokens)
    (hBlocks : List.Forall₂ Token.Spells blocks unit.solid)
    (hSource : tight.source = blocks.flatten)
    (hRoot : tight.root = unit.root.condense (Token.room unit.solid))
    (hPackage : tight.package = packageName tight.source tight.root) : tight.Tightens unit where
  root := hRoot
  package := hPackage
  text t := by
    rw [text, tightText, Tree.start_condense, Tree.stop_condense, hSource, sliceText,
      Token.decode_slice_flatten h.inOrder_solid hBlocks]

/-- Two sources with the same words have a common tight form. -/
theorem exists_tightens {source₁ source₂ : List UInt8} {path₁ path₂ : String}
    {unit₁ unit₂ : SourceUnit} (h₁ : parse source₁ path₁ = .ok unit₁)
    (h₂ : parse source₂ path₂ = .ok unit₂) (hWords : unit₁.words = unit₂.words) :
    ∃ tight : SourceUnit, tight.Tightens unit₁ ∧ tight.Tightens unit₂ := by
  obtain ⟨tokens₁, hCut₁, _⟩ := exists_cut_of_parse h₁
  obtain ⟨tokens₂, hCut₂, _⟩ := exists_cut_of_parse h₂
  have hRegular₁ := fun t ht => hCut₁.regular t (hCut₁.mem_of_mem_solid ht)
  have hRegular₂ := fun t ht => hCut₂.regular t (hCut₂.mem_of_mem_solid ht)
  obtain ⟨hAlike, hSize⟩ := Token.alike_of_words hCut₁.inOrder_solid hCut₂.inOrder_solid
    hRegular₁ hRegular₂ (List.nil_append _) (List.nil_append _) rfl hWords
  have hRoots : unit₁.root.condense (Token.room unit₁.solid) =
      unit₂.root.condense (Token.room unit₂.solid) := by
    refine condense_treeOf?_eq hCut₁.tree hCut₂.tree hCut₁.lexemes hCut₂.lexemes ?_ ?_ ?_
    · rw [← hCut₁.solid, ← hCut₂.solid]
      exact hAlike
    · rw [hCut₁.room_start, hCut₂.room_start]
    · rw [hCut₁.room_length, hCut₂.room_length, hSize]
  let blocks := unit₁.solid.map unit₁.bytesOf
  have hBlocks : List.Forall₂ Token.Spells blocks unit₁.solid :=
    List.forall₂_map_left_iff.2 (List.forall₂_same.2 fun t ht =>
      hCut₁.spelled t (hCut₁.mem_of_mem_solid ht))
  let root := unit₁.root.condense (Token.room unit₁.solid)
  refine ⟨⟨"", blocks.flatten, root, packageName blocks.flatten root, []⟩, ?_, ?_⟩
  · exact tightens_of_spells hCut₁ hBlocks rfl rfl rfl
  · exact tightens_of_spells hCut₂ (hAlike.spells hRegular₁ hRegular₂ hBlocks) rfl hRoots rfl

end SourceUnit

end ChangeSplit.Java
