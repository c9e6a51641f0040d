import ChangeSplit.Java.Place
import ChangeSplit.Proofs.Java.Grammar
import ChangeSplit.Proofs.Text.Utf8

/-! What holds of every source that was read. Its tree conforms to the grammar, and the text of a
token is what stands in the bytes that the token spans. -/

namespace ChangeSplit.Java

/-- The bytes that a token spans stand for its text, and they are among those of the source. -/
theorem decode_of_scannedIn {source : List UInt8} {cs : List Char} {t : Token}
    (hDecode : Utf8.decode source = .ok cs) (h : t.ScannedIn 0 cs) :
    Utf8.decode ((source.drop t.start).take (t.stop - t.start)) = .ok t.text.toList ∧
      t.stop = t.start + Token.byteLength t.text.toList ∧ t.stop ≤ source.length := by
  obtain ⟨before, rest, n, rfl, hStart, _, hText, hStop⟩ := h
  rw [Nat.zero_add] at hStart
  rw [← List.take_append_drop n rest] at hDecode
  obtain ⟨x, y, rfl, hBefore, _, hRest⟩ := Utf8.decode_eq_append hDecode
  obtain ⟨z, w, rfl, hLength, hSlice, _⟩ := Utf8.decode_eq_append hRest
  rw [← Token.byteLength_eq_sum] at hBefore hLength
  rw [hText, String.toList_ofList, hStop, hStart, Nat.add_sub_cancel_left, ← hBefore,
    List.drop_left, ← hLength, List.take_left]
  refine ⟨hSlice, rfl, ?_⟩
  rw [List.length_append, List.length_append]
  omega

theorem sliceText_of_scannedIn {source : List UInt8} {cs : List Char} {t : Token}
    (hDecode : Utf8.decode source = .ok cs) (h : t.ScannedIn 0 cs) :
    sliceText source t.start t.stop = t.text := by
  rw [sliceText, (decode_of_scannedIn hDecode h).1]
  exact String.ofList_toList

namespace SourceUnit

variable {source : List UInt8} {path : String} {unit : SourceUnit} {t c : Tree}

/-- What a source that was read was read from. -/
theorem exists_tokens_of_parse (h : parse source path = .ok unit) :
    ∃ cs tokens, Utf8.decode unit.source = .ok cs ∧ Token.tokens? cs = some tokens ∧
      treeOf? unit.source.length tokens = some unit.root ∧
      unit.package = packageName unit.source unit.root := by
  unfold parse at h
  split at h
  case h_1 => cases h
  case h_2 cs hDecode =>
    split at h
    case h_1 => cases h
    case h_2 root hRoot =>
      cases h
      obtain ⟨tokens, hTokens, hTree⟩ := Option.bind_eq_some_iff.1 hRoot
      exact ⟨cs, tokens, hDecode, hTokens, hTree, rfl⟩

/-- A part of the tree of a source that could be read. -/
def Holds (unit : SourceUnit) (t : Tree) : Prop :=
  ∃ cs tokens, Utf8.decode unit.source = .ok cs ∧ Token.tokens? cs = some tokens ∧
    t.Conforms Grammar.namesWords tokens

theorem holds_of_parse (h : parse source path = .ok unit) : unit.Holds unit.root := by
  obtain ⟨cs, tokens, hDecode, hTokens, hTree, _⟩ := exists_tokens_of_parse h
  refine ⟨cs, tokens, hDecode, hTokens, conforms_of_treeOf? (fun t ht => ?_) hTree⟩
  exact (Token.scannedIn_of_mem_tokens? hTokens ht).regular

theorem Holds.of_mem_children (h : unit.Holds t) (hc : c ∈ t.children) : unit.Holds c := by
  obtain ⟨cs, tokens, hDecode, hTokens, hConforms⟩ := h
  exact ⟨cs, tokens, hDecode, hTokens, (hConforms.of_mem_children hc).2⟩

/-- The text of a node that is a word is a word. -/
theorem Holds.not_mem_text (h : unit.Holds t) {kind : Kind} (hKind : t.kind? = some kind)
    (hWord : kind.isWord = true) : ¬ '.' ∈ (unit.text t).toList := by
  obtain ⟨cs, tokens, hDecode, hTokens, hConforms⟩ := h
  obtain ⟨u, hu, hLexeme, hStart, hStop⟩ := hConforms.exists_word hKind hWord
  have hScanned := Token.scannedIn_of_mem_tokens? hTokens hu
  rw [text, ← hStart, ← hStop, sliceText_of_scannedIn hDecode hScanned]
  exact hScanned.not_mem_word hLexeme

/-- A word has some letters. -/
theorem Holds.text_ne_empty (h : unit.Holds t) {kind : Kind} (hKind : t.kind? = some kind)
    (hWord : kind.isWord = true) : unit.text t ≠ "" := by
  obtain ⟨cs, tokens, hDecode, hTokens, hConforms⟩ := h
  obtain ⟨u, hu, hLexeme, hStart, hStop⟩ := hConforms.exists_word hKind hWord
  have hScanned := Token.scannedIn_of_mem_tokens? hTokens hu
  rw [text, ← hStart, ← hStop, sliceText_of_scannedIn hDecode hScanned]
  exact hScanned.text_ne_empty hLexeme

/-- What stands in the place of a name is a single word, but for the names of annotations. -/
theorem Holds.kind?_of_childAs_name (h : unit.Holds t)
    (hKind : t.kind? ≠ some .annotationUse ∧ t.kind? ≠ some .markerAnnotationUse)
    (hName : t.childAs? .name = some c) : c.kind? = some .identifier := by
  have hc : c ∈ t.children := List.mem_of_find?_eq_some hName
  have hRole : c.role? = some .name := by simpa using List.find?_some hName
  obtain ⟨_, _, _, _, hConforms⟩ := h
  obtain ⟨⟨kind, hKindOf, hAllowed⟩, _⟩ := hConforms.of_mem_children hc
  simp only [hKindOf, ne_eq, Option.some.injEq] at hKind
  simpa [Grammar.namesWords, Tree.shape, hRole, hKind] using hAllowed

/-- The name that a declaration gives is a single word, so there is no point in it. -/
theorem Holds.not_mem_declaredName (h : unit.Holds t)
    (hKind : t.kind? ≠ some .annotationUse ∧ t.kind? ≠ some .markerAnnotationUse) :
    ¬ '.' ∈ (unit.declaredName t).toList := by
  rw [declaredName, text?]
  cases hName : t.childAs? .name with
  | none => exact List.not_mem_nil
  | some c =>
      have hc : c ∈ t.children := List.mem_of_find?_eq_some hName
      exact (h.of_mem_children hc).not_mem_text (h.kind?_of_childAs_name hKind hName) rfl

theorem Holds.kind?_of_mem_childrenAs_declarator (h : unit.Holds t)
    (hc : c ∈ t.childrenAs .declarator) : c.kind? = some .variableDeclarator := by
  obtain ⟨hMem, hRole⟩ := List.mem_filter.1 hc
  rw [decide_eq_true_eq] at hRole
  obtain ⟨_, _, _, _, hConforms⟩ := h
  obtain ⟨⟨kind, _, hAllowed⟩, _⟩ := hConforms.of_mem_children hMem
  simpa [Grammar.namesWords, Tree.shape, hRole] using hAllowed

/-- The names that a declaration of fields or of a constant gives are single words. -/
theorem Holds.not_mem_declaredFields (h : unit.Holds t) {name : String}
    (hName : name ∈ unit.declaredFields t) : ¬ '.' ∈ name.toList := by
  unfold declaredFields at hName
  split at hName
  case isTrue hConstant =>
    rw [List.mem_singleton.1 hName]
    have hKind : t.kind? = some .enumConstant := by simpa [Tree.isA] using hConstant
    refine h.not_mem_declaredName ?_
    rw [hKind]
    exact ⟨by decide, by decide⟩
  case isFalse =>
    obtain ⟨d, hd, rfl⟩ := List.mem_map.1 hName
    refine (h.of_mem_children (List.mem_filter.1 hd).1).not_mem_declaredName ?_
    rw [h.kind?_of_mem_childrenAs_declarator hd]
    exact ⟨by decide, by decide⟩

end SourceUnit

end ChangeSplit.Java
