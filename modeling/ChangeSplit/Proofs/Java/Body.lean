import ChangeSplit.Proofs.Java.Multiplicity
import ChangeSplit.Proofs.Java.Source

/-! Where the bodies of types stand. The grammar gives each declaration of a type one body, which is
the child in that role and the only child of such a kind. -/

namespace ChangeSplit.Java

namespace Grammar

open Pattern

/-- Whether a tree is a body to the node above it. -/
def isBody (s : Shape) : Bool := s.role = some .body

/-- Bodies of types, and the parts of bodies that hold the members of enumerations, stand in their
own places only. No source stands in another. -/
def bodiesInPlace : Schema where
  allows kind s :=
    s.kind ≠ some .program && (s.kind ≠ some .enumBodyDeclarations || kind = .enumBody) &&
      (!kind.isTypeDeclaration || s.kind.any Kind.isTypeBody == isBody s)
  comment kind comment h := by
    cases comment with
    | lineComment | blockComment => simp [Shape.plain, isBody, Kind.isTypeBody]
    | _ => cases h
  piece := by decide +kernel

theorem shapes?_bodiesInPlace (r : Rule) :
    (shapes? bodiesInPlace shapes none (java r)).any (·.all (shapes r).contains) = true := by
  cases r <;> decide +kernel

theorem single_java (r : Rule) :
    single (apart java) Kind.isTypeDeclaration isBody (fun _ => none) (java r) = true := by
  cases r <;> decide +kernel

end Grammar

/-- What the grammar says about bodies of types among the shapes below a node of some kind. -/
structure Bodied (kind : Kind) (shapes : List Shape) : Prop where
  program : ∀ s ∈ shapes, s.kind ≠ some .program
  enumBody : ∀ s ∈ shapes, s.kind = some .enumBodyDeclarations → kind = .enumBody
  body : kind.isTypeDeclaration = true →
    ∀ s ∈ shapes, s.kind.any Kind.isTypeBody = true ↔ s.role = some .body
  once : kind.isTypeDeclaration = true → shapes.countP Grammar.isBody ≤ 1

theorem bodied_of_allows {kind : Kind} {shapes : List Shape}
    (h : ∀ s ∈ shapes, Grammar.bodiesInPlace.allows kind s = true)
    (hOnce : Pattern.AtMostOne Kind.isTypeDeclaration Grammar.isBody kind shapes) :
    Bodied kind shapes := by
  have hAllowed (s : Shape) (hs : s ∈ shapes) := h s hs
  simp only [Grammar.bodiesInPlace, Grammar.isBody, Bool.and_eq_true, Bool.or_eq_true,
    decide_eq_true_eq, Bool.not_eq_true', beq_iff_eq] at hAllowed
  refine ⟨fun s hs => (hAllowed s hs).1.1, fun s hs hKind => ?_, fun hType s hs => ?_, hOnce⟩
  · exact (hAllowed s hs).1.2.resolve_left fun hNe => hNe hKind
  · have hBody := (hAllowed s hs).2.resolve_left (by simp [hType])
    simp [hBody]

theorem atMostOne_insert {test : Shape → Bool} {kinds : Kind → Bool} {kind : Kind} {s : Shape}
    {before after : List Shape} (hTest : test s = false)
    (h : Pattern.AtMostOne kinds test kind (before ++ after)) :
    Pattern.AtMostOne kinds test kind (before ++ s :: after) := by
  intro hKind
  simpa [List.countP_cons, hTest] using h hKind

/-- The bodies in a source that can be read stand where the grammar wants them. -/
theorem bodied_of_treeOf? {length : Nat} {tokens : List Token} {root : Tree}
    (hRegular : ∀ t ∈ tokens, t.lexeme.Regular t.parts) (h : treeOf? length tokens = some root) :
    root.Each Bodied := by
  have hConforms : root.Conforms Grammar.bodiesInPlace tokens := by
    refine conforms_treeOf? (fun r => ?_) (by decide) hRegular h
    obtain ⟨s, hShapes, hAll⟩ := (Option.any_eq_true _ _).1 (Grammar.shapes?_bodiesInPlace r)
    exact ⟨s, hShapes, fun x hx => List.contains_iff_mem.1 (List.all_eq_true.1 hAll x hx)⟩
  have hOnce : root.Each (Pattern.AtMostOne Kind.isTypeDeclaration Grammar.isBody) := by
    apply treeOf?_induction h
    · intro trees start hReads
      exact .node (fun hProgram => by cases hProgram) (hReads.each (fun _ => rfl)
        Grammar.single_java rfl (Pattern.Bound.covers_none _) (List.forall_mem_nil _))
    · intro tree hTree t _ kind _
      exact .insert (.node (fun _ => Nat.zero_le 1) (List.forall_mem_nil _))
        (fun _ _ _ => atMostOne_insert rfl) tree hTree
  exact (hConforms.each.and hOnce).mono fun kind shapes hBoth => bodied_of_allows hBoth.1 hBoth.2

theorem kind?_of_treeOf? {length : Nat} {tokens : List Token} {root : Tree}
    (h : treeOf? length tokens = some root) : root.kind? = some .program := by
  apply treeOf?_induction h
  · intro _ _ _
    rfl
  · intro tree hTree t _ kind _
    have hShape := Tree.shape_insert (.node none kind t.start t.stop []) tree
    exact (congrArg Shape.kind hShape).trans hTree

namespace SourceUnit

/-- What every rule of the grammar keeps to holds of every node of a source that can be read. -/
theorem each_of_parse {schema : Schema} {source : List UInt8} {path : String} {unit : SourceUnit}
    (hRules : ∀ r, (Pattern.shapes? schema Grammar.shapes none (Grammar.java r)).any
      (·.all (Grammar.shapes r).contains) = true)
    (hTop : ∀ s ∈ Grammar.shapes .topLevel, schema.allows .program s = true)
    (h : parse source path = .ok unit) :
    unit.root.Each fun kind shapes => ∀ s ∈ shapes, schema.allows kind s = true := by
  obtain ⟨_, _, _, hTokens, hTree, _⟩ := exists_tokens_of_parse h
  have hRegular := fun t ht => (Token.scannedIn_of_mem_tokens? hTokens (t := t) ht).regular
  refine (conforms_treeOf? (fun r => ?_) hTop hRegular hTree).each
  obtain ⟨s, hShapes, hAll⟩ := (Option.any_eq_true _ _).1 (hRules r)
  exact ⟨s, hShapes, fun x hx => List.contains_iff_mem.1 (List.all_eq_true.1 hAll x hx)⟩

theorem bodied_of_parse {source : List UInt8} {path : String} {unit : SourceUnit}
    (h : parse source path = .ok unit) :
    unit.root.Each Bodied ∧ unit.root.kind? = some .program := by
  obtain ⟨_, _, _, hTokens, hTree, _⟩ := exists_tokens_of_parse h
  have hRegular := fun t ht => (Token.scannedIn_of_mem_tokens? hTokens (t := t) ht).regular
  exact ⟨bodied_of_treeOf? hRegular hTree, kind?_of_treeOf? hTree⟩

end SourceUnit

end ChangeSplit.Java
