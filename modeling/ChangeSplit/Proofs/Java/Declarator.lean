import ChangeSplit.Proofs.Java.Naming

/-! Every declaration that can be named declares something. A type and a method have one name each,
and the grammar gives every declaration of fields a declarator. Declarators have rules of their own,
so these rules are written out before the patterns are asked. -/

namespace ChangeSplit.Java

namespace Pattern

variable {ρ : Type}

/-- A pattern with what some rules stand for in their place. -/
def writeOut (g : Grammar ρ) (rules : ρ → Bool) : Pattern ρ → Pattern ρ
  | rule r => if rules r then g r else rule r
  | seq first second => seq (writeOut g rules first) (writeOut g rules second)
  | alt first second => alt (writeOut g rules first) (writeOut g rules second)
  | many p => many (writeOut g rules p)
  | node kind p => node kind (writeOut g rules p)
  | role r p => role r (writeOut g rules p)
  | only kinds p => only kinds (writeOut g rules p)
  | wrap base whole => wrap (writeOut g rules base) (writeOut g rules whole)
  | grow step => grow (writeOut g rules step)
  | p => p

end Pattern

/-- The grammar with some rules written out in its patterns. -/
def Grammar.writtenOut {ρ : Type} (g : Grammar ρ) (rules : ρ → Bool) : Grammar ρ :=
  fun r => (g r).writeOut g rules

namespace Pattern

variable {ρ : Type} {g : Grammar ρ} {rules : ρ → Bool}

/-- What a grammar reads is read by the grammar written out, and by patterns written out. -/
theorem Reads.writtenOut {p : Pattern ρ} {left ts : List Tree} {given rest : List Token}
    (h : Reads g p left given ts rest) :
    Reads (g.writtenOut rules) p left given ts rest ∧
      Reads (g.writtenOut rules) (p.writeOut g rules) left given ts rest := by
  induction h with
  | empty => exact ⟨.empty, .empty⟩
  | mark => exact ⟨.mark, .mark⟩
  | joined hJoin => exact ⟨.joined hJoin, .joined hJoin⟩
  | name hWord => exact ⟨.name hWord, .name hWord⟩
  | literal hLiteral => exact ⟨.literal hLiteral, .literal hLiteral⟩
  | rule _ ih =>
      refine ⟨.rule ih.2, ?_⟩
      unfold writeOut
      split
      case isTrue => exact ih.1
      case isFalse => exact .rule ih.2
  | seq _ _ ihFirst ihSecond => exact ⟨.seq ihFirst.1 ihSecond.1, .seq ihFirst.2 ihSecond.2⟩
  | either _ ih => exact ⟨.either ih.1, .either ih.2⟩
  | or _ ih => exact ⟨.or ih.1, .or ih.2⟩
  | noMore => exact ⟨.noMore, .noMore⟩
  | more _ _ ihOne ihMore => exact ⟨.more ihOne.1 ihMore.1, .more ihOne.2 ihMore.2⟩
  | node _ hOver ih => exact ⟨.node ih.1 hOver, .node ih.2 hOver⟩
  | role _ ih => exact ⟨.role ih.1, .role ih.2⟩
  | only _ hKinds ih => exact ⟨.only ih.1 hKinds, .only ih.2 hKinds⟩
  | ahead => exact ⟨.ahead, .ahead⟩
  | notAhead => exact ⟨.notAhead, .notAhead⟩
  | pending => exact ⟨.pending, .pending⟩
  | wrap _ _ ihBase ihWhole => exact ⟨.wrap ihBase.1 ihWhole.1, .wrap ihBase.2 ihWhole.2⟩
  | grown => exact ⟨.grown, .grown⟩
  | grow _ _ ihStep ihMore => exact ⟨.grow ihStep.1 ihMore.1, .grow ihStep.2 ihMore.2⟩

end Pattern

namespace Grammar

/-- Whether a tree is one of the variables that the node above it declares. -/
def isDeclarator (s : Shape) : Bool := s.role = some .declarator

/-- The rules of declarators. -/
def ofDeclarators : Rule → Bool
  | .declarators | .declarator => true
  | _ => false

/-- The grammar of Java sources with the rules of declarators written out, the one of single
declarators inside the other. -/
def fielded : Grammar Rule := (java.writtenOut ofDeclarators).writtenOut ofDeclarators

theorem ensures_fielded (r : Rule) :
    Pattern.ensures Kind.isFieldDeclaration isDeclarator (fielded r) = true := by
  cases r <;> decide +kernel

end Grammar

/-- Whether a node has a declarator if it declares fields. -/
abbrev Fielded : Kind → List Shape → Prop :=
  Pattern.AtLeastOne Kind.isFieldDeclaration Grammar.isDeclarator

/-- All declarations of fields in a source that can be read have declarators. -/
theorem fielded_of_treeOf? {length : Nat} {tokens : List Token} {root : Tree}
    (hRegular : ∀ t ∈ tokens, t.lexeme.Regular t.parts) (h : treeOf? length tokens = some root) :
    root.Each Fielded :=
  atLeastOne_of_treeOf? (by decide) (by decide)
    (fun _ _ _ _ _ hReads => hReads.writtenOut.1.writtenOut.1) Grammar.ensures_fielded hRegular h

theorem SourceUnit.fielded_of_parse {unit : SourceUnit} {source : List UInt8} {path : String}
    (h : parse source path = .ok unit) : unit.root.Each Fielded := by
  obtain ⟨_, _, _, hTokens, hTree, _⟩ := exists_tokens_of_parse h
  exact fielded_of_treeOf? (fun t ht => (Token.scannedIn_of_mem_tokens? hTokens ht).regular) hTree

namespace Subject

variable {s : Subject} {m p : Place}

/-- Each declaration of a member that is no type has an entity. -/
theorem memberEntities_ne_nil (owner : String) (hFielded : m.node.Each Fielded)
    (hDeclaration : m.kindIs Kind.isDeclaration = true) (hType : m.isType = false) :
    s.memberEntities owner m ≠ [] := by
  obtain ⟨kind, hKind, hSort⟩ := Place.exists_kind hDeclaration
  unfold memberEntities
  split
  case isTrue hField =>
    obtain ⟨kind, hKind, hIs⟩ := Place.exists_kind hField
    obtain ⟨shape, hShape, hRole⟩ := hFielded.here hKind hIs
    obtain ⟨d, hd, rfl⟩ := List.mem_map.1 hShape
    have hDeclarator : d ∈ m.node.childrenAs .declarator := List.mem_filter.2 ⟨hd, hRole⟩
    exact List.ne_nil_of_mem (List.mem_map_of_mem hDeclarator)
  case isFalse hField =>
    split
    case isTrue => exact List.cons_ne_nil _ _
    case isFalse hConstant =>
      split
      case isTrue => exact List.cons_ne_nil _ _
      case isFalse hMethod =>
        simp only [Place.isType, Place.kindIs, Tree.kindIs, Tree.isA, hKind, Option.any_some,
          Option.some.injEq, decide_eq_true_eq] at hField hConstant hMethod hType
        simp [Kind.isDeclaration, Kind.isMemberDeclaration, hField, hConstant, hMethod, hType]
          at hSort

/-- A declaration that can be named declares something. -/
theorem identities_ne_nil (hReadable : s.unit.Readable) (hFielded : s.unit.root.Each Fielded)
    (hp : p ∈ s.unit.top.everything) (hNamed : p.isNamedMember = true) : s.identities p ≠ [] := by
  have hMem : p ∈ s.unit.types.flatMap Place.withOwnMembers :=
    hReadable.perm_types.mem_iff.2 (List.mem_filter.2 ⟨hp, hNamed⟩)
  obtain ⟨t, ht, hOwn⟩ := List.mem_flatMap.1 hMem
  have hType := hReadable.namedType_of_mem_types ht
  rcases List.mem_cons.1 hOwn with rfl | hOwn
  · rw [identities_of_isType hType.type]
    exact List.cons_ne_nil _ _
  · obtain ⟨hm, hNot⟩ := List.mem_filter.1 hOwn
    have hNot : p.isType = false := by simpa using hNot
    rw [identities_of_mem_members hType hm hNot, ne_eq, List.map_eq_nil_iff]
    have hAll : s.unit.top.node.Each Fielded := hFielded
    exact memberEntities_ne_nil _ (Place.each_of_mem_everything hAll hp)
      (Place.isDeclaration_of_isNamedMember hNamed) hNot

end Subject

end ChangeSplit.Java
