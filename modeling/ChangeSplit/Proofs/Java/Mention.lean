import ChangeSplit.Java.Declaration
import ChangeSplit.Proofs.Collection.OrderedSet
import ChangeSplit.Proofs.Java.Place

/-! Facts are sets of mentions: facts with the same mentions are the same. What a place refers to
is what the node there refers to by itself and what the places right below refer to. A comment
refers to nothing, since nothing but comments stands below one. -/

namespace ChangeSplit

instance : Std.LawfulEqOrd CallRef where
  eq_of_compare {a b} h := by
    obtain ⟨hOwner, hRest⟩ := Ordering.then_eq_eq.1 h
    obtain ⟨hName, hArity⟩ := Ordering.then_eq_eq.1 hRest
    have hOwner : a.owner = b.owner := Std.LawfulEqCmp.eq_of_compare hOwner
    have hName : a.name = b.name := Std.LawfulEqCmp.eq_of_compare hName
    have hArity : a.arity = b.arity := Std.LawfulEqCmp.eq_of_compare hArity
    cases a
    cases b
    simp_all

namespace Facts

instance : Membership Mention Facts where
  mem f
    | .type name => name ∈ f.typeUses
    | .call ref => ref ∈ f.calls
    | .field name => name ∈ f.fieldUses

instance : HasSubset Facts := ⟨fun f g => ∀ m : Mention, m ∈ f → m ∈ g⟩

variable {f g : Facts} {m n : Mention}

@[ext] theorem ext_mem (h : ∀ m : Mention, m ∈ f ↔ m ∈ g) : f = g := by
  cases f
  cases g
  congr 1
  · exact OrderedSet.ext fun name => h (.type name)
  · exact OrderedSet.ext fun ref => h (.call ref)
  · exact OrderedSet.ext fun name => h (.field name)

@[simp] theorem not_mem_empty (m : Mention) : ¬ m ∈ ({} : Facts) := by
  cases m <;> exact OrderedSet.not_mem_empty _

@[simp] theorem mem_add : m ∈ f.add n ↔ m = n ∨ m ∈ f := by
  cases m <;> cases n <;> simp [Membership.mem, add]
  all_goals exact OrderedSet.mem_insert

@[simp] theorem mem_addAll {mentions : List Mention} :
    m ∈ f.addAll mentions ↔ m ∈ f ∨ m ∈ mentions := by
  induction mentions generalizing f with
  | nil => simp [addAll]
  | cons n rest ih =>
      have hCons : f.addAll (n :: rest) = (f.add n).addAll rest := rfl
      rw [hCons, ih, mem_add, List.mem_cons, or_assoc, or_left_comm]

@[simp] theorem mem_ofMentions {mentions : List Mention} :
    m ∈ ofMentions mentions ↔ m ∈ mentions := by
  simp [ofMentions]

/-- What either of two stretches of source refers to. -/
def union (f g : Facts) : Facts :=
  ⟨f.typeUses.union g.typeUses, f.calls.union g.calls, f.fieldUses.union g.fieldUses⟩

/-- What some stretches of source refer to together. -/
def unionAll (fs : List Facts) : Facts := fs.foldl union {}

@[simp] theorem mem_union : m ∈ f.union g ↔ m ∈ f ∨ m ∈ g := by
  cases m <;> exact OrderedSet.mem_union

@[simp] theorem mem_unionAll {fs : List Facts} : m ∈ unionAll fs ↔ ∃ f ∈ fs, m ∈ f := by
  have hFold (f : Facts) : m ∈ fs.foldl union f ↔ m ∈ f ∨ ∃ g ∈ fs, m ∈ g := by
    induction fs generalizing f with
    | nil => simp
    | cons g rest ih => simp [ih, or_assoc]
  simpa [unionAll] using hFold {}

end Facts

namespace Java

namespace Grammar

/-- Below comments stand comments only, and the body of a method or constructor is a block. -/
def bodiesOfMethods : Schema where
  allows kind s :=
    (!kind.isComment || s.kind.any Kind.isComment) &&
      (!kind.isMethodDeclaration || s.role ≠ some .body ||
        s.kind.any fun body => body = .block || body = .constructorBody)
  comment kind comment h := by simp [Shape.plain, h]
  piece := by decide +kernel

theorem shapes?_bodiesOfMethods (r : Rule) :
    (Pattern.shapes? bodiesOfMethods shapes none (java r)).any
      (·.all (shapes r).contains) = true := by
  cases r <;> decide +kernel

end Grammar

/-- What the grammar says about comments and the bodies of methods among the shapes below a node. -/
def Blocked (kind : Kind) (shapes : List Shape) : Prop :=
  ∀ s ∈ shapes, Grammar.bodiesOfMethods.allows kind s = true

theorem SourceUnit.blocked_of_parse {source : List UInt8} {path : String} {unit : SourceUnit}
    (h : parse source path = .ok unit) : unit.root.Each Blocked :=
  each_of_parse Grammar.shapes?_bodiesOfMethods (by decide) h

variable {unit : SourceUnit} {s : Symbols} {scope : Scope} {p c q : Place}

namespace Place

theorem allows_of_blocked (h : p.node.Each Blocked) (hc : c.node ∈ p.node.children) {kind : Kind}
    (hKind : p.node.kind? = some kind) :
    Grammar.bodiesOfMethods.allows kind c.node.shape = true :=
  h.here hKind _ (List.mem_map_of_mem hc)

/-- Only comments are below a comment. -/
theorem isComment_of_mem_everything (h : p.node.Each Blocked) (hComment : p.node.isComment = true)
    (hq : q ∈ p.everything) : q.node.isComment = true := by
  have hAll : ∀ q ∈ p.everything, q.node.Each Blocked ∧ q.node.isComment = true := by
    refine forall_mem_everything ⟨h, hComment⟩ fun q ⟨hEach, hComment⟩ c hc => ?_
    have hMem := node_mem_of_mem_namedChildren hc
    refine ⟨hEach.of_mem_children hMem, ?_⟩
    obtain ⟨kind, hKind, hTest⟩ := exists_kind (p := q) hComment
    have hAllowed := allows_of_blocked hEach hMem hKind
    simp only [Grammar.bodiesOfMethods, hTest, Bool.not_true, Bool.false_or,
      Bool.and_eq_true] at hAllowed
    exact hAllowed.1
  exact (hAll q hq).2

end Place

/-- Comments and blocks refer to nothing by themselves. -/
theorem mentionsOf_eq_nil {kind : Kind} (hKind : p.node.kind? = some kind)
    (h : kind.isComment = true ∨ kind = .block ∨ kind = .constructorBody) :
    mentionsOf unit s scope p = [] := by
  rw [mentionsOf]
  simp only [hKind]
  rcases h with hComment | rfl | rfl
  · cases kind <;> first | rfl | cases hComment
  · rfl
  · rfl

theorem mentionsFrom_eq (p : Place) :
    mentionsFrom unit s scope p =
      mentionsOf unit s scope p ++ p.namedChildren.flatMap (mentionsFrom unit s scope) := by
  rw [mentionsFrom, Place.everything_eq, List.flatMap_cons, List.flatMap_assoc]
  rfl

theorem mentionsFrom_comment (h : p.node.Each Blocked) (hComment : p.node.isComment = true) :
    mentionsFrom unit s scope p = [] := by
  rw [mentionsFrom, List.flatMap_eq_nil_iff]
  intro q hq
  obtain ⟨_, hKind, hTest⟩ :=
    Place.exists_kind (p := q) (Place.isComment_of_mem_everything h hComment hq)
  exact mentionsOf_eq_nil hKind (.inl hTest)

/-- What a part of a place refers to, the whole refers to. -/
theorem mentionsFrom_subset (hq : q ∈ p.everything) :
    mentionsFrom unit s scope q ⊆ mentionsFrom unit s scope p := by
  induction p using Place.induction with
  | h p ih =>
      rcases Place.mem_everything_iff.1 hq with rfl | ⟨c, hc, hq⟩
      · exact List.Subset.refl _
      · rw [mentionsFrom_eq p]
        intro m hm
        exact List.mem_append_right _ (List.mem_flatMap.2 ⟨c, hc, ih c hc hq hm⟩)

end Java

end ChangeSplit
