import ChangeSplit.Proofs.ChangeGraph.Anchor
import ChangeSplit.Proofs.Java.Declarator
import ChangeSplit.Proofs.Java.Enclosing

/-! The declaration in which a hunk stands that touches none: the innermost one around all places to
which the hunk is put down. It is found by looking up from the first of them, and its node is that
of the first entity that it declares. -/

namespace ChangeSplit.ChangeGraph

open Java

/-- Whether one of some places tells where they stand: it is no import, and some declaration
encloses it. -/
structure Counts (places : List Place) (a : Place) : Prop where
  mem : a ∈ places
  code : a.node.isA .importDeclaration = false
  enclosed : ∃ d : Place, d.Encloses a

/-- Whether a declaration encloses all those of some places that tell where they stand, of which
there have to be some. -/
structure Surrounds (places : List Place) (d : Place) : Prop where
  some : ∃ a, Counts places a
  all : ∀ a, Counts places a → d.Encloses a

/-- Whether a declaration that surrounds some places is inside of all others that do. -/
structure Innermost (places : List Place) (d : Place) : Prop where
  surrounds : Surrounds places d
  inner : ∀ e, Surrounds places e → d ∈ e.everything

/-- Those of some places that tell where they stand, in order. -/
def counted (places : List Place) : List Place :=
  places.filter fun a => !a.node.isA .importDeclaration && !a.enclosingMembers.isEmpty

theorem commonMembers_eq (places : List Place) :
    commonMembers places =
      match counted places with
      | [] => []
      | a :: rest => a.enclosingMembers.filter fun d =>
          rest.all fun b => b.enclosingMembers.any (samePlace d) := by
  have hChains : ((places.filter (!·.node.isA .importDeclaration)).map
      (·.enclosingMembers)).filter (!·.isEmpty) = (counted places).map (·.enclosingMembers) := by
    rw [List.filter_map, List.filter_filter, counted]
    congr 2
    funext a
    exact Bool.and_comm _ _
  unfold commonMembers
  dsimp only
  rw [hChains]
  cases counted places with
  | nil => rfl
  | cons a rest =>
      rw [List.map_cons]
      simp only [List.all_map]
      rfl

variable {s : Subject} {source : List UInt8} {path : String} {places : List Place} {a d : Place}
  {g : Graph}

section Parsed

variable (hParse : SourceUnit.parse source path = .ok s.unit)
  (hPlaces : ∀ a ∈ places, a ∈ s.unit.top.everything)

include hPlaces in
theorem mem_counted_iff : a ∈ counted places ↔ Counts places a := by
  have hEnclosed (hMem : a ∈ places) :
      a.enclosingMembers.isEmpty = false ↔ ∃ d : Place, d.Encloses a := by
    rw [List.isEmpty_eq_false_iff_exists_mem]
    exact exists_congr fun d => Place.mem_enclosingMembers_iff s.unit.above_top
      (hPlaces a hMem)
  rw [counted, List.mem_filter, Bool.and_eq_true, Bool.not_eq_true', Bool.not_eq_true']
  constructor
  · rintro ⟨hMem, hCode, hSome⟩
    exact ⟨hMem, hCode, (hEnclosed hMem).1 hSome⟩
  · intro h
    exact ⟨h.mem, h.code, (hEnclosed h.mem).2 h.enclosed⟩

include hParse in
/-- A declaration is found again among those around another place just if it is one of them. -/
theorem any_samePlace_iff (hd : d ∈ s.unit.top.everything) (hNamed : d.isNamedMember = true)
    (ha : a ∈ s.unit.top.everything) :
    a.enclosingMembers.any (samePlace d) = true ↔ d ∈ a.enclosingMembers := by
  rw [List.any_eq_true]
  constructor
  · rintro ⟨e, he, hSame⟩
    obtain ⟨hChain, heNamed⟩ := Place.mem_chain_of_mem_enclosingMembers he
    have heMem := Place.mem_everything_of_mem_chain s.unit.above_top ha hChain
    rwa [SourceUnit.eq_of_same hParse hd hNamed heMem heNamed hSame]
  · intro hMem
    exact ⟨d, hMem, by simp [samePlace, Tree.same]⟩

include hParse hPlaces

/-- Looking up from the first place that counts finds the declarations around all of them. -/
theorem mem_commonMembers_iff : d ∈ commonMembers places ↔ Surrounds places d := by
  have hCounted (a : Place) : a ∈ counted places ↔ Counts places a := mem_counted_iff hPlaces
  have hMem (a : Place) (ha : a ∈ counted places) : a ∈ s.unit.top.everything :=
    hPlaces a ((hCounted a).1 ha).mem
  have hEncloses (a d : Place) (ha : a ∈ counted places) :
      d ∈ a.enclosingMembers ↔ d.Encloses a :=
    Place.mem_enclosingMembers_iff s.unit.above_top (hMem a ha)
  rw [commonMembers_eq]
  cases hFound : counted places with
  | nil =>
      refine iff_of_false List.not_mem_nil fun hAround => ?_
      obtain ⟨a, ha⟩ := hAround.some
      have hNone := (hCounted a).2 ha
      rw [hFound] at hNone
      cases hNone
  | cons first rest =>
      rw [hFound] at hCounted hMem hEncloses
      have hFirst := hMem first (List.mem_cons_self ..)
      dsimp only
      rw [List.mem_filter, List.all_eq_true]
      constructor
      · rintro ⟨hd, hRest⟩
        obtain ⟨hChain, hNamed⟩ := Place.mem_chain_of_mem_enclosingMembers hd
        have hdMem := Place.mem_everything_of_mem_chain s.unit.above_top hFirst hChain
        refine ⟨⟨first, (hCounted first).1 (List.mem_cons_self ..)⟩, fun a ha => ?_⟩
        have ha := (hCounted a).2 ha
        rw [← hEncloses a d ha]
        rcases List.mem_cons.1 ha with rfl | hLater
        · exact hd
        · exact (any_samePlace_iff hParse hdMem hNamed (hMem a ha)).1 (hRest a hLater)
      · intro hAround
        have hAll (a : Place) (ha : a ∈ first :: rest) : d ∈ a.enclosingMembers :=
          (hEncloses a d ha).2 (hAround.all a ((hCounted a).1 ha))
        have hd := hAll first (List.mem_cons_self ..)
        obtain ⟨hChain, hNamed⟩ := Place.mem_chain_of_mem_enclosingMembers hd
        have hdMem := Place.mem_everything_of_mem_chain s.unit.above_top hFirst hChain
        refine ⟨hd, fun a hLater => ?_⟩
        have ha := List.mem_cons_of_mem first hLater
        exact (any_samePlace_iff hParse hdMem hNamed (hMem a ha)).2 (hAll a ha)

omit hParse in
/-- They are found from the innermost one outwards. -/
theorem pairwise_commonMembers :
    (commonMembers places).Pairwise fun d e => d ∈ e.everything := by
  rw [commonMembers_eq]
  cases hFound : counted places with
  | nil => exact .nil
  | cons first rest =>
      have hFirst : first ∈ s.unit.top.everything := by
        refine hPlaces first (List.mem_of_mem_filter (?_ : first ∈ counted places))
        rw [hFound]
        exact List.mem_cons_self ..
      have hChain := Place.pairwise_chain s.unit.above_top hFirst
      exact hChain.sublist (List.filter_sublist.trans List.filter_sublist)

/-- Where a hunk stands: in the first entity of the innermost declaration around its places, which
has a node, or nowhere if there is no declaration around them. -/
theorem containerFor?_cases (hNodes : HasNodes s g) :
    (∃ d i c, Innermost places d ∧ (s.identities d).head? = some i ∧
      g.find? i.kind (s.revision.scope i.qualifiedName) = some c ∧
      containerFor? s g places = some c) ∨
    (∀ d, ¬ Surrounds places d) ∧ containerFor? s g places = none := by
  have hCommon (d : Place) : d ∈ commonMembers places ↔ Surrounds places d :=
    mem_commonMembers_iff hParse hPlaces
  have hPairs : (commonMembers places).Pairwise fun d e => d ∈ e.everything :=
    pairwise_commonMembers hPlaces
  unfold containerFor?
  cases hFound : commonMembers places with
  | nil =>
      right
      refine ⟨fun d hd => ?_, rfl⟩
      have hMem := (hCommon d).2 hd
      rw [hFound] at hMem
      cases hMem
  | cons d outer =>
      left
      rw [hFound] at hCommon hPairs
      have hAround := (hCommon d).1 (List.mem_cons_self ..)
      have hInner : Innermost places d := by
        refine ⟨hAround, fun e he => ?_⟩
        rcases List.mem_cons.1 ((hCommon e).2 he) with rfl | hOuter
        · exact Place.mem_everything_self e
        · exact (List.pairwise_cons.1 hPairs).1 e hOuter
      obtain ⟨a, ha⟩ := hAround.some
      obtain ⟨hNamed, hBelow⟩ := hAround.all a ha
      have hd : d ∈ s.unit.top.everything := Place.mem_everything_of_mem_chain
        s.unit.above_top (hPlaces a ha.mem) (Place.mem_chain_of_mem_everything hBelow)
      obtain ⟨i, rest, hFirst⟩ := List.exists_cons_of_ne_nil (Subject.identities_ne_nil
        (SourceUnit.readable_of_parse hParse) (SourceUnit.fielded_of_parse hParse) hd hNamed)
      have hSome := hNodes d hd hNamed i (by rw [hFirst]; exact List.mem_cons_self ..)
      obtain ⟨c, hc⟩ := Option.isSome_iff_exists.1 hSome
      refine ⟨d, i, c, hInner, by rw [hFirst]; rfl, hc, ?_⟩
      simp [hFirst, nodeFor?, hc]

end Parsed

end ChangeSplit.ChangeGraph
