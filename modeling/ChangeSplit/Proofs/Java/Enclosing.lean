import ChangeSplit.Proofs.Java.Anchor
import ChangeSplit.Proofs.Java.Covered
import ChangeSplit.Proofs.Java.Naming

/-! What encloses what. On the way up from a place one meets whatever it is below, so looking up
gives the declarations that enclose the place, from the innermost one outwards. Declarations that
can be named are told apart by their kinds and spans. Only what is in the body of a type could have
the span of the type, and there the name of the type takes its room. -/

namespace ChangeSplit.Java

namespace Place

/-- Whether a declaration that can be named has a place in it, or is that place. -/
def Encloses (d a : Place) : Prop := d.isNamedMember = true ∧ a ∈ d.everything

variable {top p q a b c d body name : Place}

theorem mem_chain_self (p : Place) : p ∈ p.chain := by
  obtain ⟨rest, hChain⟩ := chain_eq p
  rw [hChain]
  exact List.mem_cons_self ..

theorem mem_chain_of_mem_everything (h : q ∈ p.everything) : p ∈ q.chain := by
  refine forall_mem_everything (P := fun q => p ∈ q.chain) (mem_chain_self p) ?_ q h
  intro q hq c hc
  rw [chain_of_mem_namedChildren hc]
  exact List.mem_cons_of_mem _ hq

theorem pairwise_chain (hTop : top.above = []) (hp : p ∈ top.everything) :
    p.chain.Pairwise fun c d => c ∈ d.everything := by
  have hSelf : top ∈ top.everything := mem_everything_self top
  refine (forall_mem_everything (P := fun p => p ∈ top.everything ∧
    p.chain.Pairwise fun c d => c ∈ d.everything) ⟨hSelf, ?_⟩ ?_ p hp).2
  · rw [chain_of_above_eq_nil hTop]
    exact List.pairwise_singleton _ _
  · rintro p ⟨hMem, hPairs⟩ c hc
    have hcMem := mem_everything_of_mem_namedChildren hMem hc
    refine ⟨hcMem, ?_⟩
    rw [chain_of_mem_namedChildren hc, List.pairwise_cons]
    refine ⟨fun d hd => mem_everything_of_mem_chain_self hTop hcMem ?_, hPairs⟩
    rw [chain_of_mem_namedChildren hc]
    exact List.mem_cons_of_mem _ hd

theorem mem_enclosingMembers_iff (hTop : top.above = []) (ha : a ∈ top.everything) :
    d ∈ a.enclosingMembers ↔ d.Encloses a := by
  constructor
  · intro hd
    obtain ⟨hChain, hNamed⟩ := mem_chain_of_mem_enclosingMembers hd
    exact ⟨hNamed, mem_everything_of_mem_chain_self hTop ha hChain⟩
  · rintro ⟨hNamed, hBelow⟩
    exact List.mem_filter.2 ⟨mem_chain_of_mem_everything hBelow, hNamed⟩

theorem isComment_of_isDeclaration (h : p.kindIs Kind.isDeclaration = true) :
    p.node.isComment = false := by
  obtain ⟨kind, hKind, hIs⟩ := exists_kind h
  rw [Tree.isComment, Tree.kindIs, hKind, Option.any_some]
  cases kind <;> first | rfl | cases hIs

section Tidy

/-- Two places right below a tidy one have nothing in common. -/
theorem apart_inner (h : p.node.All Tree.Tidy) (hc : c ∈ p.inner) (hd : d ∈ p.inner)
    (hNe : c ≠ d) : c.node.stop ≤ d.node.start ∨ d.node.stop ≤ c.node.start := by
  have hSymm : Std.Symm fun c d : Place =>
      c.node.stop ≤ d.node.start ∨ d.node.stop ≤ c.node.start := ⟨fun _ _ => Or.symm⟩
  have hBeside : p.inner.Pairwise fun c d =>
      c.node.stop ≤ d.node.start ∨ d.node.stop ≤ c.node.start := (row_inner h).2.imp Or.inl
  exact hBeside.forall hc hd hNe

/-- Of two places whose spans meet, one is below the other. -/
theorem below_or_below (h : p.node.All Tree.Tidy) (ha : a ∈ p.everything) (hb : b ∈ p.everything)
    (haSolid : a.node.isComment = false) (hbSolid : b.node.isComment = false)
    (hMeet : a.node.start < b.node.stop) (hMeet' : b.node.start < a.node.stop) :
    a ∈ b.everything ∨ b ∈ a.everything := by
  induction p using induction with
  | h p ih =>
      by_cases haTop : a = p
      · right
        rwa [haTop]
      by_cases hbTop : b = p
      · left
        rwa [hbTop]
      obtain ⟨c, hc, hac⟩ := exists_inner h (under_iff.2 ⟨ha, haTop⟩) haSolid
      obtain ⟨d, hd, hbd⟩ := exists_inner h (under_iff.2 ⟨hb, hbTop⟩) hbSolid
      by_cases hSame : c = d
      · rw [← hSame] at hbd
        exact ih c (mem_inner.1 hc).1 (all_of_mem_inner h hc) hac hbd
      · have hA := within_of_mem_everything (all_of_mem_inner h hc) hac haSolid
        have hB := within_of_mem_everything (all_of_mem_inner h hd) hbd hbSolid
        rcases apart_inner h hc hd hSame with hBefore | hBehind <;> omega

theorem NamedType.exists_body (h : p.NamedType) {m : Place} (hm : m ∈ p.members) :
    ∃ body ∈ p.namedChildren, body.Host ∧ m ∈ body.everything := by
  obtain ⟨_, body, hBody, hHost, hPart⟩ := h.exists_host hm
  refine ⟨body, hBody, hHost, ?_⟩
  have hSelf := mem_everything_self body
  rcases hPart with hm | ⟨part, hPart, _, hm⟩
  · exact mem_everything_of_mem_namedChildren hSelf hm
  · exact mem_everything_of_mem_namedChildren (mem_everything_of_mem_namedChildren hSelf hPart) hm

/-- What is in the body of a type leaves out the name of the type. -/
theorem NamedType.span_ne (h : p.NamedType) (hTidy : p.node.All Tree.Tidy) (hName : name ∈ p.inner)
    (hRole : name.node.role? = some .name) (hBody : body ∈ p.namedChildren) (hHost : body.Host)
    (hq : q ∈ body.everything) (hSolid : q.node.isComment = false) :
    q.node.start ≠ p.node.start ∨ q.node.stop ≠ p.node.stop := by
  have hInner : body ∈ p.inner := by
    refine mem_inner.2 ⟨hBody, ?_⟩
    obtain ⟨kind, hKind, hIs⟩ := exists_kind hHost.type
    rw [Tree.isComment, Tree.kindIs, hKind, Option.any_some]
    cases kind <;> first | rfl | cases hIs
  have hNe : name ≠ body := by
    rintro rfl
    cases hRole.symm.trans ((h.isTypeBody_iff hBody).1 hHost.type)
  have hSpan := (row_inner hTidy).1 name hName
  have hWithin := within_of_mem_everything (all_of_mem_inner hTidy hInner) hq hSolid
  rcases apart_inner hTidy hName hInner hNe with hBefore | hBehind <;> omega

end Tidy

end Place

namespace SourceUnit

open Place

variable {unit : SourceUnit} {source : List UInt8} {path : String} {d e p : Place}

/-- A type that can be named has its name right below it. -/
theorem exists_name (h : parse source path = .ok unit) (hp : p ∈ unit.top.everything)
    (hType : p.isType = true) : ∃ name ∈ p.inner, name.node.role? = some .name := by
  have hHolds : unit.Holds p.node := (holds_of_parse h).of_mem_everything (p := unit.top) hp
  have hNamed : unit.top.node.Each Named := named_of_parse h
  obtain ⟨c, hc, hWord⟩ := hHolds.exists_name (each_of_mem_everything hNamed hp) hType
  have hName : p.childAs? .name = some (p.descend c) := by rw [childAs?, hc, Option.map_some]
  refine ⟨p.descend c, mem_inner.2 ⟨mem_namedChildren_of_childAs? hName, ?_⟩,
    role?_of_childAs? hName⟩
  simp [descend, Tree.isComment, Tree.kindIs, hWord, Kind.isComment]

/-- What can be named inside of a declaration that can be named has a span of its own. -/
theorem eq_of_below (h : parse source path = .ok unit) (hd : d ∈ unit.top.everything)
    (hdNamed : d.isNamedMember = true) (heNamed : e.isNamedMember = true)
    (hBelow : e ∈ d.everything) (hStart : e.node.start = d.node.start)
    (hStop : e.node.stop = d.node.stop) : e = d := by
  have hAll : unit.top.node.Each Bodied := (readable_of_parse h).bodied
  have hBodied := each_of_mem_everything hAll hd
  have hMem : e ∈ d.namedIn := List.mem_filter.2 ⟨hBelow, heNamed⟩
  cases hType : d.isType with
  | false =>
      have hQuiet := quiet_of_isDeclaration hBodied (isDeclaration_of_isNamedMember hdNamed) hType
      rw [hQuiet.namedIn] at hMem
      exact List.mem_singleton.1 (List.mem_filter.1 hMem).1
  | true =>
      have hNamedType : d.NamedType := ⟨hBodied, hdNamed, hType⟩
      rw [hNamedType.namedIn_eq] at hMem
      rcases List.mem_cons.1 hMem with hSame | hMem
      · exact hSame
      · obtain ⟨m, hm, heIn⟩ := List.mem_flatMap.1 hMem
        obtain ⟨body, hBody, hHost, hmBelow⟩ := hNamedType.exists_body hm
        obtain ⟨name, hName, hRole⟩ := exists_name h hd hType
        have hTidy := all_of_mem_everything (p := unit.top) (tidy_of_parse h) hd
        have hSpan := hNamedType.span_ne hTidy hName hRole hBody hHost
          (mem_everything_trans hmBelow (List.mem_filter.1 heIn).1)
          (isComment_of_isDeclaration (isDeclaration_of_isNamedMember heNamed))
        omega

/-- Declarations of a source that can be named are told apart by their kinds and spans. -/
theorem eq_of_same (h : parse source path = .ok unit) (hd : d ∈ unit.top.everything)
    (hdNamed : d.isNamedMember = true) (he : e ∈ unit.top.everything)
    (heNamed : e.isNamedMember = true) (hSame : d.node.same e.node = true) : d = e := by
  simp only [Tree.same, Bool.and_eq_true, decide_eq_true_eq] at hSame
  obtain ⟨⟨_, hStart⟩, hStop⟩ := hSame
  have hdSolid := isComment_of_isDeclaration (isDeclaration_of_isNamedMember hdNamed)
  have heSolid := isComment_of_isDeclaration (isDeclaration_of_isNamedMember heNamed)
  have hNe : d ≠ unit.top := by
    rintro rfl
    cases hdNamed
  have hProper := proper_of_under (p := unit.top) (tidy_of_parse h) (under_iff.2 ⟨hd, hNe⟩) hdSolid
  rcases below_or_below (p := unit.top) (tidy_of_parse h) hd he hdSolid heSolid
    (by omega) (by omega) with hBelow | hBelow
  · exact eq_of_below h he heNamed hdNamed hBelow hStart hStop
  · exact (eq_of_below h hd hdNamed heNamed hBelow hStart.symm hStop.symm).symm

end SourceUnit

end ChangeSplit.Java
