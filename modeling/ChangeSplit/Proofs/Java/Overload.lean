import ChangeSplit.Proofs.Java.Identity
import ChangeSplit.Proofs.Java.Naming
import ChangeSplit.Proofs.Java.TypeText

/-! The full names of the methods of a type that have one name. They differ exactly if the types of
the parameters do, as far as these show in the names. -/

namespace ChangeSplit.Java

section MethodName

/-- Texts without commas can be told from what they are joined to with commas. -/
theorem intercalate_comma_eq_iff {texts others : List String}
    (h : ∀ s ∈ texts, s ≠ "" ∧ ',' ∉ s.toList) (h' : ∀ s ∈ others, s ≠ "" ∧ ',' ∉ s.toList) :
    ",".intercalate texts = ",".intercalate others ↔ texts = others := by
  refine ⟨fun hSame => ?_, congrArg _⟩
  have hSplit {l : List String} (hl : ∀ s ∈ l, s ≠ "" ∧ ',' ∉ s.toList) (hNe : l ≠ []) :
      (",".intercalate l).toList.splitOn ',' = l.map String.toList := by
    rw [String.toList_intercalate]
    refine List.splitOn_intercalate ',' ?_ (by simpa using hNe)
    exact List.forall_mem_map.2 fun s hs => (hl s hs).2
  have hNe {l : List String} (hl : ∀ s ∈ l, s ≠ "" ∧ ',' ∉ s.toList) (hl' : l ≠ []) :
      ",".intercalate l ≠ "" := by
    obtain ⟨s, hs⟩ := List.exists_mem_of_ne_nil l hl'
    exact intercalate_ne_empty hs (hl s hs).1
  by_cases hNone : texts = []
  · by_contra hOther
    subst hNone
    exact hNe h' (Ne.symm hOther) hSame.symm
  · by_cases hNone' : others = []
    · subst hNone'
      exact absurd hSame (hNe h hNone)
    · have hTexts := hSplit h hNone
      rw [hSame, hSplit h' hNone'] at hTexts
      exact (List.map_inj_right fun _ _ => String.toList_inj.1).1 hTexts.symm

/-- Methods with one name are told apart by the types of their parameters in the names. -/
theorem methodName_eq_iff {name : String} {ps qs : List Parameter}
    (h : ∀ s ∈ ps.map (·.signature), s ≠ "" ∧ ',' ∉ s.toList)
    (h' : ∀ s ∈ qs.map (·.signature), s ≠ "" ∧ ',' ∉ s.toList) :
    methodName name ps = methodName name qs ↔ ps.map (·.signature) = qs.map (·.signature) := by
  rw [← intercalate_comma_eq_iff h h', methodName, methodName, String.append_left_inj,
    String.append_right_inj]

end MethodName

namespace SourceUnit

/-- The type of a parameter without spaces, `written` being how a type is written. Dimensions behind
the name of the parameter are no part of it. -/
def typeOfParameter (written : Tree → String) (q : Tree) : List Char :=
  spaceless ((parameterType? q).elim "" written ++ if q.isA .spreadParameter then "..." else "")

/-- The types of the parameters of a method. -/
def parameterTypes (written : Tree → String) (t : Tree) : List (List Char) :=
  (parameterNodes t).map (typeOfParameter written)

/-- Whether the types of all parameters of a method are plainly written. -/
def PlainParameters (unit : SourceUnit) (t : Tree) : Prop :=
  ∀ q ∈ parameterNodes t, ∃ type ∈ parameterType? q, unit.PlainType type

instance (unit : SourceUnit) (t : Tree) : Decidable (unit.PlainParameters t) :=
  inferInstanceAs
    (Decidable (∀ q ∈ parameterNodes t, ∃ type ∈ parameterType? q, unit.PlainType type))

variable {unit : SourceUnit} {source : List UInt8} {path : String} {cs : List Char}
  {tokens : List Token} {p m m' : Place} {t q : Tree}

theorem parameterTypes_congr {written written' : Tree → String}
    (h : ∀ q ∈ parameterNodes t, ∀ type ∈ parameterType? q, written type = written' type) :
    parameterTypes written t = parameterTypes written' t := by
  refine List.map_congr_left fun q hq => ?_
  rw [typeOfParameter, typeOfParameter]
  cases hType : parameterType? q with
  | none => rfl
  | some type => rw [Option.elim_some, Option.elim_some, h q hq type hType]

/-- With no more than one list of type arguments in each type, the types show without them. -/
theorem parameterTypes_shownText
    (h : ∀ q ∈ parameterNodes t, ∀ type ∈ parameterType? q, type.argumentLists.length ≤ 1) :
    parameterTypes unit.shownText t = parameterTypes unit.outerText t :=
  parameterTypes_congr fun q hq type hType => shownText_eq_outerText unit (h q hq type hType)

theorem mem_children_of_parameterType? (h : parameterType? q = some t) : t ∈ q.children := by
  unfold parameterType? at h
  cases hRole : q.childAs? .type with
  | some type =>
    rw [hRole] at h
    cases h
    exact List.mem_of_find?_eq_some hRole
  | none =>
    rw [hRole] at h
    exact (List.mem_filter.1 (List.mem_of_find?_eq_some h)).1

/-- What a plainly written type of a parameter is in the name of its method. -/
theorem Scanned.Written.signature (h : Scanned.Written unit t) (hType : parameterType? q = some t) :
    signatureType (Subject.TightSubject.writtenParameter unit q) =
        String.ofList (typeOfParameter unit.shownText q) ∧
      typeOfParameter unit.shownText q ≠ [] ∧ ',' ∉ typeOfParameter unit.shownText q := by
  have hWritten : Subject.TightSubject.writtenParameter unit q =
      unit.text t ++ if q.isA .spreadParameter then "..." else "" := by
    rw [Subject.TightSubject.writtenParameter, hType]
    split <;> simp [text?]
  have hDots : ∀ c ∈ (if q.isA .spreadParameter then "..." else "" : String).toList,
      c ≠ '<' ∧ c ≠ '>' ∧ c ≠ ',' := by
    split <;> simp
  have hShown : typeOfParameter unit.shownText q =
      spaceless (unit.shownText t ++ if q.isA .spreadParameter then "..." else "") := by
    rw [typeOfParameter, hType, Option.elim_some]
  refine ⟨?_, ?_, fun hComma => ?_⟩
  · rw [hWritten, h.signatureType_eq fun c hc => ⟨(hDots c hc).1, (hDots c hc).2.1⟩, hShown]
  · obtain ⟨c, hc, hSpace⟩ := h.visible
    rw [hShown, spaceless_append]
    exact List.append_ne_nil_of_left_ne_nil
      (List.ne_nil_of_mem (List.mem_filter.2 ⟨hc, by simpa using hSpace⟩)) _
  · rw [hShown, spaceless_append] at hComma
    rcases List.mem_append.1 hComma with hc | hc
    · exact (h.plain _ (List.mem_filter.1 hc).1).2.2 rfl
    · exact (hDots _ (List.mem_filter.1 hc).1).2.2 rfl

/-- The types of the parameters in the name of a method are what shows of them. -/
theorem Scanned.signatures (h : unit.Scanned cs tokens) (symbols : Symbols)
    (hSeated : ∀ q ∈ parameterNodes t, q.All (Tree.Seated unit.solid))
    (hPlain : unit.PlainParameters t) :
    (parametersIn unit symbols t).map (·.signature) =
        (parameterTypes unit.shownText t).map String.ofList ∧
      ∀ s ∈ (parametersIn unit symbols t).map (·.signature), s ≠ "" ∧ ',' ∉ s.toList := by
  have hEach (q : Tree) (hq : q ∈ parameterNodes t) :
      signatureType (Subject.TightSubject.writtenParameter unit q) =
          String.ofList (typeOfParameter unit.shownText q) ∧
        typeOfParameter unit.shownText q ≠ [] ∧ ',' ∉ typeOfParameter unit.shownText q := by
    obtain ⟨type, hType, hPlain⟩ := hPlain q hq
    exact (h.written ((hSeated q hq).of_mem_children (mem_children_of_parameterType? hType))
      hPlain).signature hType
  have hSame : (parametersIn unit symbols t).map (·.signature) =
      (parameterTypes unit.shownText t).map String.ofList := by
    rw [Subject.TightSubject.map_signature_parametersIn, parameterTypes, List.map_map]
    exact List.map_congr_left fun q hq => (hEach q hq).1
  refine ⟨hSame, ?_⟩
  rw [hSame, parameterTypes, List.map_map]
  refine List.forall_mem_map.2 fun q hq => ⟨?_, ?_⟩
  · rw [ne_eq, ← String.toList_inj, Function.comp_apply, String.toList_ofList]
    exact (hEach q hq).2.1
  · rw [Function.comp_apply, String.toList_ofList]
    exact (hEach q hq).2.2

/-- The parameters of the members of types have their places among the tokens. -/
theorem seated_of_mem_parameterNodes (h : parse source path = .ok unit) (hp : p ∈ unit.types)
    (hm : m ∈ p.members) (hq : q ∈ parameterNodes m.node) : q.All (Tree.Seated unit.solid) := by
  have hTop : p ∈ unit.top.everything := by
    rw [(readable_of_parse h).types_eq] at hp
    exact (List.mem_filter.1 hp).1
  have hBelow : ∀ c ∈ p.node.children, c.All (Tree.Seated unit.solid) :=
    Place.forall_mem_everything
      (P := fun p => ∀ c ∈ p.node.children, c.All (Tree.Seated unit.solid)) (seated_of_parse h)
      (fun _ hp _ hc _ => (hp _ (Place.node_mem_of_mem_namedChildren hc)).of_mem_children) p hTop
  have hSeated : m.node.All (Tree.Seated unit.solid) :=
    Place.node_of_mem_members (P := Tree.All (Tree.Seated unit.solid))
      (fun _ ht _ => ht.of_mem_children) hBelow hm
  exact hSeated.of_mem_parameterNodes hq

/-- Methods of a type with one name have different full names exactly if the types of their
parameters show differently. -/
theorem methodName_parametersIn_eq_iff (h : parse source path = .ok unit) (hp : p ∈ unit.types)
    (hm : m ∈ p.members) (hm' : m' ∈ p.members) (hPlain : unit.PlainParameters m.node)
    (hPlain' : unit.PlainParameters m'.node) (name : String) (symbols : Symbols) :
    methodName name (parametersIn unit symbols m.node) =
        methodName name (parametersIn unit symbols m'.node) ↔
      parameterTypes unit.shownText m.node = parameterTypes unit.shownText m'.node := by
  obtain ⟨cs, tokens, hScanned⟩ := exists_scanned_of_parse h
  obtain ⟨hSame, hTexts⟩ := hScanned.signatures symbols
    (fun q hq => seated_of_mem_parameterNodes h hp hm hq) hPlain
  obtain ⟨hSame', hTexts'⟩ := hScanned.signatures symbols
    (fun q hq => seated_of_mem_parameterNodes h hp hm' hq) hPlain'
  rw [methodName_eq_iff hTexts hTexts', hSame, hSame']
  exact List.map_inj_right fun _ _ => String.ofList_inj.1

-- What is between the lists of type arguments of one type does not show, nor do dimensions behind
-- the name of a parameter.
example : (parse (Utf8.encode
    "class A\x7bvoid f(B<C>.D<C> p, int n)\x7b\x7d void f(B<C>.E<C> p, int n[])\x7b\x7d\x7d")
    "A.java").toOption.map
      (fun unit => (Subject.ofUnit unit .base 0).entities.map (·.qualifiedName)) =
        some ["A", "A.f(B,int)", "A.f(B,int)"] := by
  decide +kernel

end SourceUnit

end ChangeSplit.Java
