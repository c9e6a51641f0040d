import ChangeSplit.Proofs.Java.Shape

/-! How many trees of one sort can stand right below a node. The shapes of single trees do not tell
this, but the patterns do: outside of repetitions each of them gives so many trees and no more. -/

namespace ChangeSplit.Java

namespace Tree

/-- What holds of the kind of every node in a tree, together with the shapes right below it. -/
inductive Each (P : Kind → List Shape → Prop) : Tree → Prop where
  | token (text : String) (start stop : Nat) : Each P (.token text start stop)
  | node {role : Option Role} {kind : Kind} {start stop : Nat} {children : List Tree}
      (hHere : P kind (children.map shape)) (hBelow : ∀ c ∈ children, Each P c) :
      Each P (.node role kind start stop children)

variable {P Q : Kind → List Shape → Prop}

theorem Each.here {t : Tree} {kind : Kind} (h : t.Each P) (hKind : t.kind? = some kind) :
    P kind (t.children.map shape) := by
  cases h with
  | token => cases hKind
  | node hHere _ =>
      cases hKind
      exact hHere

theorem Each.of_mem_children {t c : Tree} (h : t.Each P) (hc : c ∈ t.children) : c.Each P := by
  cases h with
  | token => cases hc
  | node _ hBelow => exact hBelow c hc

theorem Each.and {t : Tree} (hP : t.Each P) (hQ : t.Each Q) :
    t.Each fun kind shapes => P kind shapes ∧ Q kind shapes := by
  induction hP with
  | token text start stop => exact .token text start stop
  | node hHere hBelow ih =>
      cases hQ with
      | node hHere' hBelow' => exact .node ⟨hHere, hHere'⟩ fun c hc => ih c hc (hBelow' c hc)

theorem Each.mono {t : Tree} (h : t.Each P) (hSub : ∀ kind shapes, P kind shapes → Q kind shapes) :
    t.Each Q := by
  induction h with
  | token text start stop => exact .token text start stop
  | node hHere _ ih => exact .node (hSub _ _ hHere) ih

theorem Each.withRole {t : Tree} (h : t.Each P) (role : Role) : (t.withRole role).Each P := by
  cases h with
  | token text start stop => exact .token text start stop
  | node hHere hBelow => exact .node hHere hBelow

theorem Conforms.each {schema : Schema} {tokens : List Token} {t : Tree}
    (h : t.Conforms schema tokens) :
    t.Each fun kind shapes => ∀ s ∈ shapes, schema.allows kind s = true := by
  induction h with
  | token text start stop => exact .token text start stop
  | node hAllowed _ _ ih =>
      refine .node (fun s hs => ?_) ih
      obtain ⟨c, hc, rfl⟩ := List.mem_map.1 hs
      exact hAllowed c hc

mutual

/-- A comment that is put into a tree leaves alone what does not depend on comments. -/
theorem Each.insert {comment : Tree} (hComment : comment.Each P)
    (hAdd : ∀ kind before after, P kind (before ++ after) →
      P kind (before ++ comment.shape :: after)) :
    ∀ t : Tree, t.Each P → (Tree.insert comment t).Each P
  | .token text start stop, _ => .token text start stop
  | .node _ kind _ _ children, .node hHere hBelow => by
      rw [Tree.insert]
      have hAmong := each_insertAmong hComment hAdd kind [] children hHere hBelow
      exact .node hAmong.1 hAmong.2

theorem each_insertAmong {comment : Tree} (hComment : comment.Each P)
    (hAdd : ∀ kind before after, P kind (before ++ after) →
      P kind (before ++ comment.shape :: after)) (kind : Kind) :
    ∀ (before : List Shape) (ts : List Tree), P kind (before ++ ts.map shape) →
      (∀ t ∈ ts, t.Each P) →
      P kind (before ++ (insertAmong comment ts).map shape) ∧
        ∀ t ∈ insertAmong comment ts, t.Each P
  | before, [], hHere, _ => by
      refine ⟨hAdd kind before [] (by simpa using hHere), fun t ht => ?_⟩
      rw [List.mem_singleton.1 ht]
      exact hComment
  | before, t :: rest, hHere, hBelow => by
      have hHead : t.Each P := hBelow t (List.mem_cons_self ..)
      rw [insertAmong]
      split
      case isTrue =>
        have hRest := each_insertAmong hComment hAdd kind (before ++ [t.shape]) rest
          (by simpa using hHere) fun u hu => hBelow u (List.mem_cons_of_mem _ hu)
        exact ⟨by simpa using hRest.1, List.forall_mem_cons.2 ⟨hHead, hRest.2⟩⟩
      case isFalse =>
        split
        case isTrue =>
          refine ⟨by simpa using hHere, List.forall_mem_cons.2 ⟨?_, fun u hu => ?_⟩⟩
          · exact Each.insert hComment hAdd t hHead
          · exact hBelow u (List.mem_cons_of_mem _ hu)
        case isFalse =>
          exact ⟨by simpa using hAdd kind before _ hHere, List.forall_mem_cons.2 ⟨hComment, hBelow⟩⟩

end

end Tree

namespace Pattern

variable {ρ : Type}

/-- For a test of shapes, the greatest number of trees that pass it, where there is one. -/
abbrev Bound := (Shape → Bool) → Option Nat

/-- Whether no more of some trees pass a test than a bound says. -/
def Bound.Covers (b : Bound) (ts : List Tree) : Prop :=
  ∀ test n, b test = some n → (ts.map Tree.shape).countP test ≤ n

/-- The bound on the trees that a pattern gives. `rules` are the bounds for each rule, and `left` is
the one for the pending trees. -/
def most? (rules : ρ → Bound) : Bound → Pattern ρ → Bound
  | _, empty, _ | _, ahead _, _ | _, notAhead _, _ => some 0
  | _, mark _, test | _, joined _, test => some (if test {} then 1 else 0)
  | _, name kind _, test | _, node kind _, test => some (if test (.plain kind) then 1 else 0)
  | _, literal, _ => some 1
  | _, rule r, test => rules r test
  | left, seq first second, test =>
    (most? rules left first test).bind fun m => (most? rules left second test).map (m + ·)
  | left, alt first second, test =>
    (most? rules left first test).bind fun m => (most? rules left second test).map (max m ·)
  | left, many p, test => (most? rules left p test).filter (· = 0)
  | left, role r p, test => most? rules left p fun s => test (s.withRole r)
  | left, only _ p, test => most? rules left p test
  | left, pending, test => left test
  | left, wrap base whole, test => most? rules (most? rules left base) whole test
  | _, grow _, _ => none

/-- Whether every node of some kinds that a pattern makes has at most one tree right below it that
passes a test. -/
def single (rules : ρ → Bound) (kinds : Kind → Bool) (test : Shape → Bool) :
    Bound → Pattern ρ → Bool
  | left, node kind p =>
    (!kinds kind || (most? rules left p test).any (· ≤ 1)) && single rules kinds test left p
  | left, seq first second | left, alt first second =>
    single rules kinds test left first && single rules kinds test left second
  | left, many p | left, role _ p | left, only _ p => single rules kinds test left p
  | left, wrap base whole =>
    single rules kinds test left base && single rules kinds test (most? rules left base) whole
  | _, grow step => single rules kinds test (fun _ => none) step
  | _, empty | _, mark _ | _, joined _ | _, name .. | _, literal | _, rule _ | _, ahead _
  | _, notAhead _ | _, pending => true

theorem Bound.covers_none (ts : List Tree) : Bound.Covers (fun _ => none) ts :=
  fun _ _ h => by cases h

theorem Bound.Covers.countP_le {b : Bound} {ts : List Tree} {test : Shape → Bool} {n : Nat}
    (h : b.Covers ts) (hBound : b test = some n) : (ts.map Tree.shape).countP test ≤ n :=
  h test n hBound

section

variable {g : Grammar ρ} {rules : ρ → Bound}

/-- What a pattern reads keeps to the bound of the pattern. -/
theorem Reads.covers
    (hRules : ∀ r left given ts rest, Reads g (g r) left given ts rest → (rules r).Covers ts)
    {p : Pattern ρ} {left ts : List Tree} {given rest : List Token} {known : Bound}
    (h : Reads g p left given ts rest) (hLeft : known.Covers left) :
    (most? rules known p).Covers ts := by
  induction h generalizing known with
  | empty | noMore | ahead | notAhead =>
      intro test n _
      simp
  | mark | joined | name =>
      intro test n hMost
      cases hMost
      exact Nat.le_of_eq List.countP_singleton
  | literal =>
      intro test n hMost
      cases hMost
      exact List.countP_le_length
  | rule hBody => exact hRules _ _ _ _ _ hBody
  | seq _ _ ihFirst ihSecond =>
      intro test n hMost
      obtain ⟨m, hFirst, hMost⟩ := Option.bind_eq_some_iff.1 hMost
      obtain ⟨k, hSecond, rfl⟩ := Option.map_eq_some_iff.1 hMost
      rw [List.map_append, List.countP_append]
      exact Nat.add_le_add ((ihFirst hLeft).countP_le hFirst) ((ihSecond hLeft).countP_le hSecond)
  | either _ ih =>
      intro test n hMost
      obtain ⟨m, hFirst, hMost⟩ := Option.bind_eq_some_iff.1 hMost
      obtain ⟨k, _, rfl⟩ := Option.map_eq_some_iff.1 hMost
      exact Nat.le_trans ((ih hLeft).countP_le hFirst) (Nat.le_max_left m k)
  | or _ ih =>
      intro test n hMost
      obtain ⟨m, _, hMost⟩ := Option.bind_eq_some_iff.1 hMost
      obtain ⟨k, hSecond, rfl⟩ := Option.map_eq_some_iff.1 hMost
      exact Nat.le_trans ((ih hLeft).countP_le hSecond) (Nat.le_max_right m k)
  | more _ _ ihOne ihMore =>
      intro test n hMost
      obtain ⟨hOne, hZero⟩ := Option.filter_eq_some_iff.1 hMost
      rw [decide_eq_true_eq] at hZero
      subst hZero
      rw [List.map_append, List.countP_append]
      exact Nat.add_le_add ((ihOne hLeft).countP_le hOne) ((ihMore hLeft).countP_le hMost)
  | node _ hOver _ =>
      intro test n hMost
      cases hMost
      obtain ⟨first, last, _, _, rfl⟩ := Tree.exists_of_over? hOver
      exact Nat.le_of_eq List.countP_singleton
  | @role r _ _ ts _ _ _ ih =>
      intro test n hMost
      have hShapes : (ts.map (Tree.withRole r)).map Tree.shape =
          (ts.map Tree.shape).map (Shape.withRole r) := by
        simp [Tree.shape_withRole]
      rw [hShapes, List.countP_map]
      exact (ih hLeft).countP_le hMost
  | only _ _ ih => exact ih hLeft
  | pending => exact hLeft
  | wrap _ _ ihBase ihWhole => exact ihWhole (ihBase hLeft)
  | grown | grow =>
      intro test n hMost
      cases hMost

/-- The bounds that show without looking into other rules. -/
def apart (g : Grammar ρ) (r : ρ) : Bound := most? (fun _ _ => none) (fun _ => none) (g r)

theorem Reads.covers_apart {r : ρ} {left ts : List Tree} {given rest : List Token}
    (h : Reads g (g r) left given ts rest) : (apart g r).Covers ts :=
  h.covers (fun _ _ _ ts _ _ => Bound.covers_none ts) (Bound.covers_none left)

/-- Whether a node of one of the kinds has at most one tree right below it that passes a test. -/
def AtMostOne (kinds : Kind → Bool) (test : Shape → Bool) (kind : Kind) (shapes : List Shape) :
    Prop :=
  kinds kind = true → shapes.countP test ≤ 1

variable {kinds : Kind → Bool} {test : Shape → Bool}

theorem each_leafOf (hPlain : ∀ kind, test (.plain kind) = false) (kind : Kind) (t : Token) :
    (leafOf kind t).Each (AtMostOne kinds test) := by
  refine .node (fun _ => ?_) fun c hc => ?_
  · rw [List.map_map, List.countP_map, List.countP_eq_zero.2]
    · exact Nat.zero_le 1
    · intro part _
      show ¬ test (.plain part.kind) = true
      simp [hPlain]
  · obtain ⟨part, _, rfl⟩ := List.mem_map.1 hc
    exact .node (fun _ => Nat.zero_le 1) (List.forall_mem_nil _)

/-- If the check succeeds for all rules, then it tells the truth about what is read. -/
theorem Reads.each (hPlain : ∀ kind, test (.plain kind) = false)
    (hRules : ∀ r, single (apart g) kinds test (fun _ => none) (g r) = true)
    {p : Pattern ρ} {left ts : List Tree} {given rest : List Token} {known : Bound}
    (h : Reads g p left given ts rest) (hSingle : single (apart g) kinds test known p = true)
    (hKnown : known.Covers left) (hLeft : ∀ t ∈ left, t.Each (AtMostOne kinds test)) :
    ∀ t ∈ ts, t.Each (AtMostOne kinds test) := by
  have hApart : ∀ r left given ts rest, Reads g (g r) left given ts rest →
      (apart g r).Covers ts := fun _ _ _ _ _ h => h.covers_apart
  induction h generalizing known with
  | empty | noMore | ahead | notAhead => exact List.forall_mem_nil _
  | mark | joined => exact List.forall_mem_singleton.2 (.token ..)
  | name | literal => exact List.forall_mem_singleton.2 (each_leafOf hPlain ..)
  | rule _ ih => exact ih (hRules _) (Bound.covers_none _) hLeft
  | seq _ _ ihFirst ihSecond =>
      rw [single, Bool.and_eq_true] at hSingle
      exact List.forall_mem_append.2
        ⟨ihFirst hSingle.1 hKnown hLeft, ihSecond hSingle.2 hKnown hLeft⟩
  | either _ ih =>
      rw [single, Bool.and_eq_true] at hSingle
      exact ih hSingle.1 hKnown hLeft
  | or _ ih =>
      rw [single, Bool.and_eq_true] at hSingle
      exact ih hSingle.2 hKnown hLeft
  | more _ _ ihOne ihMore =>
      have hOne := ihOne (by rwa [single] at hSingle) hKnown hLeft
      exact List.forall_mem_append.2 ⟨hOne, ihMore hSingle hKnown hLeft⟩
  | @node kind _ _ ts _ _ _ hInner hOver ih =>
      rw [single, Bool.and_eq_true] at hSingle
      have hBelow := ih hSingle.2 hKnown hLeft
      have hHere : AtMostOne kinds test kind (ts.map Tree.shape) := by
        intro hKind
        simp only [hKind, Bool.not_true, Bool.false_or, Option.any_eq_true,
          decide_eq_true_eq] at hSingle
        obtain ⟨n, hMost, hOne⟩ := hSingle.1
        exact Nat.le_trans ((hInner.covers hApart hKnown).countP_le hMost) hOne
      obtain ⟨first, last, _, _, rfl⟩ := Tree.exists_of_over? hOver
      exact List.forall_mem_singleton.2 (.node hHere hBelow)
  | role _ ih =>
      intro t ht
      obtain ⟨u, hu, rfl⟩ := List.mem_map.1 ht
      exact (ih (by rwa [single] at hSingle) hKnown hLeft u hu).withRole _
  | only _ _ ih => exact ih (by rwa [single] at hSingle) hKnown hLeft
  | pending => exact hLeft
  | wrap hBase _ ihBase ihWhole =>
      rw [single, Bool.and_eq_true] at hSingle
      exact ihWhole hSingle.2 (hBase.covers hApart hKnown) (ihBase hSingle.1 hKnown hLeft)
  | grown => exact hLeft
  | grow _ _ ihStep ihMore =>
      have hStep := ihStep (by rwa [single] at hSingle) (Bound.covers_none _) hLeft
      exact ihMore (by rwa [single] at hSingle ⊢) (Bound.covers_none _) hStep

end

end Pattern

end ChangeSplit.Java
