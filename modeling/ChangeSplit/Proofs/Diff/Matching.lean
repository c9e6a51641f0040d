import ChangeSplit.Diff.Matching
import Mathlib.Data.List.Nodup

/-! Which changed file the path of a source leads to. When each revision of a file lies in the
folder of its revision, the path gives the revision back. It gives the file back too, unless an
earlier file has the whole path for its own. -/

namespace ChangeSplit

theorem Text.pieces_append {separator : Char → Bool} {cs rest : List Char} {c : Char}
    (hPlain : ∀ d ∈ cs, separator d = false) (hCut : separator c = true) :
    pieces separator (cs ++ c :: rest) = cs :: pieces separator rest := by
  induction cs with
  | nil => simp [pieces, hCut]
  | cons d more ih =>
      have hd := hPlain d (List.mem_cons_self ..)
      have hMore := ih fun e he => hPlain e (List.mem_cons_of_mem _ he)
      simp [pieces, hd, hMore]

/-- The folder of a revision names it, whatever the path inside it is. -/
theorem Revision.ofPath_name (r : Revision) (path : String) :
    ofPath (r.name ++ "/" ++ path) = r := by
  have hSlash : ¬ '/' ∈ r.name.toList := by cases r <;> decide
  have hPlain : ∀ c ∈ r.name.toList, decide (c = '/') = false := by
    intro c hc
    rw [decide_eq_false_iff_not]
    rintro rfl
    exact hSlash hc
  have hFirst : ((Text.pieces (· = '/') (r.name ++ "/" ++ path).toList).map String.ofList).head? =
      some r.name := by
    have hList : (r.name ++ "/" ++ path).toList = r.name.toList ++ '/' :: path.toList := by
      simp
    rw [hList, Text.pieces_append hPlain (by decide)]
    simp
  unfold ofPath
  extract_lets parts
  have hParts : parts.head? = some r.name := hFirst
  rw [hParts]
  cases r <;> rfl

/-- The search for the longest tail gives one of the files that it went over. -/
theorem mem_of_foldl_longest {tailLength : FileChange → Option Nat} {files : List FileChange}
    {best : Option (FileChange × Nat)} {f : FileChange} {n : Nat}
    (h : files.foldl (fun best f =>
      match tailLength f, best with
      | none, _ => best
      | some n, none => some (f, n)
      | some n, some (g, m) => if n > m then some (f, n) else some (g, m)) best = some (f, n)) :
    best = some (f, n) ∨ f ∈ files := by
  induction files generalizing best with
  | nil => exact .inl h
  | cons g rest ih =>
      rcases ih h with hBest | hMem
      · dsimp only at hBest
        split at hBest
        case h_1 => exact .inl hBest
        case h_2 =>
          cases hBest
          exact .inr (List.mem_cons_self ..)
        case h_3 =>
          split at hBest
          case isTrue =>
            cases hBest
            exact .inr (List.mem_cons_self ..)
          case isFalse => exact .inl hBest
      · exact .inr (List.mem_cons_of_mem _ hMem)

/-- A path only ever leads to a file of the change. -/
theorem mem_of_fileAt? {files : List FileChange} {path : String} {r : Revision} {f : FileChange}
    (h : fileAt? files path r = some f) : f ∈ files := by
  rw [fileAt?, Option.orElse_eq_or, Option.or_eq_some_iff] at h
  rcases h with hWhole | ⟨_, hTail⟩
  · exact List.mem_of_find?_eq_some hWhole
  · obtain ⟨best, hBest, rfl⟩ := Option.map_eq_some_iff.1 hTail
    exact (mem_of_foldl_longest hBest).resolve_left (by simp)

section Rooted

variable {r : Revision} {path : String} {pre post : List FileChange} {d : FileChange}

/-- Whether a path in the folder of a revision is the whole path of a file, with or without the
folder. -/
def ownsRooted (r : Revision) (path : String) (f : FileChange) : Bool :=
  (f.path? r).any fun own =>
    r.name ++ "/" ++ path = own || r.name ++ "/" ++ path = r.name ++ "/" ++ own

theorem ownsRooted_iff {f : FileChange} :
    ownsRooted r path f = true ↔
      f.path? r = some (r.name ++ "/" ++ path) ∨ f.path? r = some path := by
  unfold ownsRooted
  cases f.path? r with
  | none => simp
  | some own =>
      have hCut : r.name ++ "/" ++ path = r.name ++ "/" ++ own ↔ own = path := by
        rw [String.append_right_inj]
        exact eq_comm
      rw [Option.any_some, Bool.or_eq_true, decide_eq_true_eq, decide_eq_true_eq, hCut,
        Option.some.injEq, Option.some.injEq]
      exact or_congr eq_comm Iff.rfl

/-- The first file with the whole path is taken, wherever longer tails may be. -/
theorem fileAt?_eq_of_ownsRooted (hOwns : ownsRooted r path d = true)
    (hBefore : ∀ e ∈ pre, ownsRooted r path e ≠ true) :
    fileAt? (pre ++ d :: post) (r.name ++ "/" ++ path) r = some d := by
  have hFound : (pre ++ d :: post).find? (ownsRooted r path) = some d := by
    rw [List.find?_append, List.find?_cons_of_pos hOwns, List.find?_eq_none.2 hBefore]
    rfl
  have hWhole : (pre ++ d :: post).find? (fun f => (f.path? r).any fun own =>
      r.name ++ "/" ++ path = own || r.name ++ "/" ++ path = r.name ++ "/" ++ own) = some d :=
    hFound
  rw [fileAt?, Option.orElse_eq_or, hWhole]
  rfl

/-- Files with different paths are found again under their paths in the folder of the revision,
unless an earlier file has that whole path for its own. Then the earlier one is found instead.
Nothing is asked of paths that end in each other or begin with the name of a revision. -/
theorem fileAt?_rooted_eq_iff (pre : List FileChange) (d : FileChange) (post : List FileChange)
    (hPath : d.path? r = some path)
    (hDistinct : ((pre ++ d :: post).filterMap (·.path? r)).Nodup) :
    Revision.ofPath (r.name ++ "/" ++ path) = r ∧
      (fileAt? (pre ++ d :: post) (r.name ++ "/" ++ path) r = some d ↔
        ∀ e ∈ pre, e.path? r ≠ some (r.name ++ "/" ++ path)) ∧
      ∀ e ∈ pre, e.path? r = some (r.name ++ "/" ++ path) →
        fileAt? (pre ++ d :: post) (r.name ++ "/" ++ path) r = some e := by
  have hApart : (pre ++ d :: post).Pairwise fun e f =>
      ∀ p, e.path? r = some p → ∀ q, f.path? r = some q → p ≠ q :=
    List.pairwise_filterMap.1 hDistinct
  rw [List.pairwise_append] at hApart
  obtain ⟨hPre, _, hAcross⟩ := hApart
  have hOther : ∀ e ∈ pre, e.path? r ≠ some path := by
    intro e he hSame
    exact hAcross e he d (List.mem_cons_self ..) path hSame path hPath rfl
  have hLonger : r.name ++ "/" ++ path ≠ path := by
    intro hSame
    have hLength := congrArg String.length hSame
    rw [String.length_append, String.length_append] at hLength
    have hSlash : "/".length = 1 := rfl
    omega
  have hClash : ∀ e ∈ pre, e.path? r = some (r.name ++ "/" ++ path) →
      fileAt? (pre ++ d :: post) (r.name ++ "/" ++ path) r = some e := by
    intro e he hWhole
    obtain ⟨before, after, rfl⟩ := List.append_of_mem he
    rw [List.append_assoc, List.cons_append]
    refine fileAt?_eq_of_ownsRooted (ownsRooted_iff.2 (.inl hWhole)) fun f hf hOwns => ?_
    rcases ownsRooted_iff.1 hOwns with hSame | hSame
    · rw [List.pairwise_append] at hPre
      exact hPre.2.2 f hf e (List.mem_cons_self ..) _ hSame _ hWhole rfl
    · exact hOther f (List.mem_append_left _ hf) hSame
  refine ⟨r.ofPath_name path, ⟨fun hFound e he hWhole => ?_, fun hNone => ?_⟩, hClash⟩
  · rw [hClash e he hWhole] at hFound
    cases hFound
    rw [hPath] at hWhole
    exact hLonger (Option.some.inj hWhole).symm
  · refine fileAt?_eq_of_ownsRooted (ownsRooted_iff.2 (.inr hPath)) fun e he hOwns => ?_
    exact (ownsRooted_iff.1 hOwns).elim (hNone e he) (hOther e he)

/-- A file in a folder that has the name of a revision, ahead of the file that it is mistaken
for. -/
theorem fileAt?_rooted_eq_iff_clash :
    let first : FileChange := { index := 0, currentPath := some "current/z/A.java" }
    let second : FileChange := { index := 1, currentPath := some "z/A.java" }
    fileAt? [first, second] "current/z/A.java" .current = some first ∧
      fileAt? [first, second] "current/current/z/A.java" .current = some first ∧
      fileAt? [second, first] "current/z/A.java" .current = some second := by
  intro first second
  have hDistinct : ([first, second].filterMap (·.path? .current)).Nodup := by decide +kernel
  have hSwapped : ([second, first].filterMap (·.path? .current)).Nodup := by decide +kernel
  have hSecond := fileAt?_rooted_eq_iff [first] second [] (r := .current) rfl hDistinct
  have hFirst := fileAt?_rooted_eq_iff [] first [second] (r := .current) rfl hDistinct
  have hAlone := fileAt?_rooted_eq_iff [] second [first] (r := .current) rfl hSwapped
  exact ⟨hSecond.2.2 first (List.mem_singleton.2 rfl) rfl, hFirst.2.1.2 (by simp),
    hAlone.2.1.2 (by simp)⟩

end Rooted

end ChangeSplit
