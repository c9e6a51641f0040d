import ChangeSplit.Proofs.Run.Errand

/-! Getting the revisions of the files of a change and laying them out beside each other. -/

namespace ChangeSplit

namespace Folder

/-- Whether files can be laid out at all of some paths where a folder is there already. No path is
that of the folder or of one around it, and none is that of a folder around another path. -/
def Apart (there : List String) (paths : List (List String)) : Prop :=
  ∀ p ∈ paths, p.isPrefixOf there = false ∧ ∀ q ∈ paths, leadsThrough p q = false

instance (there : List String) (paths : List (List String)) : Decidable (Apart there paths) := by
  unfold Apart
  infer_instance

theorem Apart.mono {there : List String} {paths fewer : List (List String)}
    (h : Apart there paths) (hFewer : fewer ⊆ paths) : Apart there fewer :=
  fun p hp => ⟨(h p (hFewer hp)).1, fun q hq => (h p (hFewer hp)).2 q (hFewer hq)⟩

/-- The paths of the files of a folder. -/
def paths (f : Folder) : List (List String) := f.files.map (·.1)

/-- A folder with a file put at a path, whatever is in the way. -/
def lay (f : Folder) (path : List String) (bytes : List UInt8) : Folder :=
  ⟨writeIn path bytes f.files⟩

theorem paths_lay_subset (f : Folder) (path : List String) (bytes : List UInt8) :
    (f.lay path bytes).paths ⊆ path :: f.paths := by
  unfold lay paths
  induction f.files with
  | nil => simp [writeIn]
  | cons file rest ih =>
    unfold writeIn
    split
    · exact List.subset_cons_self _ _
    · intro p hp
      rcases List.mem_cons.1 hp with rfl | hp
      · simp
      · rcases List.mem_cons.1 (ih hp) with rfl | hp
        · simp
        · exact List.mem_cons_of_mem _ (List.mem_cons_of_mem _ hp)

/-- A path leads through every path that the folder around it is at or leads through. -/
theorem leadsThrough_of_prefix_dropLast {path outer : List String} (hPath : path ≠ [])
    (h : outer <+: path.dropLast) : leadsThrough path outer = true := by
  rw [leadsThrough, Bool.and_eq_true, List.isPrefixOf_iff_prefix, decide_eq_true_iff]
  refine ⟨h.trans (List.dropLast_prefix path), ?_⟩
  rintro rfl
  have hLength := h.length_le
  have hPos := List.length_pos_iff.2 hPath
  rw [List.length_dropLast] at hLength
  omega

/-- Nothing is in the way of a file if the paths are apart. -/
theorem write_eq_ok {f : Folder} {there path : List String} (h : Apart there (path :: f.paths))
    (bytes : List UInt8) : f.write path bytes = .ok (f.lay path bytes) := by
  obtain ⟨hThere, hThrough⟩ := h path List.mem_cons_self
  have hPath : path ≠ [] := by
    rintro rfl
    cases hThere
  have hFile : ∀ file ∈ f.files, file.1 ∈ path :: f.paths := fun file hFile =>
    List.mem_cons_of_mem _ (List.mem_map_of_mem hFile)
  have hAround : ∀ file ∈ f.files, ¬ file.1 <+: path.dropLast := fun file hMem hPrefix => by
    simpa [hThrough _ (hFile file hMem)] using leadsThrough_of_prefix_dropLast hPath hPrefix
  have hNotThrough : (f.files.any fun file => leadsThrough path.dropLast file.1) = false := by
    refine List.any_eq_false.2 fun file hMem hLeads => hAround file hMem ?_
    exact List.isPrefixOf_iff_prefix.1 (Bool.and_eq_true_iff.1 hLeads).1
  have hNotAt : (f.files.any fun file => file.1 = path.dropLast) = false := by
    refine List.any_eq_false.2 fun file hMem hAt => hAround file hMem ?_
    exact (of_decide_eq_true hAt).symm ▸ List.prefix_rfl
  have hNotFolder : f.isFolder path = false := by
    rw [isFolder, List.isEmpty_eq_false_iff.2 hPath, Bool.false_or]
    refine List.any_eq_false.2 fun file hMem => ?_
    simpa using (h file.1 (hFile file hMem)).2 path List.mem_cons_self
  exact (if_neg (ne_true_of_eq_false hNotThrough)).trans
    ((if_neg (ne_true_of_eq_false hNotAt)).trans (if_neg (ne_true_of_eq_false hNotFolder)))

end Folder

/-- A revision of a file that a change needs. Without a commit, the file on disk is meant. -/
structure Fetch where
  revision : Revision
  path : String
  commit : Option String
deriving DecidableEq

namespace Fetch

/-- What it takes to get the file, after others were put below the root of all files. -/
def errand (root : Folder) (x : Fetch) : Errand :=
  match x.commit with
  | some commit => .demand ["show", commit ++ ":" ++ x.path]
  | none => .openFile root x.path

/-- Get the file and put it beside the others. -/
def into (folder : String) (root : Folder) (x : Fetch) : Session Folder := do
  let content ← match x.commit with
    | some commit => committedFile folder commit x.path
    | none => openFile folder root x.path
  put root x.revision x.path content

section

variable (w : Surroundings) (folder : String)

/-- Where the file is laid out. -/
def place (x : Fetch) : List String := w.place x.revision x.path

/-- The root of all files with the file laid out below it. -/
def layIn (root : Folder) (x : Fetch) : Folder :=
  root.lay (x.place w) ((x.errand root).content w folder)

/-- What it takes to get files one after the other, with each laid out before the next. -/
def errands (root : Folder) : List Fetch → List Errand
  | [] => []
  | x :: xs => x.errand root :: errands (x.layIn w folder root) xs

/-- The files that are had before an errand ends the run. -/
def had (root : Folder) : List Fetch → List Fetch
  | [] => []
  | x :: xs =>
    if ((x.errand root).stop? w folder).isSome then []
    else x :: had (x.layIn w folder root) xs

end

/-- The revisions of a file that a change needs: the one before from the base, if there is any, and
the one after from the target or from disk. -/
def ofFile (c : ChosenChange) (f : FileChange) : List Fetch :=
  ((f.path? .base).bind fun path => c.base.map fun commit => ⟨.base, path, some commit⟩).toList ++
    ((f.path? .current).map fun path => ⟨.current, path, c.target⟩).toList

variable {w : Surroundings} {folder : String}

theorem carriesOut_put {root : Folder} {r : Revision} {path : String} {content : List UInt8}
    (h : Folder.Apart w.scratchPlace (w.place r path :: root.paths)) :
    CarriesOut w folder (put root r path content) []
      (.ok (root.lay (w.place r path) content)) := by
  refine CarriesOut.surroundings.after ?_
  simp only [(h _ List.mem_cons_self).1, Folder.write_eq_ok h]
  exact (CarriesOut.pure _).after (.pure _)

theorem carriesOut_into {root : Folder} {x : Fetch}
    (h : (x.errand root).stop? w folder = none →
      Folder.Apart w.scratchPlace (x.place w :: root.paths)) :
    CarriesOut w folder (into folder root x) [x.errand root] (.ok (x.layIn w folder root)) := by
  obtain ⟨r, path, commit⟩ := x
  cases commit with
  | some commit =>
    exact (CarriesOut.committedFile commit path).before fun hNone =>
      carriesOut_put (h (Errand.firstStop?_singleton.symm.trans hNone))
  | none =>
    exact (CarriesOut.openFile root path).before fun hNone =>
      carriesOut_put (h (Errand.firstStop?_singleton.symm.trans hNone))

/-- All files are got one after the other. Only the places of those that are had matter. -/
theorem carriesOut_foldlM {xs : List Fetch} {root : Folder}
    (h : Folder.Apart w.scratchPlace ((had w folder root xs).map (place w) ++ root.paths)) :
    CarriesOut w folder (xs.foldlM (into folder) root) (errands w folder root xs)
      (.ok (xs.foldl (layIn w folder) root)) := by
  induction xs generalizing root with
  | nil => exact .pure _
  | cons x xs ih =>
    have hHad (hNone : (x.errand root).stop? w folder = none) :
        had w folder root (x :: xs) = x :: had w folder (x.layIn w folder root) xs := by
      simp [had, hNone]
    refine CarriesOut.step (carriesOut_into fun hNone => ?_) fun hNone => ih ?_
    · rw [hHad hNone] at h
      exact h.mono (by simp)
    · rw [hHad hNone] at h
      refine h.mono fun p hp => ?_
      rcases List.mem_append.1 hp with hp | hp
      · simp [hp]
      · rcases List.mem_cons.1 (Folder.paths_lay_subset _ _ _ hp) with rfl | hp <;> simp [*]

theorem filter_eq_self_of_ne {name? : Option String} (h : ∀ name ∈ name?, name ≠ "") :
    name?.filter (· ≠ "") = name? := by
  cases name? with
  | none => rfl
  | some name => simpa using h name rfl

/-- Both revisions of a file are got one after the other. -/
theorem addRevisions_eq {c : ChosenChange} (hBase : ∀ commit ∈ c.base, commit ≠ "")
    (hTarget : ∀ commit ∈ c.target, commit ≠ "") (root : Folder) (f : FileChange) :
    addRevisions folder c root f = (ofFile c f).foldlM (into folder) root := by
  unfold addRevisions ofFile
  rw [filter_eq_self_of_ne hBase, filter_eq_self_of_ne hTarget]
  cases f.path? .base <;> cases c.base <;> cases f.path? .current <;> cases c.target <;>
    simp [into]

/-- The revisions of all files are got one after the other. -/
theorem foldlM_addRevisions {c : ChosenChange} (hBase : ∀ commit ∈ c.base, commit ≠ "")
    (hTarget : ∀ commit ∈ c.target, commit ≠ "") (root : Folder) (files : List FileChange) :
    files.foldlM (addRevisions folder c) root =
      (files.flatMap (ofFile c)).foldlM (into folder) root := by
  induction files generalizing root with
  | nil => rfl
  | cons f files ih =>
    simp only [List.foldlM_cons, List.flatMap_cons, List.foldlM_append, ih,
      addRevisions_eq hBase hTarget]

end Fetch

end ChangeSplit
