import ChangeSplit.CommandLine.Run
import ChangeSplit.Proofs.Grouping.Partition
import ChangeSplit.Proofs.Run.Layout

/-! The course of a run. The settings and the answers of the repository say beforehand which
errands there are. A run carries them out in order until one ends it, and only then it matters
whether the change can be taken apart. -/

namespace ChangeSplit

/-- The commit that the settings ask for. -/
def Settings.commit (s : Settings) : String := (s.target.filter (· ≠ "")).getD "HEAD"

namespace Surroundings

section

variable (w : Surroundings)

/-- Revisions have names. -/
def NamesRevisions : Prop :=
  ∀ name output, (w.answer ["rev-parse", name]).output? = some output → revisionName output ≠ ""

/-- The name of a revision, as the repository gives it. -/
def revision (name : String) : String :=
  revisionName ((w.answer ["rev-parse", name]).output?.getD [])

/-- The name of the first parent of a revision, if the repository gives one. -/
def parent? (name : String) : Option String :=
  (w.answer ["rev-parse", name ++ "^"]).output?.map revisionName

/-- The text of a change between revisions, as the repository gives it. -/
def diff (revisions : List String) : String :=
  Utf8.decodeLossy ((w.answer (diffArguments revisions)).output?.getD [])

variable (s : Settings)

/-- The revisions that the text of a change is asked for with. -/
def compared : List String :=
  if s.workingTree then ["HEAD"]
  else
    let target := w.revision s.commit
    [(w.parent? target).getD emptyRevision, target]

/-- The change that the settings ask for, if the repository complies. -/
def change : ChosenChange :=
  if s.workingTree then ⟨w.diff (w.compared s), some (w.revision "HEAD"), none⟩
  else
    let target := w.revision s.commit
    ⟨w.diff (w.compared s), w.parent? target, some target⟩

/-- What it takes to get the change. Only the parent of a commit may be missing. -/
def opening : List Errand :=
  if s.workingTree then [.demand ["rev-parse", "HEAD"], .demand (diffArguments (w.compared s))]
  else
    [.demand ["rev-parse", s.commit], .inquiry ["rev-parse", w.revision s.commit ++ "^"],
      .demand (diffArguments (w.compared s))]

/-- The revisions of sources that the change needs, in the order of the change. -/
def fetches : List Fetch :=
  match Diff.read (w.change s).text with
  | .ok files => (javaFiles files).flatMap (Fetch.ofFile (w.change s))
  | .error _ => []

/-- All errands of a run. -/
def errands : List Errand :=
  if s.fault?.isSome then []
  else w.opening s ++ Fetch.errands w s.repository {} (w.fetches s)

/-- The revisions of sources that a run lays out. -/
def laid : List Fetch :=
  if (Errand.firstStop? w s.repository (w.opening s)).isSome then []
  else Fetch.had w s.repository {} (w.fetches s)

/-- The revisions of sources, laid out from the root of all files on. -/
def layout : Folder := (w.fetches s).foldl (Fetch.layIn w s.repository) {}

/-- What is wrong with the settings or the change itself. -/
def fault? : Option Failure :=
  match s.fault? with
  | some e => some (.settings e)
  | none =>
    match Diff.read (w.change s).text with
    | .error e => some (.diff e)
    | .ok files =>
      let root := (w.layout s).subfolder w.scratchPlace
      match ChangeGraph.build w.scratchPath root [] (javaFiles files) with
      | .error e => some (.graph e)
      | .ok _ => none

/-- The user ends the run at one of its errands. -/
def Interrupted : Prop :=
  ∃ e ∈ Errand.carriedOut w s.repository (w.errands s),
    e.stop? w s.repository = some .interrupted

/-- A run fails at one of its errands, or at what is wrong with the settings or the change when
all errands are carried out. -/
def FailsWith (f : Failure) : Prop :=
  (∃ e ∈ Errand.carriedOut w s.repository (w.errands s),
    e.stop? w s.repository = some (.failed f)) ∨
  (∀ e ∈ w.errands s, e.stop? w s.repository = none) ∧ w.fault? s = some f

end

variable {w : Surroundings} {s : Settings}

theorem NamesRevisions.ne_of_mem_parent? (hNamed : w.NamesRevisions) {name parent : String}
    (h : parent ∈ w.parent? name) : parent ≠ "" := by
  obtain ⟨output, hOutput, rfl⟩ := Option.map_eq_some_iff.1 h
  exact hNamed _ output hOutput

/-- A revision that was asked for with success has a name. -/
theorem NamesRevisions.revision_ne (hNamed : w.NamesRevisions) {name folder : String}
    (h : (Errand.demand ["rev-parse", name]).stop? w folder = none) : w.revision name ≠ "" := by
  obtain ⟨output, hOutput⟩ := Option.isSome_iff_exists.1 (Errand.stop?_demand_eq_none_iff.1 h)
  rw [revision, hOutput]
  exact hNamed name output hOutput

/-- The change of a commit is had by asking for the commit, for its parent, and for the text. -/
theorem carriesOut_commitChange (hNamed : w.NamesRevisions) (hTree : s.workingTree = false) :
    CarriesOut w s.repository (commitChange s.repository s.commit) (w.opening s)
      (.ok (w.change s)) := by
  obtain ⟨r, hRequest, hParent⟩ := @CarriesOut.request w s.repository
    ["rev-parse", w.revision s.commit ++ "^"]
  have hBase : r.toOption.map revisionName = w.parent? (w.revision s.commit) := by
    rw [hParent, parent?]
  have hBefore : (w.parent? (w.revision s.commit)).filter (· ≠ "") =
      w.parent? (w.revision s.commit) :=
    Fetch.filter_eq_self_of_ne fun _ => hNamed.ne_of_mem_parent?
  unfold commitChange opening change compared
  simp only [hTree, Bool.false_eq_true, if_false]
  refine CarriesOut.step (.demand _) fun _ => ?_
  refine CarriesOut.step hRequest fun _ => ?_
  rw [hBase, hBefore]
  exact (CarriesOut.demand _).before fun _ => .pure _

/-- The change that is not committed yet is had by asking for the latest commit and for the text. -/
theorem carriesOut_openChange (hTree : s.workingTree = true) :
    CarriesOut w s.repository (openChange s.repository) (w.opening s) (.ok (w.change s)) := by
  unfold openChange opening change compared
  simp only [hTree, if_true]
  refine CarriesOut.step (.demand _) fun _ => ?_
  exact (CarriesOut.demand _).before fun _ => .pure _

theorem carriesOut_chosenChange (hNamed : w.NamesRevisions) :
    CarriesOut w s.repository (chosenChange s) (w.opening s) (.ok (w.change s)) := by
  unfold chosenChange
  cases hTree : s.workingTree with
  | true => exact (CarriesOut.notes _).after (carriesOut_openChange hTree)
  | false => exact (CarriesOut.notes _).after (carriesOut_commitChange hNamed hTree)

/-- Once the change is had, its revisions have names. -/
theorem change_named (hNamed : w.NamesRevisions)
    (hOpening : Errand.firstStop? w s.repository (w.opening s) = none) :
    (∀ commit ∈ (w.change s).base, commit ≠ "") ∧ ∀ commit ∈ (w.change s).target, commit ≠ "" := by
  unfold opening at hOpening
  unfold change
  cases hTree : s.workingTree with
  | true =>
    simp only [hTree, if_true, Errand.firstStop?_cons, Option.or_eq_none_iff] at hOpening
    refine ⟨fun commit hCommit => ?_, by simp⟩
    obtain rfl : w.revision "HEAD" = commit := by simpa using hCommit
    exact hNamed.revision_ne hOpening.1
  | false =>
    simp only [hTree, Bool.false_eq_true, if_false, Errand.firstStop?_cons,
      Option.or_eq_none_iff] at hOpening
    refine ⟨fun commit => hNamed.ne_of_mem_parent?, fun commit hCommit => ?_⟩
    obtain rfl : w.revision s.commit = commit := by simpa using hCommit
    exact hNamed.revision_ne hOpening.1

/-- The sources of a change that was had are laid out beside each other. -/
theorem carriesOut_layout (hNamed : w.NamesRevisions)
    (hApart : Folder.Apart w.scratchPlace ((w.laid s).map (Fetch.place w)))
    (hOpening : Errand.firstStop? w s.repository (w.opening s) = none) {files : List FileChange}
    (hRead : Diff.read (w.change s).text = .ok files) :
    CarriesOut w s.repository
      ((javaFiles files).foldlM (addRevisions s.repository (w.change s)) {})
      (Fetch.errands w s.repository {} (w.fetches s)) (.ok (w.layout s)) := by
  obtain ⟨hBase, hTarget⟩ := change_named hNamed hOpening
  have hFetches : w.fetches s = (javaFiles files).flatMap (Fetch.ofFile (w.change s)) := by
    rw [fetches, hRead]
  rw [Fetch.foldlM_addRevisions hBase hTarget, ← hFetches]
  refine Fetch.carriesOut_foldlM ?_
  rw [laid, hOpening] at hApart
  simpa [Folder.paths] using hApart

/-- Whatever graph the sources of a change have, the hunks of the change can be grouped. -/
theorem exists_outcome_of_build (s : Settings) {rootPath : String} {root : Folder}
    {files : List FileChange} {g : ChangeGraph}
    (hBuild : ChangeGraph.build rootPath root [] (javaFiles files) = .ok g) :
    ∃ outcome, Grouping.run s g.graph files = .ok outcome ∧
      partitionFault? outcome.groups files = none := by
  obtain ⟨placed, n, hFormed, rfl⟩ := ChangeGraph.exists_formed_of_build hBuild
  have hNodes : placed.wire.graph.nodes = placed.graph.nodes := placed.wire_nodes
  have hScoped : placed.wire.graph.Scoped := fun node hNode =>
    hFormed.scoped_graph node (hNodes ▸ hNode)
  have hMarks : ∀ node ∈ placed.wire.graph.nodes, ∀ name ∈ node.marks, name ∈ hunkNames files :=
    fun node hNode name hName => by
      have hJava := hFormed.mem_of_mem_marks (hNodes ▸ hNode) hName
      obtain ⟨f, hf, hName⟩ := List.mem_flatMap.1 hJava
      exact List.mem_flatMap.2 ⟨f, (List.mem_filter.1 hf).1, hName⟩
  obtain ⟨groups, hGroups, hPartitions⟩ :=
    Grouping.exists_groups s (ChangeGraph.built_wire hFormed.built) hScoped hMarks
  change ∃ outcome, Grouping.run s placed.wire.graph files = .ok outcome ∧ _
  obtain ⟨outcome, hRun, rfl⟩ := exists_ok_of_map hGroups
  exact ⟨outcome, hRun, hPartitions.accepted⟩

/-- A run carries out its errands, and then it comes to nothing exactly if something is wrong with
the settings or the change. -/
theorem carriesOut_analyze (hNamed : w.NamesRevisions)
    (hApart : Folder.Apart w.scratchPlace ((w.laid s).map (Fetch.place w))) :
    ∃ outcome, CarriesOut w s.repository (analyze s) (w.errands s) outcome ∧
      match w.fault? s with
      | some f => outcome = .error (.failed f)
      | none => ∃ a, outcome = .ok a := by
  unfold analyze errands fault?
  cases hSettings : s.fault? with
  | some e =>
    exact ⟨_, CarriesOut.bind_error (.fail _), rfl⟩
  | none =>
    have hChange := carriesOut_chosenChange (s := s) hNamed
    cases hRead : Diff.read (w.change s).text with
    | error e =>
      have hFetches : w.fetches s = [] := by rw [fetches, hRead]
      refine ⟨.error (.failed (.diff e)), ?_, rfl⟩
      rw [hFetches]
      refine hChange.bind fun _ => ?_
      simp only [hRead]
      exact CarriesOut.bind_error (.fail _)
    | ok files =>
      cases hBuild : ChangeGraph.build w.scratchPath ((w.layout s).subfolder w.scratchPlace) []
          (javaFiles files) with
      | error e =>
        refine ⟨.error (.failed (.graph e)), ?_, by simp only [hBuild]⟩
        refine hChange.bind fun hOpening => ?_
        simp only [hRead]
        refine (CarriesOut.pure _).after ((CarriesOut.notes _).after ?_)
        refine (carriesOut_layout hNamed hApart hOpening hRead).before fun _ => ?_
        refine CarriesOut.surroundings.after ((CarriesOut.notes _).after ?_)
        simp only [hBuild]
        exact (CarriesOut.notes _).after (CarriesOut.bind_error (.fail _))
      | ok g =>
        obtain ⟨outcome, hRun, hAccepted⟩ := exists_outcome_of_build s hBuild
        refine ⟨.ok ⟨files, outcome.groups⟩, ?_, by simp only [hBuild]; exact ⟨_, rfl⟩⟩
        refine hChange.bind fun hOpening => ?_
        simp only [hRead]
        refine (CarriesOut.pure _).after ((CarriesOut.notes _).after ?_)
        refine (carriesOut_layout hNamed hApart hOpening hRead).before fun _ => ?_
        refine CarriesOut.surroundings.after ((CarriesOut.notes _).after ?_)
        simp only [hBuild]
        refine (CarriesOut.pure _).after ((CarriesOut.notes _).after ?_)
        simp only [hRun, hAccepted]
        exact (CarriesOut.notes _).after (.pure _)

theorem interrupted_iff : w.Interrupted s ↔
    Errand.firstStop? w s.repository (w.errands s) = some .interrupted :=
  Errand.firstStop?_eq_some_iff.symm

theorem failsWith_iff {f : Failure} : w.FailsWith s f ↔
    Errand.firstStop? w s.repository (w.errands s) = some (.failed f) ∨
      Errand.firstStop? w s.repository (w.errands s) = none ∧ w.fault? s = some f := by
  rw [FailsWith, Errand.firstStop?_eq_some_iff, Errand.firstStop?, List.findSome?_eq_none_iff]

end Surroundings

namespace CommandLine

variable {w : Surroundings} {arguments : List String} {s : Settings}

/-- The end of a program whose change comes to an outcome. -/
def Ending.ofOutcome (s : Settings) : Except Stop Analysis → Ending
  | .ok a => .finished (output s a)
  | .error .interrupted => .interrupted
  | .error (.failed f) => .failed f
  | .error (.unwritable f) => .unwritable f
  | .error (.ungroupable f) => .ungroupable f

/-- A run ends the way the first of its errands says that ends it, and otherwise the way its part
without errands comes to. -/
theorem run_of_carriesOut (hSettings : read arguments = .ok (.settings s))
    {outcome : Except Stop Analysis}
    (h : CarriesOut w s.repository (analyze s) (w.errands s) outcome) :
    (run w arguments).2.requests = Errand.requests w s.repository (w.errands s) ∧
      (run w arguments).1 = Ending.ofOutcome s
        ((Errand.firstStop? w s.repository (w.errands s)).elim outcome .error) := by
  obtain ⟨notes, hRun⟩ := h {}
  simp only [run, hSettings, hRun]
  rcases (Errand.firstStop? w s.repository (w.errands s)).elim outcome .error with
    (_ | _ | _ | _) | _ <;> simp [Ending.ofOutcome]

/-- A run makes the requests of its errands, up to the first errand that ends it. It is
interrupted or fails exactly as that errand says. Without such an errand it fails only if the
settings or the change are at fault, and it shows an outcome otherwise. -/
theorem run_course (hSettings : read arguments = .ok (.settings s)) (hNamed : w.NamesRevisions)
    (hApart : Folder.Apart w.scratchPlace ((w.laid s).map (Fetch.place w))) :
    (run w arguments).2.requests = Errand.requests w s.repository (w.errands s) ∧
      ((run w arguments).1.exitCode = 130 ↔ w.Interrupted s) ∧
      (∀ f, w.FailsWith s f →
        (run w arguments).1.exitCode = 1 ∧ (run w arguments).1.printed = "" ∧
          (run w arguments).1.complaint = "untangle: error: " ++ f.message ++ "\n") ∧
      (¬ w.Interrupted s → (∀ f, ¬ w.FailsWith s f) →
        (run w arguments).1.exitCode = 0 ∧ (run w arguments).1.complaint = "" ∧
          ∃ a, (run w arguments).1 = .finished (output s a)) := by
  obtain ⟨outcome, hAnalyze, hOutcome⟩ := Surroundings.carriesOut_analyze hNamed hApart
  obtain ⟨hRequests, hEnding⟩ := run_of_carriesOut hSettings hAnalyze
  refine ⟨hRequests, ?_⟩
  simp only [Surroundings.interrupted_iff, Surroundings.failsWith_iff]
  generalize (run w arguments).1 = ending at hEnding ⊢
  cases hStop : Errand.firstStop? w s.repository (w.errands s) with
  | some stop =>
    rw [hStop] at hEnding
    obtain ⟨e, _, hErrand⟩ := Errand.firstStop?_eq_some_iff.1 hStop
    rcases Errand.of_stop?_eq_some hErrand with rfl | ⟨f, rfl⟩
    · obtain rfl : ending = .interrupted := hEnding
      exact ⟨⟨fun _ => rfl, fun _ => rfl⟩, by simp, fun h => absurd rfl h⟩
    · obtain rfl : ending = .failed f := hEnding
      refine ⟨⟨nofun, nofun⟩, ?_, fun _ h => absurd (.inl rfl) (h f)⟩
      rintro _ (hSame | ⟨hNone, _⟩)
      · cases hSame
        exact ⟨rfl, rfl, rfl⟩
      · cases hNone
  | none =>
    rw [hStop] at hEnding
    cases hFault : w.fault? s with
    | some f =>
      obtain rfl : outcome = .error (.failed f) := by rwa [hFault] at hOutcome
      obtain rfl : ending = .failed f := hEnding
      refine ⟨⟨nofun, nofun⟩, ?_, fun _ h => absurd (.inr ⟨rfl, rfl⟩) (h f)⟩
      rintro _ (hNone | ⟨_, hSame⟩)
      · cases hNone
      · cases hSame
        exact ⟨rfl, rfl, rfl⟩
    | none =>
      obtain ⟨a, rfl⟩ : ∃ a, outcome = .ok a := by rwa [hFault] at hOutcome
      obtain rfl : ending = .finished (output s a) := hEnding
      refine ⟨⟨nofun, nofun⟩, ?_, fun _ _ => ⟨rfl, rfl, a, rfl⟩⟩
      rintro _ (hNone | ⟨_, hNone⟩) <;> cases hNone

/-- A repository with a class that was renamed on disk. The class can be read by one path only. -/
def openShop : Surroundings where
  answer arguments :=
    if arguments = ["rev-parse", "HEAD"] then .completed 0 (Utf8.encode "c0\n") []
    else if arguments = diffArguments ["HEAD"] then
      .completed 0 (Utf8.encode ("diff --git a/A.java b/A.java\n--- a/A.java\n+++ b/A.java\n" ++
        "@@ -1 +1 @@\n-class A \x7b\x7d\n+class B \x7b\x7d\n")) []
    else if arguments = ["show", "c0:A.java"] then .completed 0 (Utf8.encode "class A \x7b\x7d") []
    else .completed 128 [] (Utf8.encode "fatal: bad object\n")
  workingFolder := {}
  scratchPath := "/tmp/scratch"
  elsewhere _ path := some <|
    if path = "/srv/shop/A.java" then .ok (Utf8.encode "class B \x7b\x7d")
    else .error ("[Errno 13] Permission denied: " ++ Text.quoted path)

theorem openShop_namesRevisions : openShop.NamesRevisions := by
  intro name output hOutput
  by_cases hHead : name = "HEAD"
  · rw [hHead, show (openShop.answer ["rev-parse", "HEAD"]).output? =
      some (Utf8.encode "c0\n") from rfl, Option.some.injEq] at hOutput
    rw [← hOutput]
    decide +kernel
  have hRefused : (openShop.answer ["rev-parse", name]).output? = none := by
    rw [openShop]
    simp [hHead, diffArguments, Answer.output?]
  rw [hRefused] at hOutput
  cases hOutput

/-- Settings that ask for what is not committed yet, in a repository in a folder. -/
def onDisk (folder : String) : Settings := { workingTree := true, repository := folder }

/-- The folder makes no difference to what the change needs. -/
theorem fetches_openShop (folder : String) :
    openShop.fetches (onDisk folder) =
      [⟨.base, "A.java", some "c0"⟩, ⟨.current, "A.java", none⟩] := by
  have hChange : openShop.change (onDisk folder) = openShop.change (onDisk "") := rfl
  rw [Surroundings.fetches, hChange]
  decide +kernel

/-- The class as it was before, at its place in the folder for revisions. -/
def formerShop : Folder :=
  ⟨[(["tmp", "scratch", "base", "A.java"], Utf8.encode "class A \x7b\x7d")]⟩

theorem errands_openShop (folder : String) :
    openShop.errands (onDisk folder) = [.demand ["rev-parse", "HEAD"],
      .demand (diffArguments ["HEAD"]), .demand ["show", "c0:A.java"],
      .openFile formerShop "A.java"] := by
  have hSame : openShop.errands (onDisk folder) = openShop.errands (onDisk "") := by
    rw [Surroundings.errands, Surroundings.errands, fetches_openShop, fetches_openShop]
    rfl
  rw [hSame, Surroundings.errands, fetches_openShop]
  decide +kernel

/-- From the root of all files on, the class is read and the change is taken apart. From a folder
beside the working folder, it cannot be read. -/
theorem run_course_openShop :
    ((openShop.laid (onDisk "/srv/shop")).map (Fetch.place openShop) =
        [["tmp", "scratch", "base", "A.java"], ["tmp", "scratch", "current", "A.java"]] ∧
      (run openShop ["--working-tree", "-C", "/srv/shop"]).2.requests =
        [⟨["rev-parse", "HEAD"], "/srv/shop"⟩, ⟨diffArguments ["HEAD"], "/srv/shop"⟩,
          ⟨["show", "c0:A.java"], "/srv/shop"⟩] ∧
      (run openShop ["--working-tree", "-C", "/srv/shop"]).1.exitCode = 0 ∧
      (run openShop ["--working-tree", "-C", "/srv/shop"]).1.complaint = "") ∧
    (openShop.laid (onDisk "../shop")).map (Fetch.place openShop) =
        [["tmp", "scratch", "base", "A.java"]] ∧
      (run openShop ["--working-tree", "-C", "../shop"]).1.exitCode = 1 ∧
      (run openShop ["--working-tree", "-C", "../shop"]).1.printed = "" ∧
      (run openShop ["--working-tree", "-C", "../shop"]).1.complaint =
        "untangle: error: cannot read working tree file A.java: " ++
          "[Errno 13] Permission denied: '../shop/A.java'\n" := by
  constructor
  · have hLaid : (openShop.laid (onDisk "/srv/shop")).map (Fetch.place openShop) =
        [["tmp", "scratch", "base", "A.java"], ["tmp", "scratch", "current", "A.java"]] := by
      rw [Surroundings.laid, fetches_openShop]
      decide +kernel
    have hGoesOn : Errand.firstStop? openShop (onDisk "/srv/shop").repository
        (openShop.errands (onDisk "/srv/shop")) = none := by
      rw [errands_openShop, ← Option.isNone_iff_eq_none]
      decide +kernel
    have hFaultless : openShop.fault? (onDisk "/srv/shop") = none :=
      Option.isNone_iff_eq_none.1 (by decide +kernel)
    obtain ⟨hRequests, _, _, hFinished⟩ :=
      @run_course _ ["--working-tree", "-C", "/srv/shop"] (onDisk "/srv/shop") rfl
        openShop_namesRevisions (by rw [hLaid]; decide +kernel)
    have hStays : ¬ openShop.Interrupted (onDisk "/srv/shop") := by
      rw [Surroundings.interrupted_iff, hGoesOn]
      nofun
    have hHolds (f : Failure) : ¬ openShop.FailsWith (onDisk "/srv/shop") f := by
      rw [Surroundings.failsWith_iff, hGoesOn, hFaultless]
      simp
    obtain ⟨hCode, hComplaint, _⟩ := hFinished hStays hHolds
    refine ⟨hLaid, ?_, hCode, hComplaint⟩
    rw [hRequests, errands_openShop]
    decide +kernel
  · have hLaid : (openShop.laid (onDisk "../shop")).map (Fetch.place openShop) =
        [["tmp", "scratch", "base", "A.java"]] := by
      rw [Surroundings.laid, fetches_openShop]
      decide +kernel
    obtain ⟨_, _, hFails, _⟩ :=
      @run_course _ ["--working-tree", "-C", "../shop"] (onDisk "../shop") rfl
        openShop_namesRevisions (by rw [hLaid]; decide +kernel)
    have hMem : .openFile formerShop "A.java" ∈
        Errand.carriedOut openShop "../shop" (openShop.errands (onDisk "../shop")) := by
      rw [errands_openShop]
      decide +kernel
    have hWithin : Path.within "../shop" "A.java" = "../shop/A.java" := by decide +kernel
    have hElsewhere : "../shop/A.java" ≠ "/srv/shop/A.java" := by decide
    have hRead : openShop.readFile formerShop "../shop/A.java" =
        .error ("[Errno 13] Permission denied: " ++ Text.quoted "../shop/A.java") := by
      simp only [Surroundings.readFile, openShop, if_neg hElsewhere, Option.getD_some]
    have hStop : (Errand.openFile formerShop "A.java").stop? openShop "../shop" =
        some (.failed (.repository (.unreadable "A.java"
          ("[Errno 13] Permission denied: " ++ Text.quoted "../shop/A.java")))) := by
      rw [Errand.stop?, hWithin, hRead]
    obtain ⟨hCode, hPrinted, hComplaint⟩ := hFails _ (.inl ⟨_, hMem, hStop⟩)
    refine ⟨hLaid, hCode, hPrinted, hComplaint.trans ?_⟩
    decide +kernel

end CommandLine

end ChangeSplit
