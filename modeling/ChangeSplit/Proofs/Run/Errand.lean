import ChangeSplit.Run

/-! What a run wants from outside the program, one errand after the other. A part of a run is
described by its list of errands: it carries them out in order, and the first one that cannot be
put up with ends it. -/

namespace ChangeSplit

/-- The output of a request that the repository complies with. -/
def Answer.output? : Answer → Option (List UInt8)
  | completed code output _ => if code = 0 then some output else none
  | _ => none

/-- Something a run wants from outside the program. -/
inductive Errand where
  /-- A request to the repository that has to be complied with. -/
  | demand (arguments : List String)
  /-- A request to the repository whose refusal is an answer too. -/
  | inquiry (arguments : List String)
  /-- A file that is not committed yet, after files were put below the root of all files. -/
  | openFile (root : Folder) (path : String)
deriving DecidableEq, Repr

namespace Errand

/-- The request that is made for an errand. Files on disk are read without one. -/
def request? (folder : String) : Errand → Option Request
  | demand arguments | inquiry arguments => some ⟨arguments, folder⟩
  | openFile .. => none

section

variable (w : Surroundings) (folder : String)

/-- What an errand brings, if it does not end the run. -/
def content : Errand → List UInt8
  | demand arguments | inquiry arguments => (w.answer arguments).output?.getD []
  | openFile root path => (w.readFile root (Path.within folder path)).toOption.getD []

/-- How an errand ends the run, if it does. -/
def stop? : Errand → Option Stop
  | demand arguments =>
    match w.answer arguments with
    | .interrupted => some .interrupted
    | .unavailable reason => some (.failed (.repository (.unavailable reason)))
    | .completed code _ complaint =>
      if code = 0 then none
      else some (.failed (.repository
        (.refused arguments (Text.trimmed (Utf8.decodeLossy complaint)))))
  | inquiry arguments =>
    match w.answer arguments with
    | .interrupted => some .interrupted
    | _ => none
  | openFile root path =>
    match w.readFile root (Path.within folder path) with
    | .ok _ => none
    | .error reason => some (.failed (.repository (.unreadable path reason)))

/-- The errands up to the first that ends the run, and with it. -/
def carriedOut : List Errand → List Errand
  | [] => []
  | e :: es => if (e.stop? w folder).isSome then [e] else e :: carriedOut es

/-- How a list of errands ends the run, if one of them does. -/
def firstStop? (es : List Errand) : Option Stop := es.findSome? (stop? w folder)

/-- The requests that are made for a list of errands. -/
def requests (es : List Errand) : List Request :=
  (carriedOut w folder es).filterMap (request? folder)

end

section

variable {w : Surroundings} {folder : String} {e : Errand} {es es' : List Errand}

/-- A demand goes on exactly if the repository complies. -/
theorem stop?_demand_eq_none_iff {arguments : List String} :
    (demand arguments).stop? w folder = none ↔ (w.answer arguments).output?.isSome := by
  cases h : w.answer arguments with
  | completed code => by_cases hCode : code = 0 <;> simp [stop?, Answer.output?, h, hCode]
  | unavailable | interrupted => simp [stop?, Answer.output?, h]

/-- An errand ends a run by an interruption or by a failure. -/
theorem of_stop?_eq_some {stop : Stop} (h : e.stop? w folder = some stop) :
    stop = .interrupted ∨ ∃ f, stop = .failed f := by
  cases e with
  | demand arguments =>
    cases hAnswer : w.answer arguments with
    | interrupted => exact .inl (by simpa [stop?, hAnswer] using h.symm)
    | unavailable reason => exact .inr ⟨_, by simpa [stop?, hAnswer] using h.symm⟩
    | completed code output complaint =>
      simp only [stop?, hAnswer, Option.ite_none_left_eq_some, Option.some.injEq] at h
      exact .inr ⟨_, h.2.symm⟩
  | inquiry arguments =>
    cases hAnswer : w.answer arguments with
    | interrupted => exact .inl (by simpa [stop?, hAnswer] using h.symm)
    | unavailable | completed => simp [stop?, hAnswer] at h
  | openFile root path =>
    cases hRead : w.readFile root (Path.within folder path) with
    | ok content => simp [stop?, hRead] at h
    | error reason => exact .inr ⟨_, by simpa [stop?, hRead] using h.symm⟩

theorem firstStop?_cons :
    firstStop? w folder (e :: es) = (e.stop? w folder).or (firstStop? w folder es) := by
  cases h : e.stop? w folder <;> simp [firstStop?, h]

theorem firstStop?_append :
    firstStop? w folder (es ++ es') = (firstStop? w folder es).or (firstStop? w folder es') :=
  List.findSome?_append

@[simp] theorem firstStop?_nil : firstStop? w folder [] = none := rfl

@[simp] theorem firstStop?_singleton : firstStop? w folder [e] = e.stop? w folder := by
  rw [firstStop?_cons, firstStop?_nil, Option.or_none]

@[simp] theorem requests_nil : requests w folder [] = [] := rfl

@[simp] theorem requests_singleton :
    requests w folder [e] = (e.request? folder).toList := by
  cases h : e.request? folder <;> simp [requests, carriedOut, h]

theorem carriedOut_append (h : firstStop? w folder es = none) :
    carriedOut w folder (es ++ es') = es ++ carriedOut w folder es' := by
  induction es with
  | nil => rfl
  | cons e es ih =>
    rw [firstStop?_cons, Option.or_eq_none_iff] at h
    simp [carriedOut, h.1, ih h.2]

theorem carriedOut_append_of_isSome (h : (firstStop? w folder es).isSome) :
    carriedOut w folder (es ++ es') = carriedOut w folder es := by
  induction es with
  | nil => cases h
  | cons e es ih =>
    rw [firstStop?_cons, Option.isSome_or] at h
    by_cases hStop : (e.stop? w folder).isSome
    · simp [carriedOut, hStop]
    · simp only [hStop, Bool.false_or] at h
      simp [carriedOut, hStop, ih h]

theorem carriedOut_eq_self (h : firstStop? w folder es = none) : carriedOut w folder es = es := by
  simpa [carriedOut] using @carriedOut_append _ _ _ [] h

theorem requests_append (h : firstStop? w folder es = none) :
    requests w folder (es ++ es') = requests w folder es ++ requests w folder es' := by
  simp [requests, carriedOut_append h, carriedOut_eq_self h]

theorem requests_append_of_isSome (h : (firstStop? w folder es).isSome) :
    requests w folder (es ++ es') = requests w folder es := by
  rw [requests, carriedOut_append_of_isSome h, requests]

/-- Among the errands that are carried out, only the last can end the run. -/
theorem firstStop?_eq_some_iff {stop : Stop} :
    firstStop? w folder es = some stop ↔
      ∃ e ∈ carriedOut w folder es, e.stop? w folder = some stop := by
  induction es with
  | nil => simp [firstStop?, carriedOut]
  | cons e es ih =>
    rw [firstStop?_cons]
    cases hStop : e.stop? w folder with
    | some other => simp [carriedOut, hStop]
    | none => simp [carriedOut, hStop, ih]

end

end Errand

/-- Whatever went before, a part of a run carries out a list of errands in a folder. It ends the
way that the first errand says that ends the run, and with the given outcome if none does. -/
def CarriesOut {α : Type} (w : Surroundings) (folder : String) (part : Session α)
    (es : List Errand) (outcome : Except Stop α) : Prop :=
  ∀ t : Transcript, ∃ notes, ((part.run w).run.run t) =
    ((Errand.firstStop? w folder es).elim outcome .error,
      ⟨t.requests ++ Errand.requests w folder es, notes⟩)

namespace CarriesOut

variable {α β : Type} {w : Surroundings} {folder : String}

theorem pure (a : α) : CarriesOut w folder (pure a : Session α) [] (.ok a) :=
  fun t => ⟨t.notes, by simp; rfl⟩

theorem throw (stop : Stop) : CarriesOut w folder (throw stop : Session α) [] (.error stop) :=
  fun t => ⟨t.notes, by simp; rfl⟩

theorem fail (f : Failure) :
    CarriesOut w folder (Session.fail f : Session α) [] (.error (.failed f)) :=
  throw _

theorem notes (ns : List Note) : CarriesOut w folder (Session.notes ns) [] (.ok ()) :=
  fun t => ⟨t.notes ++ ns, by simp; rfl⟩

theorem surroundings : CarriesOut w folder (read : Session Surroundings) [] (.ok w) :=
  fun t => ⟨t.notes, by simp; rfl⟩

theorem run_bind (part : Session α) (next : α → Session β) (t : Transcript) :
    ((part >>= next).run w).run.run t =
      match (part.run w).run.run t with
      | (.ok a, t') => ((next a).run w).run.run t'
      | (.error stop, t') => (.error stop, t') := by
  simp only [ReaderT.run_bind, ExceptT.run_bind, StateT.run_bind]
  rcases (part.run w).run.run t with ⟨_ | _, t'⟩ <;> rfl

/-- Two parts one after the other carry out the errands of both. The second is only begun if the
errands of the first do not end the run. -/
theorem bind {part : Session α} {next : α → Session β} {es es' : List Errand} {a : α}
    {outcome : Except Stop β} (h : CarriesOut w folder part es (.ok a))
    (h' : Errand.firstStop? w folder es = none → CarriesOut w folder (next a) es' outcome) :
    CarriesOut w folder (part >>= next) (es ++ es') outcome := by
  intro t
  obtain ⟨ns, hPart⟩ := h t
  rw [run_bind, hPart, Errand.firstStop?_append]
  cases hStop : Errand.firstStop? w folder es with
  | some stop =>
    refine ⟨ns, ?_⟩
    rw [Errand.requests_append_of_isSome (by simp [hStop])]
    rfl
  | none =>
    obtain ⟨ns', hNext⟩ := h' hStop ⟨t.requests ++ Errand.requests w folder es, ns⟩
    refine ⟨ns', ?_⟩
    rw [Errand.requests_append hStop, ← List.append_assoc]
    exact hNext

/-- A part with one errand, and then another part. -/
theorem step {part : Session α} {next : α → Session β} {e : Errand} {es : List Errand} {a : α}
    {outcome : Except Stop β} (h : CarriesOut w folder part [e] (.ok a))
    (h' : e.stop? w folder = none → CarriesOut w folder (next a) es outcome) :
    CarriesOut w folder (part >>= next) (e :: es) outcome :=
  h.bind fun hNone => h' (Errand.firstStop?_singleton.symm.trans hNone)

/-- What comes after a part that ends the run is not begun. -/
theorem bind_error {part : Session α} {next : α → Session β} {es : List Errand} {stop : Stop}
    (h : CarriesOut w folder part es (.error stop)) :
    CarriesOut w folder (part >>= next) es (.error stop) := by
  intro t
  obtain ⟨ns, hPart⟩ := h t
  refine ⟨ns, ?_⟩
  rw [run_bind, hPart]
  cases Errand.firstStop? w folder es <;> rfl

/-- A part after one without errands. -/
theorem after {part : Session α} {next : α → Session β} {es : List Errand} {a : α}
    {outcome : Except Stop β} (h : CarriesOut w folder part [] (.ok a))
    (h' : CarriesOut w folder (next a) es outcome) :
    CarriesOut w folder (part >>= next) es outcome := h.bind fun _ => h'

/-- A part before one without errands. -/
theorem before {part : Session α} {next : α → Session β} {es : List Errand} {a : α}
    {outcome : Except Stop β} (h : CarriesOut w folder part es (.ok a))
    (h' : Errand.firstStop? w folder es = none → CarriesOut w folder (next a) [] outcome) :
    CarriesOut w folder (part >>= next) es outcome := by
  simpa using h.bind h'

/-- A request is noted down before its answer counts. -/
theorem run_request (arguments : List String) (t : Transcript) :
    ((Session.request folder arguments).run w).run.run t =
      (match w.answer arguments with
        | .interrupted => .error .interrupted
        | .unavailable reason => .ok (.error (.unavailable reason))
        | .completed code output complaint =>
          if code = 0 then .ok (.ok output)
          else .ok (.error (.refused arguments (Text.trimmed (Utf8.decodeLossy complaint)))),
        ⟨t.requests ++ [⟨arguments, folder⟩], t.notes⟩) := by
  have hLogged : (((modify fun t => { t with requests := t.requests ++ [⟨arguments, folder⟩] } :
      Session Unit)).run w).run.run t =
        (.ok (), ⟨t.requests ++ [⟨arguments, folder⟩], t.notes⟩) := rfl
  have hRead (t : Transcript) : ((read : Session Surroundings).run w).run.run t = (.ok w, t) := rfl
  unfold Session.request
  simp only [run_bind, hLogged, hRead]
  cases w.answer arguments with
  | interrupted | unavailable => rfl
  | completed code =>
    dsimp only
    split <;> rfl

/-- An inquiry gets an output, or it gets to know that there is none. -/
theorem request (arguments : List String) :
    ∃ r, CarriesOut w folder (Session.request folder arguments) [.inquiry arguments] (.ok r) ∧
      r.toOption = (w.answer arguments).output? := by
  have hRun := @run_request w folder arguments
  cases h : w.answer arguments with
  | interrupted =>
    -- The run ends here, so any answer will do.
    refine ⟨.error (.unavailable ""), fun t => ⟨t.notes, ?_⟩, rfl⟩
    simp [hRun, h, Errand.stop?, Errand.request?]
  | unavailable reason =>
    refine ⟨.error (.unavailable reason), fun t => ⟨t.notes, ?_⟩, rfl⟩
    simp [hRun, h, Errand.stop?, Errand.request?]
  | completed code output complaint =>
    by_cases hCode : code = 0
    · refine ⟨.ok output, fun t => ⟨t.notes, ?_⟩, by simp [Answer.output?, hCode, Except.toOption]⟩
      simp [hRun, h, hCode, Errand.stop?, Errand.request?]
    · refine ⟨.error (.refused arguments (Text.trimmed (Utf8.decodeLossy complaint))),
        fun t => ⟨t.notes, ?_⟩, by simp [Answer.output?, hCode, Except.toOption]⟩
      simp [hRun, h, hCode, Errand.stop?, Errand.request?]

/-- A demand gets an output, or it ends the run. -/
theorem demand (arguments : List String) :
    CarriesOut w folder (Session.demand folder arguments) [.demand arguments]
      (.ok ((Errand.demand arguments).content w folder)) := by
  intro t
  refine ⟨t.notes, ?_⟩
  rw [Session.demand, run_bind, run_request]
  cases h : w.answer arguments with
  | interrupted => simp [h, Errand.stop?, Errand.request?]
  | unavailable => simp [h, Errand.stop?, Errand.request?]; rfl
  | completed code output complaint =>
    by_cases hCode : code = 0
    · simp [h, hCode, Errand.stop?, Errand.request?, Errand.content, Answer.output?]
      rfl
    · simp [h, hCode, Errand.stop?, Errand.request?]
      rfl

/-- A file that is not committed yet is read without a request. -/
theorem openFile (root : Folder) (path : String) :
    CarriesOut w folder (ChangeSplit.openFile folder root path) [.openFile root path]
      (.ok ((Errand.openFile root path).content w folder)) := by
  intro t
  refine ⟨t.notes, ?_⟩
  have hRead : ((read : Session Surroundings).run w).run.run t = (.ok w, t) := rfl
  simp only [ChangeSplit.openFile, run_bind, hRead]
  cases h : w.readFile root (Path.within folder path) with
  | ok content => simp [h, Errand.stop?, Errand.request?, Errand.content, Except.toOption]; rfl
  | error reason => simp [h, Errand.stop?, Errand.request?]; rfl

/-- A file of a revision is had by a demand. -/
theorem committedFile (revision path : String) :
    CarriesOut w folder (ChangeSplit.committedFile folder revision path)
      [.demand ["show", revision ++ ":" ++ path]]
      (.ok ((Errand.demand ["show", revision ++ ":" ++ path]).content w folder)) :=
  demand _

end CarriesOut

end ChangeSplit
