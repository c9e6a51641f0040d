import Mathlib.Data.List.Forall2
import Mathlib.Data.List.Nodup

/-! Lemmas on walks over lists: ones that may fail, folds, and searches that pass over a part. -/

namespace ChangeSplit

variable {ε α β γ σ : Type}

theorem mem_toOption_iff {x : Except ε α} {a : α} : a ∈ x.toOption.toList ↔ x = .ok a := by
  cases x <;> simp [Except.toOption, eq_comm]

theorem exists_ok_of_map {x : Except ε α} {f : α → β} {b : β} (h : x.map f = .ok b) :
    ∃ a, x = .ok a ∧ f a = b := by
  cases x with
  | error e => cases h
  | ok a => exact ⟨a, rfl, Except.ok.inj h⟩

theorem exists_ok_of_bind {x : Except ε α} {f : α → Except ε β} {b : β} (h : x >>= f = .ok b) :
    ∃ a, x = .ok a ∧ f a = .ok b := by
  cases x with
  | error e => cases h
  | ok a => exact ⟨a, rfl, h⟩

theorem exists_ok_of_toOption {x : Except ε α} {f : α → β} {b : β}
    (h : x.toOption.map f = some b) : ∃ a, x = .ok a ∧ f a = b := by
  cases x with
  | error e => cases h
  | ok a => exact ⟨a, rfl, Option.some.inj h⟩

/-- Every element gave its result, in order. -/
theorem forall₂_of_mapM {f : α → Except ε β} {l : List α} {r : List β} (h : l.mapM f = .ok r) :
    List.Forall₂ (fun a b => f a = .ok b) l r := by
  induction l generalizing r with
  | nil =>
      cases h
      exact .nil
  | cons a rest ih =>
      rw [List.mapM_cons] at h
      cases hHead : f a with
      | error e =>
          rw [hHead] at h
          cases h
      | ok b =>
          rw [hHead] at h
          cases hTail : rest.mapM f with
          | error e =>
              rw [hTail] at h
              cases h
          | ok bs =>
              rw [hTail] at h
              cases h
              exact .cons hHead (ih hTail)

theorem map_eq_of_forall₂ {R : α → β → Prop} {p : α → γ} {q : β → γ} {l : List α} {r : List β}
    (h : List.Forall₂ R l r) (hStep : ∀ a b, R a b → q b = p a) : r.map q = l.map p := by
  induction h with
  | nil => rfl
  | cons hHead _ ih => simp [hStep _ _ hHead, ih]

theorem exists_right_of_forall₂ {R : α → β → Prop} {l : List α} {r : List β} {a : α}
    (h : List.Forall₂ R l r) (ha : a ∈ l) : ∃ b ∈ r, R a b := by
  induction h with
  | nil => cases ha
  | cons hHead _ ih =>
      rcases List.mem_cons.1 ha with rfl | ha
      · exact ⟨_, List.mem_cons_self .., hHead⟩
      · obtain ⟨b, hb, hStep⟩ := ih ha
        exact ⟨b, List.mem_cons_of_mem _ hb, hStep⟩

theorem exists_left_of_forall₂ {R : α → β → Prop} {l : List α} {r : List β} {b : β}
    (h : List.Forall₂ R l r) (hb : b ∈ r) : ∃ a ∈ l, R a b :=
  exists_right_of_forall₂ (R := fun b a => R a b) h.flip hb

theorem map_eq_of_mapM {f : α → Except ε β} {p : α → γ} {q : β → γ} {l : List α} {r : List β}
    (h : l.mapM f = .ok r) (hStep : ∀ a b, f a = .ok b → q b = p a) : r.map q = l.map p :=
  map_eq_of_forall₂ (forall₂_of_mapM h) hStep

theorem exists_source_of_mapM {f : α → Except ε β} {l : List α} {r : List β} {b : β}
    (h : l.mapM f = .ok r) (hb : b ∈ r) : ∃ a ∈ l, f a = .ok b :=
  exists_left_of_forall₂ (R := fun a b => f a = .ok b) (forall₂_of_mapM h) hb

theorem exists_result_of_mapM {f : α → Except ε β} {l : List α} {r : List β} {a : α}
    (h : l.mapM f = .ok r) (ha : a ∈ l) : ∃ b ∈ r, f a = .ok b :=
  exists_right_of_forall₂ (R := fun a b => f a = .ok b) (forall₂_of_mapM h) ha

/-- If no element fails, the walk gets through. -/
theorem exists_mapM_ok {f : α → Except ε β} {l : List α} (h : ∀ a ∈ l, ∃ b, f a = .ok b) :
    ∃ r, l.mapM f = .ok r := by
  induction l with
  | nil => exact ⟨[], rfl⟩
  | cons a rest ih =>
      obtain ⟨b, hb⟩ := h a (List.mem_cons_self ..)
      obtain ⟨bs, hbs⟩ := ih fun c hc => h c (List.mem_cons_of_mem _ hc)
      exact ⟨b :: bs, by rw [List.mapM_cons, hb, hbs]; rfl⟩

/-- A walk only fails where an element does. -/
theorem exists_error_of_mapM {f : α → Except ε β} {l : List α} {e : ε} (h : l.mapM f = .error e) :
    ∃ a ∈ l, f a = .error e := by
  induction l with
  | nil => cases h
  | cons a rest ih =>
      rw [List.mapM_cons] at h
      cases hHead : f a with
      | error e' =>
          rw [hHead] at h
          cases h
          exact ⟨a, List.mem_cons_self .., hHead⟩
      | ok b =>
          rw [hHead] at h
          cases hTail : rest.mapM f with
          | error e' =>
              rw [hTail] at h
              cases h
              obtain ⟨c, hc, hError⟩ := ih hTail
              exact ⟨c, List.mem_cons_of_mem _ hc, hError⟩
          | ok bs =>
              rw [hTail] at h
              cases h

/-- A walk that gets through has a result for every element, in order. -/
theorem map_eq_of_mapM_some {f : α → Option β} {l : List α} {r : List β} (h : l.mapM f = some r) :
    l.map f = r.map some := by
  induction l generalizing r with
  | nil =>
      cases h
      rfl
  | cons a rest ih =>
      rw [List.mapM_cons] at h
      obtain ⟨b, hb, h⟩ := Option.bind_eq_some_iff.1 h
      obtain ⟨bs, hbs, h⟩ := Option.bind_eq_some_iff.1 h
      cases h
      rw [List.map_cons, List.map_cons, hb, ih hbs]

theorem exists_mapM_some {f : α → Option β} {l : List α} (h : ∀ a ∈ l, ∃ b, f a = some b) :
    ∃ r, l.mapM f = some r := by
  induction l with
  | nil => exact ⟨[], rfl⟩
  | cons a rest ih =>
      obtain ⟨b, hb⟩ := h a (List.mem_cons_self ..)
      obtain ⟨bs, hbs⟩ := ih fun c hc => h c (List.mem_cons_of_mem _ hc)
      exact ⟨b :: bs, by rw [List.mapM_cons, hb, hbs]; rfl⟩

/-- What every step carries on from the elements that came before, the whole walk carries on. -/
theorem foldlM_history (motive : List α → σ → Prop) (done : List α) {f : σ → α → Except ε σ}
    {l : List α} {s t : σ} (hStart : motive done s) (h : l.foldlM f s = .ok t)
    (hStep : ∀ a ∈ l, ∀ done s t, motive done s → f s a = .ok t → motive (done ++ [a]) t) :
    motive (done ++ l) t := by
  induction l generalizing done s with
  | nil =>
      cases h
      rwa [List.append_nil]
  | cons a rest ih =>
      rw [List.foldlM_cons] at h
      obtain ⟨u, hHead, hTail⟩ := exists_ok_of_bind h
      rw [List.append_cons]
      exact ih _ (hStep a (List.mem_cons_self ..) done s u hStart hHead) hTail
        fun b hb => hStep b (List.mem_cons_of_mem _ hb)

/-- What every step preserves, the whole walk preserves. -/
theorem foldlM_invariant {motive : σ → Prop} {f : σ → α → Except ε σ} {l : List α} {s t : σ}
    (hStart : motive s) (h : l.foldlM f s = .ok t)
    (hStep : ∀ a ∈ l, ∀ s t, motive s → f s a = .ok t → motive t) : motive t :=
  foldlM_history (fun _ => motive) [] hStart h fun a ha _ => hStep a ha

/-- If what holds with an element ahead lets the step get through and holds without it afterwards,
the whole walk gets through. -/
theorem exists_foldlM_ok (motive : List α → σ → Prop) {f : σ → α → Except ε σ} {l : List α} {s : σ}
    (hStart : motive l s)
    (hStep : ∀ a rest s, motive (a :: rest) s → ∃ t, f s a = .ok t ∧ motive rest t) :
    ∃ t, l.foldlM f s = .ok t := by
  induction l generalizing s with
  | nil => exact ⟨s, rfl⟩
  | cons a rest ih =>
      obtain ⟨u, hHead, hRest⟩ := hStep a rest s hStart
      obtain ⟨t, hTail⟩ := ih hRest
      exact ⟨t, by rw [List.foldlM_cons, hHead]; exact hTail⟩

/-- If every step brings something about under a condition of its own, and otherwise leaves it
alone, the walk brings it about if the condition of some step holds. -/
theorem foldlM_iff {motive : σ → Prop} (brings : α → Prop) {f : σ → α → Except ε σ} {l : List α}
    {s t : σ} (h : l.foldlM f s = .ok t)
    (hStep : ∀ a ∈ l, ∀ s t, f s a = .ok t → (motive t ↔ motive s ∨ brings a)) :
    motive t ↔ motive s ∨ ∃ a ∈ l, brings a := by
  refine foldlM_history (fun done t => motive t ↔ motive s ∨ ∃ a ∈ done, brings a) [] (by simp) h
    fun a ha done u v hDone hHead => ?_
  rw [hStep a ha u v hHead, hDone, or_assoc]
  simp [or_and_right, exists_or]

/-- If the steps that are kept are followed by another walk, and the others make no difference to
it, the other walk gets through the steps that are kept. -/
theorem foldlM_filter {τ : Type} {R : σ → τ → Prop} {keep : α → Bool} {f : σ → α → Except ε σ}
    {f' : τ → α → Except ε τ} {l : List α} {s s' : σ} {t : τ} (hStart : R s t)
    (h : l.foldlM f s = .ok s')
    (hStep : ∀ a ∈ l, keep a = true → ∀ s s' t, R s t → f s a = .ok s' →
      ∃ t', f' t a = .ok t' ∧ R s' t')
    (hSkip : ∀ a ∈ l, keep a = false → ∀ s s' t, R s t → f s a = .ok s' → R s' t) :
    ∃ t', (l.filter keep).foldlM f' t = .ok t' ∧ R s' t' := by
  induction l generalizing s t with
  | nil =>
      cases h
      exact ⟨t, rfl, hStart⟩
  | cons a rest ih =>
      rw [List.foldlM_cons] at h
      obtain ⟨u, hHead, hTail⟩ := exists_ok_of_bind h
      have hRest := fun t hR => ih (t := t) hR hTail
        (fun b hb => hStep b (List.mem_cons_of_mem _ hb))
        fun b hb => hSkip b (List.mem_cons_of_mem _ hb)
      cases hKeep : keep a with
      | true =>
          obtain ⟨t', hFirst, hR⟩ := hStep a (List.mem_cons_self ..) hKeep s u t hStart hHead
          rw [List.filter_cons_of_pos hKeep, List.foldlM_cons, hFirst]
          exact hRest t' hR
      | false =>
          rw [List.filter_cons_of_neg (by simp [hKeep])]
          exact hRest t (hSkip a (List.mem_cons_self ..) hKeep s u t hStart hHead)

/-- A walk that another follows step by step is followed to its end. -/
theorem foldlM_follow {τ : Type} {R : σ → τ → Prop} {f : σ → α → Except ε σ}
    {f' : τ → α → Except ε τ} {l : List α} {s s' : σ} {t : τ} (hStart : R s t)
    (h : l.foldlM f s = .ok s')
    (hStep : ∀ a ∈ l, ∀ s s' t, R s t → f s a = .ok s' → ∃ t', f' t a = .ok t' ∧ R s' t') :
    ∃ t', l.foldlM f' t = .ok t' ∧ R s' t' := by
  have hAll : ∃ t', (l.filter fun _ => true).foldlM f' t = .ok t' ∧ R s' t' :=
    foldlM_filter hStart h (fun a ha _ => hStep a ha) (fun _ _ hSkip => by cases hSkip)
  rwa [List.filter_true] at hAll

/-- What is known of every step that fails is known of a walk that fails. -/
theorem foldlM_error (fails : ε → Prop) {motive : σ → Prop} {f : σ → α → Except ε σ} {l : List α}
    {s : σ} {e : ε} (hStart : motive s) (h : l.foldlM f s = .error e)
    (hStep : ∀ a ∈ l, ∀ s t, motive s → f s a = .ok t → motive t)
    (hFail : ∀ a ∈ l, ∀ s e, motive s → f s a = .error e → fails e) : fails e := by
  induction l generalizing s with
  | nil => cases h
  | cons a rest ih =>
      rw [List.foldlM_cons] at h
      cases hHead : f s a with
      | error e' =>
          rw [hHead] at h
          cases h
          exact hFail a (List.mem_cons_self ..) s e hStart hHead
      | ok u =>
          rw [hHead] at h
          exact ih (hStep a (List.mem_cons_self ..) s u hStart hHead) h
            (fun b hb => hStep b (List.mem_cons_of_mem _ hb))
            fun b hb => hFail b (List.mem_cons_of_mem _ hb)

/-- Each element is kept once. What is kept first is struck from the rest, so the rest gets
shorter. -/
theorem nodup_eraseDups [BEq α] [LawfulBEq α] (l : List α) : l.eraseDups.Nodup := by
  induction h : l.length using Nat.strongRecOn generalizing l with
  | ind n ih =>
      cases l with
      | nil => exact .nil
      | cons a rest =>
          rw [List.eraseDups_cons, List.nodup_cons]
          have hShorter : (rest.filter fun b => !b == a).length < n := by
            have hLength := List.length_filter_le (fun b => !b == a) rest
            simp only [List.length_cons] at h
            omega
          exact ⟨by simp [List.mem_eraseDups], ih _ hShorter _ rfl⟩

/-- The lookup in a list of pairs whose keys differ finds each pair. -/
theorem lookup_eq_some_iff_mem {κ : Type} [BEq κ] [LawfulBEq κ] {found : List (κ × α)}
    (h : (found.map Prod.fst).Nodup) {b : κ} {d : α} :
    found.lookup b = some d ↔ (b, d) ∈ found := by
  constructor
  · intro hFound
    obtain ⟨before, after, rfl, _⟩ := List.lookup_eq_some_iff.1 hFound
    exact List.mem_append_right _ List.mem_cons_self
  · intro hMem
    cases hFound : found.lookup b with
    | none => exact absurd rfl (bne_iff_ne.1 (List.lookup_eq_none_iff.1 hFound _ hMem))
    | some e =>
        obtain ⟨before, after, rfl, _⟩ := List.lookup_eq_some_iff.1 hFound
        have hSame := List.inj_on_of_nodup_map h hMem
          (List.mem_append_right before List.mem_cons_self) rfl
        exact congrArg (fun p : κ × α => some p.2) hSame.symm

/-- If every step either gives an observation its last value or leaves it alone, it has its last
value in the end, provided that it had it before or some step gives it. -/
theorem observe_foldl (look : σ → γ) {f : σ → α → σ} {value : γ} {l : List α} {s : σ}
    (hStep : ∀ a ∈ l, ∀ s, look (f s a) = value ∨ look (f s a) = look s)
    (hSome : look s = value ∨ ∃ a ∈ l, ∀ s, look (f s a) = value) :
    look (l.foldl f s) = value := by
  induction l generalizing s with
  | nil =>
      rcases hSome with h | ⟨a, ha, _⟩
      · exact h
      · cases ha
  | cons a rest ih =>
      refine ih (fun b hb => hStep b (List.mem_cons_of_mem _ hb)) ?_
      rcases hSome with h | ⟨b, hb, hWrites⟩
      · rcases hStep a (List.mem_cons_self ..) s with hValue | hSame
        · exact .inl hValue
        · exact .inl (hSame.trans h)
      · rcases List.mem_cons.1 hb with rfl | hb
        · exact .inl (hWrites s)
        · exact .inr ⟨b, hb, hWrites⟩

/-- What is not passed over by a search is still there behind what was passed over. -/
theorem mem_dropWhile_of_mem {p : α → Bool} {l : List α} {a : α} (ha : a ∈ l)
    (hp : p a = false) : a ∈ l.dropWhile p := by
  induction l with
  | nil => cases ha
  | cons b rest ih =>
      rw [List.dropWhile_cons]
      split
      case isTrue hSkip =>
        rcases List.mem_cons.1 ha with rfl | ha
        · rw [hp] at hSkip
          cases hSkip
        · exact ih ha
      case isFalse => exact ha

end ChangeSplit
