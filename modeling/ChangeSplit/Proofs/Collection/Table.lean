import ChangeSplit.Collection.Table

/-! Tables as functions from keys to values: what a key finds after a write, and after other keys
were written or erased. -/

namespace ChangeSplit.Table

variable {κ α : Type} [DecidableEq κ]

theorem lookup_putIn (entries : List (κ × α)) (key other : κ) (value : α) :
    ((putIn key value entries).find? (·.1 = other)).map (·.2) =
      if other = key then some value else (entries.find? (·.1 = other)).map (·.2) := by
  induction entries with
  | nil => by_cases h : key = other <;> simp [putIn, h, eq_comm]
  | cons entry rest ih =>
      by_cases hKey : entry.1 = key
      · by_cases hOther : other = key
        · subst hKey
          simp [putIn, hOther]
        · have hSkip : ¬ entry.1 = other := fun h => hOther (h ▸ hKey)
          have hSkip' : ¬ key = other := fun h => hOther h.symm
          simp [putIn, hKey, hOther, hSkip']
      · by_cases hOther : entry.1 = other
        · have hNe : ¬ other = key := fun h => hKey (hOther.trans h)
          simp [putIn, hOther, hNe]
        · simpa [putIn, hKey, hOther] using ih

/-- A write decides what its own key finds, and nothing else. -/
theorem find?_put (t : Table κ α) (key other : κ) (value : α) :
    (t.put key value).find? other = if other = key then some value else t.find? other :=
  lookup_putIn t.entries key other value

/-- Writes of one value decide what their keys find, and nothing else. -/
theorem find?_foldl_put (l : List κ) (t : Table κ α) (key : κ) (value : α) :
    (l.foldl (fun t k => t.put k value) t).find? key =
      if key ∈ l then some value else t.find? key := by
  induction l generalizing t with
  | nil => rfl
  | cons first rest ih =>
      rw [List.foldl_cons, ih, find?_put]
      by_cases hFirst : key = first <;> simp [hFirst]

theorem find?_erase_of_ne (t : Table κ α) {key other : κ} (h : other ≠ key) :
    (t.erase key).find? other = t.find? other := by
  simp only [find?, erase, List.find?_filter]
  congr 2
  funext entry
  by_cases hOther : entry.1 = other
  · simp [hOther, h]
  · simp [hOther]

theorem mem_putIn {entries : List (κ × α)} {key : κ} {value : α} {entry : κ × α}
    (h : entry ∈ putIn key value entries) : entry = (key, value) ∨ entry ∈ entries := by
  induction entries with
  | nil => simpa [putIn] using h
  | cons first rest ih =>
      simp only [putIn] at h
      split at h
      case isTrue hKey =>
        rcases List.mem_cons.1 h with rfl | hRest
        · exact .inl (by rw [hKey])
        · exact .inr (List.mem_cons_of_mem _ hRest)
      case isFalse =>
        rcases List.mem_cons.1 h with rfl | hRest
        · exact .inr (List.mem_cons_self ..)
        · exact (ih hRest).imp id (List.mem_cons_of_mem _)

/-- Values come from writes. A value that is found after some writes is that of one of them. -/
theorem mem_values_foldl_put {β : Type} {l : List β} {key : β → κ} {value : β → α}
    {t : Table κ α} {a : α} (h : a ∈ (l.foldl (fun t b => t.put (key b) (value b)) t).values) :
    a ∈ t.values ∨ ∃ b ∈ l, a = value b := by
  induction l generalizing t with
  | nil => exact .inl h
  | cons b rest ih =>
      rcases ih h with hOld | ⟨c, hc, rfl⟩
      · obtain ⟨entry, hEntry, rfl⟩ := List.mem_map.1 hOld
        rcases mem_putIn hEntry with rfl | hEntry
        · exact .inr ⟨b, List.mem_cons_self .., rfl⟩
        · exact .inl (List.mem_map_of_mem hEntry)
      · exact .inr ⟨c, List.mem_cons_of_mem _ hc, rfl⟩

theorem mem_putIn_self (entries : List (κ × α)) (key : κ) (value : α) :
    (key, value) ∈ putIn key value entries := by
  induction entries with
  | nil => exact List.mem_singleton.2 rfl
  | cons first rest ih =>
      rw [putIn]
      split
      case isTrue hKey =>
        rw [hKey]
        exact List.mem_cons_self ..
      case isFalse => exact List.mem_cons_of_mem _ ih

theorem mem_putIn_of_ne {entries : List (κ × α)} {key : κ} {value : α} {entry : κ × α}
    (h : entry ∈ entries) (hKey : entry.1 ≠ key) : entry ∈ putIn key value entries := by
  induction entries with
  | nil => cases h
  | cons first rest ih =>
      rw [putIn]
      rcases List.mem_cons.1 h with rfl | h
      · rw [if_neg hKey]
        exact List.mem_cons_self ..
      · split
        case isTrue => exact List.mem_cons_of_mem _ h
        case isFalse => exact List.mem_cons_of_mem _ (ih h)

/-- An entry stays through writes that do not give its key another value. -/
theorem mem_entries_foldl_put {β : Type} {l : List β} {key : β → κ} {value : β → α}
    {t : Table κ α} {entry : κ × α} (h : entry ∈ t.entries)
    (hSame : ∀ b ∈ l, key b = entry.1 → value b = entry.2) :
    entry ∈ (l.foldl (fun t b => t.put (key b) (value b)) t).entries := by
  induction l generalizing t with
  | nil => exact h
  | cons b rest ih =>
      refine ih ?_ fun c hc => hSame c (List.mem_cons_of_mem _ hc)
      by_cases hKey : key b = entry.1
      · have hValue := hSame b (List.mem_cons_self ..) hKey
        rw [show entry = (key b, value b) from Prod.ext hKey.symm hValue.symm]
        exact mem_putIn_self _ _ _
      · exact mem_putIn_of_ne h fun hSameKey => hKey hSameKey.symm

/-- What is written under a key of its own is among the values. -/
theorem mem_values_of_mem {β : Type} {l : List β} (key : β → κ) (value : β → α) (t : Table κ α)
    {b : β} (hb : b ∈ l) (hSame : ∀ c ∈ l, key c = key b → value c = value b) :
    value b ∈ (l.foldl (fun t b => t.put (key b) (value b)) t).values := by
  induction l generalizing t with
  | nil => cases hb
  | cons first rest ih =>
      rcases List.mem_cons.1 hb with rfl | hb
      · have hEntry : (key b, value b) ∈
            (rest.foldl (fun t b => t.put (key b) (value b)) (t.put (key b) (value b))).entries :=
          mem_entries_foldl_put (mem_putIn_self t.entries _ _) fun c hc =>
            hSame c (List.mem_cons_of_mem _ hc)
        exact List.mem_map_of_mem hEntry
      · exact ih _ hb fun c hc => hSame c (List.mem_cons_of_mem _ hc)

theorem putIn_of_forall_ne {entries : List (κ × α)} {key : κ} (h : ∀ e ∈ entries, e.1 ≠ key)
    (value : α) : putIn key value entries = entries ++ [(key, value)] := by
  induction entries with
  | nil => rfl
  | cons first rest ih =>
      rw [putIn, if_neg (h first (List.mem_cons_self ..)),
        ih fun e he => h e (List.mem_cons_of_mem _ he), List.cons_append]

/-- Under keys that are all different, values stand in the order in which they were written. -/
theorem entries_foldl_put {β : Type} {l : List β} {key : β → κ} (value : β → α)
    (hNodup : (l.map key).Nodup) :
    (l.foldl (fun t b => t.put (key b) (value b)) ({} : Table κ α)).entries =
      l.map fun b => (key b, value b) := by
  have hFold (t : Table κ α) (hNew : ∀ b ∈ l, ∀ e ∈ t.entries, e.1 ≠ key b) :
      (l.foldl (fun t b => t.put (key b) (value b)) t).entries =
        t.entries ++ l.map fun b => (key b, value b) := by
    induction l generalizing t with
    | nil => simp
    | cons b rest ih =>
        obtain ⟨hFirst, hRest⟩ := List.nodup_cons.1 hNodup
        have hPut : (t.put (key b) (value b)).entries = t.entries ++ [(key b, value b)] :=
          putIn_of_forall_ne (hNew b (List.mem_cons_self ..)) _
        rw [List.foldl_cons, ih hRest, hPut, List.map_cons, List.append_assoc,
          List.singleton_append]
        intro c hc e he
        rw [hPut] at he
        rcases List.mem_append.1 he with he | he
        · exact hNew c (List.mem_cons_of_mem _ hc) e he
        · rw [List.mem_singleton.1 he]
          exact fun hSame => hFirst (List.mem_map.2 ⟨c, hc, hSame.symm⟩)
  simpa using hFold {} fun _ _ _ he => by cases he

section Change

variable {β : Type}

/-- A table with other values under the same keys. -/
def map (f : α → β) (t : Table κ α) : Table κ β := ⟨t.entries.map fun e => (e.1, f e.2)⟩

omit [DecidableEq κ] in
theorem values_map (f : α → β) (t : Table κ α) : (t.map f).values = t.values.map f := by
  simp [map, values]

theorem map_put (f : α → β) (t : Table κ α) (key : κ) (value : α) :
    (t.put key value).map f = (t.map f).put key (f value) := by
  have hEntries (entries : List (κ × α)) : (putIn key value entries).map (fun e => (e.1, f e.2)) =
      putIn key (f value) (entries.map fun e => (e.1, f e.2)) := by
    induction entries with
    | nil => rfl
    | cons entry rest ih => by_cases hKey : entry.1 = key <;> simp [putIn, hKey, ih]
  simp [map, put, hEntries]

theorem foldl_put_map (f : α → β) (key : α → κ) (key' : β → κ) (h : ∀ a, key' (f a) = key a)
    (l : List α) : (l.map f).foldl (fun (t : Table κ β) b => t.put (key' b) b) {} =
      (l.foldl (fun (t : Table κ α) a => t.put (key a) a) {}).map f := by
  have hFold (t : Table κ α) :
      (l.map f).foldl (fun (t : Table κ β) b => t.put (key' b) b) (t.map f) =
        (l.foldl (fun (t : Table κ α) a => t.put (key a) a) t).map f := by
    induction l generalizing t with
    | nil => rfl
    | cons a rest ih => rw [List.map_cons, List.foldl_cons, List.foldl_cons, h, ← map_put, ih]
  exact hFold {}

end Change

section Filter

variable {key : α → κ} {test : α → Bool} (hTest : ∀ a b, key a = key b → test a = test b)

include hTest

theorem filter_putIn (a : α) {entries : List (κ × α)} (hKeys : ∀ e ∈ entries, key e.2 = e.1) :
    (putIn (key a) a entries).filter (test ·.2) =
      if test a then putIn (key a) a (entries.filter (test ·.2))
      else entries.filter (test ·.2) := by
  induction entries with
  | nil => by_cases ha : test a = true <;> simp [putIn, ha]
  | cons entry rest ih =>
      have hEntry := hKeys entry (List.mem_cons_self ..)
      have hRest := ih fun e he => hKeys e (List.mem_cons_of_mem _ he)
      by_cases hKey : entry.1 = key a
      · have hSame := hTest entry.2 a (hEntry.trans hKey)
        by_cases ha : test a = true <;> simp [putIn, hKey, hSame, ha]
      · by_cases ha : test a = true <;> by_cases hb : test entry.2 = true <;>
          simp_all [putIn]

theorem filter_foldl_put (l : List α) {t : Table κ α} (hKeys : ∀ e ∈ t.entries, key e.2 = e.1) :
    (l.foldl (fun (t : Table κ α) a => t.put (key a) a) t).entries.filter (test ·.2) =
      ((l.filter test).foldl (fun (t : Table κ α) a => t.put (key a) a)
        ⟨t.entries.filter (test ·.2)⟩).entries := by
  induction l generalizing t with
  | nil => rfl
  | cons a rest ih =>
      have hNext : ∀ e ∈ (t.put (key a) a).entries, key e.2 = e.1 := by
        intro e he
        rcases mem_putIn he with rfl | he
        · rfl
        · exact hKeys e he
      rw [List.foldl_cons, ih hNext, List.filter_cons]
      dsimp only [put]
      rw [filter_putIn hTest a hKeys]
      split <;> rfl

/-- Values that are written under their own keys can be left out before or after, if keys tell which
are to be left out. -/
theorem filter_values_foldl_put (l : List α) :
    (l.foldl (fun (t : Table κ α) a => t.put (key a) a) {}).values.filter test =
      ((l.filter test).foldl (fun (t : Table κ α) a => t.put (key a) a) {}).values := by
  have hEntries := filter_foldl_put hTest l
    (List.forall_mem_nil fun e : κ × α => key e.2 = e.1)
  simp only [values, List.filter_map]
  exact congrArg (List.map (·.2)) hEntries

end Filter

end ChangeSplit.Table
