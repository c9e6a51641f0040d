import ChangeSplit.Proofs.Data.Reader

/-! The groups of a change as data. The report is made of ASCII characters only, whatever the
names are, and the groups are read back from it. -/

namespace ChangeSplit.Report

open Data (Spells Value)

section Ascii

/-- Every character is an ASCII one. -/
def Ascii (cs : List Char) : Prop := ∀ c ∈ cs, c.toNat < 128

instance (cs : List Char) : Decidable (Ascii cs) :=
  List.decidableBAll (fun c : Char => c.toNat < 128) cs

theorem Ascii.append {cs ds : List Char} (hc : Ascii cs) (hd : Ascii ds) : Ascii (cs ++ ds) :=
  fun c h => (List.mem_append.1 h).elim (hc c) (hd c)

theorem Ascii.flatten {parts : List (List Char)} (h : ∀ part ∈ parts, Ascii part) :
    Ascii parts.flatten := by
  intro c hc
  obtain ⟨part, hPart, hc⟩ := List.mem_flatten.1 hc
  exact h part hPart c hc

theorem Ascii.intercalate {between : List Char} (hBetween : Ascii between)
    {parts : List (List Char)} (h : ∀ part ∈ parts, Ascii part) :
    Ascii (between.intercalate parts) := by
  induction parts with
  | nil => exact List.forall_mem_nil _
  | cons part parts ih =>
      obtain ⟨hPart, hParts⟩ := List.forall_mem_cons.1 h
      cases parts with
      | nil => rwa [List.intercalate_singleton]
      | cons next parts =>
          rw [List.intercalate_cons_cons]
          exact (hPart.append hBetween).append (ih hParts)

theorem ascii_digitChar : ∀ d < 16, (Nat.digitChar d).toNat < 128 := by decide

theorem ascii_escapedUnit {n : Nat} (h : n < 0x10000) : Ascii (escapedUnit n) := by
  have hMarks : Ascii ['\\', 'u'] := by decide
  have hDigits : Ascii (Text.hexadecimal 4 n) := by
    intro c hc
    obtain ⟨d, hd, rfl⟩ := Text.exists_digit_of_mem_hexadecimal 3 h hc
    exact ascii_digitChar d hd
  exact hMarks.append hDigits

theorem ascii_escaped (c : Char) : Ascii (escaped c) := by
  have hChar := Text.toNat_cases c
  unfold escaped
  split_ifs with hMark hLine hReturn hTab hPage hBack hVisible hUnit
  · rcases Bool.or_eq_true_iff.1 hMark with h | h
    · rw [of_decide_eq_true h]
      decide
    · rw [of_decide_eq_true h]
      decide
  · decide
  · decide
  · decide
  · decide
  · decide
  · have hHigh : c.toNat ≤ '~'.toNat := of_decide_eq_true (Bool.and_eq_true_iff.1 hVisible).2
    exact List.forall_mem_singleton.2 (Nat.lt_of_le_of_lt hHigh (by decide))
  · exact ascii_escapedUnit hUnit
  · exact (ascii_escapedUnit (by omega)).append (ascii_escapedUnit (by omega))

theorem ascii_dataString (s : String) : Ascii (dataString s).toList := by
  have hBody : Ascii (s.toList.flatMap escaped) :=
    .flatten (List.forall_mem_map.2 fun c _ => ascii_escaped c)
  have hMark : Ascii ['"'] := by decide
  rw [dataString, String.toList_ofList]
  exact (hMark.append hBody).append hMark

theorem ascii_lineGap (columns : Nat) : Ascii (Data.lineGap columns) := by
  refine List.forall_mem_cons.2 ⟨by decide, fun c hc => ?_⟩
  rw [List.eq_of_mem_replicate hc]
  decide

theorem ascii_block {first last : String} (hFirst : Ascii first.toList) (hLast : Ascii last.toList)
    (indent : Nat) {parts : List String} (hParts : ∀ part ∈ parts, Ascii part.toList) :
    Ascii (block first last indent parts).toList := by
  by_cases hSome : parts = []
  · rw [hSome, block, List.isEmpty_nil, if_pos rfl, String.toList_append]
    exact hFirst.append hLast
  · have hComma : Ascii [','] := by decide
    have hBetween := hComma.append (ascii_lineGap (indent + 2))
    have hInner : Ascii ((',' :: Data.lineGap (indent + 2)).intercalate
        (parts.map String.toList)) :=
      hBetween.intercalate (List.forall_mem_map.2 hParts)
    rw [Data.toList_block hSome]
    exact hFirst.append ((ascii_lineGap _).append (hInner.append ((ascii_lineGap _).append hLast)))

theorem ascii_data (groups : List Group) : Ascii (data groups).toList := by
  refine ascii_block (by decide) (by decide) 0 (List.forall_mem_map.2 fun g _ => ?_)
  have hHunks : Ascii (block "[" "]" 4 (g.hunks.map dataString)).toList :=
    ascii_block (by decide) (by decide) 4
      (List.forall_mem_map.2 fun name _ => ascii_dataString name)
  have hMembers : Ascii (block "\x7b" "\x7d" 2 [
      "\"hunks\": " ++ block "[" "]" 4 (g.hunks.map dataString),
      "\"description\": " ++ dataString g.description]).toList := by
    refine ascii_block (by decide) (by decide) 2 (List.forall_mem_cons.2 ⟨?_,
      List.forall_mem_singleton.2 ?_⟩)
    · rw [String.toList_append]
      exact Ascii.append (by decide) hHunks
    · rw [String.toList_append]
      exact Ascii.append (by decide) (ascii_dataString g.description)
  rw [dataGroup, String.toList_append, String.toList_append]
  exact ((ascii_dataString g.id).append (by decide)).append hMembers

end Ascii

/-- What a group is to other programs: its hunks and what it is about, under its name. -/
def member (g : Group) : String × Value :=
  (g.id, .record [("hunks", .list (g.hunks.map .text)), ("description", .text g.description)])

/-- What the groups are to other programs, in the order they have. -/
def contents (groups : List Group) : Value := .record (groups.map member)

theorem spells_dataGroup (g : Group) {depth : Nat} :
    Spells (Data.member? (Data.value? (depth + 3))) (dataGroup g).toList (member g) := by
  have hHunks : Spells (Data.value? (depth + 2)) (block "[" "]" 4 (g.hunks.map dataString)).toList
      (.list (g.hunks.map .text)) := by
    refine Data.spells_list ?_
    rw [List.map_map, List.forall₂_map_left_iff, List.forall₂_map_right_iff, List.forall₂_same]
    exact fun name _ => Data.spells_dataString name
  refine Data.spells_member (Data.spells_record ?_) g.id
  exact .cons (Data.spells_member hHunks "hunks")
    (.cons (Data.spells_member (Data.spells_dataString g.description) "description") .nil)

/-- A report with a group in it is long enough for the depth of its data. -/
theorem four_le_length_data {groups : List Group} (h : groups ≠ []) :
    4 ≤ (data groups).length := by
  rw [data, ← String.length_toList, Data.toList_block (by simpa using h)]
  simp only [Data.lineGap, List.length_append, List.length_cons, List.length_replicate,
    String.reduceToList, List.length_nil]
  omega

/-- Data of no more than four levels is read back: the groups, each of them, its hunks and their
names. -/
theorem read?_data (groups : List Group) : Data.read? (data groups) = some (contents groups) := by
  by_cases hSome : groups = []
  · subst hSome
    rfl
  obtain ⟨depth, hDepth⟩ := Nat.exists_eq_add_of_le' (four_le_length_data hSome)
  have hSpells : Spells (Data.value? (depth + 4)) (data groups).toList (contents groups) := by
    refine Data.spells_record ?_
    rw [List.map_map, List.forall₂_map_left_iff, List.forall₂_map_right_iff, List.forall₂_same]
    exact fun g _ => spells_dataGroup g
  have hFront : Data.skip (data groups).toList = (data groups).toList := by
    simpa using hSpells.skip_eq (List.forall_mem_nil _) []
  have hRead := hSpells.reads []
  rw [List.append_nil] at hRead
  rw [Data.read?, hFront, hDepth, hRead]
  rfl

theorem contents_inj {groups others : List Group} (h : contents groups = contents others) :
    groups = others := by
  have hText : Function.Injective Value.text := fun _ _ h => Value.text.inj h
  have hMember : Function.Injective member := by
    rintro ⟨id, hunks, description⟩ ⟨id', hunks', description'⟩ h
    simp only [member, Prod.mk.injEq, Value.record.injEq, List.cons.injEq, Value.list.injEq,
      Value.text.injEq, true_and, and_true] at h
    obtain ⟨rfl, hHunks, rfl⟩ := h
    rw [List.map_injective_iff.2 hText hHunks]
  exact List.map_injective_iff.2 hMember (Value.record.inj h)

/-- The groups for other programs are written in ASCII characters. A reader of the data format gets
them back, with their names and hunks in order, so no other groups are written alike. -/
theorem read_data (groups : List Group) :
    (∀ c ∈ (data groups).toList, c.toNat < 128) ∧
      Data.read? (data groups) = some (contents groups) ∧
      ∀ others, data groups = data others ↔ groups = others := by
  refine ⟨ascii_data groups, read?_data groups, fun others => ⟨fun h => ?_, congrArg data⟩⟩
  have hRead := read?_data others
  rw [← h, read?_data groups] at hRead
  exact contents_inj (Option.some.inj hRead)

end ChangeSplit.Report
