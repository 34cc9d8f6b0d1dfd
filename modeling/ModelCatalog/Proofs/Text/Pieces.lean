/-
  ModelCatalog/Proofs/Text/Pieces.lean
  ====================================
  **Pieces that hold no separator are found again.**

  A block of characters of one sort ends at the first character of another sort, so a text
  that begins with one can be cut behind it in one way only (`block_append_inj`).  The
  pieces of a text hold no separator, and they are the only such texts that make it again
  with separators between them (`intercalate_pieces`, `pieces_intercalate`).  A text without
  the separator is one piece, and cannot be cut at it; what stands before the first
  separator is the first piece of a text.
-/
import Mathlib.Data.List.TakeWhile
import ModelCatalog.Text.Pieces

namespace ModelCatalog.Text

variable {separator : Char}

/-! ### Blocks -/

section Blocks

variable {inside : Char → Bool} {block rest : List Char}

/-- A block of characters of one sort ends before the first one of another sort. -/
theorem takeWhile_block (hblock : ∀ c ∈ block, inside c = true)
    (hrest : ∀ c ∈ rest.head?, inside c = false) : (block ++ rest).takeWhile inside = block := by
  have hstop : rest.takeWhile inside = [] := by
    rcases rest with _ | ⟨c, rest⟩
    · exact List.takeWhile_nil
    · exact List.takeWhile_cons_of_neg (by simp [hrest c rfl])
  rw [List.takeWhile_append_of_pos hblock, hstop, List.append_nil]

theorem dropWhile_block (hblock : ∀ c ∈ block, inside c = true)
    (hrest : ∀ c ∈ rest.head?, inside c = false) : (block ++ rest).dropWhile inside = rest := by
  rw [List.dropWhile_append_of_pos hblock]
  rcases rest with _ | ⟨c, rest⟩
  · exact List.dropWhile_nil
  · exact List.dropWhile_cons_of_neg (by simp [hrest c rfl])

/-- So two texts that begin with such a block are the same only if their blocks are. -/
theorem block_append_inj {block' rest' : List Char} (hblock : ∀ c ∈ block, inside c = true)
    (hblock' : ∀ c ∈ block', inside c = true) (hrest : ∀ c ∈ rest.head?, inside c = false)
    (hrest' : ∀ c ∈ rest'.head?, inside c = false) (h : block ++ rest = block' ++ rest') :
    block = block' ∧ rest = rest' := by
  have hblocks : block = block' := by
    rw [← takeWhile_block hblock hrest, h, takeWhile_block hblock' hrest']
  subst hblocks
  exact ⟨rfl, List.append_cancel_left h⟩

end Blocks

/-! ### Pieces -/

theorem piecesOf_eq_splitOn (separator : Char) (cs : List Char) :
    piecesOf separator cs = cs.splitOn separator := by
  induction cs with
  | nil => rfl
  | cons c cs ih =>
    have hne : piecesOf separator cs ≠ [] := ih ▸ List.splitOn_ne_nil separator cs
    obtain ⟨piece, pieces, hpieces⟩ := List.exists_cons_of_ne_nil hne
    rw [piecesOf, List.splitOn_cons_eq_if_modifyHead, ← ih, hpieces]
    by_cases h : c = separator <;> simp [h, consFirst]

theorem piecesOf_of_not_mem {cs : List Char} (h : separator ∉ cs) :
    piecesOf separator cs = [cs] := by
  rw [piecesOf_eq_splitOn, List.splitOn_eq_singleton h]

theorem piecesOf_append {cs : List Char} (h : separator ∉ cs) (rest : List Char) :
    piecesOf separator (cs ++ separator :: rest) = cs :: piecesOf separator rest := by
  rw [piecesOf_eq_splitOn, piecesOf_eq_splitOn, List.splitOn_append_cons_self_of_not_mem h]

theorem not_mem_of_mem_piecesOf {cs piece : List Char} (h : piece ∈ piecesOf separator cs) :
    separator ∉ piece := by
  induction cs generalizing piece with
  | nil =>
    obtain rfl := List.mem_singleton.mp h
    exact List.not_mem_nil
  | cons c cs ih =>
    rw [piecesOf] at h
    split at h
    · rcases List.mem_cons.mp h with rfl | h
      · exact List.not_mem_nil
      · exact ih h
    · -- the first piece goes on with the character, and the others are as they were
      rename_i hc
      have hne : piecesOf separator cs ≠ [] := by
        rw [piecesOf_eq_splitOn]
        exact List.splitOn_ne_nil separator cs
      obtain ⟨first, others, hpieces⟩ := List.exists_cons_of_ne_nil hne
      rw [hpieces, consFirst] at h
      rcases List.mem_cons.mp h with rfl | h
      · have hfirst : separator ∉ first := ih (hpieces ▸ List.mem_cons_self)
        exact List.not_mem_cons_of_ne_of_not_mem (Ne.symm hc) hfirst
      · exact ih (hpieces ▸ List.mem_cons_of_mem first h)

theorem pieces_of_not_mem {s : String} (h : separator ∉ s.toList) : pieces separator s = [s] := by
  rw [pieces, piecesOf_of_not_mem h, List.map_singleton, String.ofList_toList]

theorem pieces_append {s : String} (h : separator ∉ s.toList) (rest : String) :
    pieces separator (s ++ String.singleton separator ++ rest) = s :: pieces separator rest := by
  have hlist : (s ++ String.singleton separator ++ rest).toList =
      s.toList ++ separator :: rest.toList := by simp
  rw [pieces, hlist, piecesOf_append h, List.map_cons, String.ofList_toList, pieces]

/-- Where a separator is put between two texts, their pieces stay as they are. -/
theorem pieces_append_separator (s t : String) :
    pieces separator (s ++ String.singleton separator ++ t) =
      pieces separator s ++ pieces separator t := by
  have hlist : (s ++ String.singleton separator ++ t).toList =
      s.toList ++ separator :: t.toList := by simp
  simp only [pieces, hlist, piecesOf_eq_splitOn, List.splitOn_append_cons_self, List.map_append]

theorem pieces_ne_nil (separator : Char) (s : String) : pieces separator s ≠ [] := by
  rw [pieces, piecesOf_eq_splitOn, Ne, List.map_eq_nil_iff]
  exact List.splitOn_ne_nil separator s.toList

theorem not_mem_of_mem_pieces {s piece : String} (h : piece ∈ pieces separator s) :
    separator ∉ piece.toList := by
  obtain ⟨cs, hcs, rfl⟩ := List.mem_map.mp h
  rw [String.toList_ofList]
  exact not_mem_of_mem_piecesOf hcs

/-- **The pieces with separators between them are the text.** -/
theorem intercalate_pieces (separator : Char) (s : String) :
    (String.singleton separator).intercalate (pieces separator s) = s := by
  have hlists : (pieces separator s).map String.toList = s.toList.splitOn separator := by
    rw [pieces, piecesOf_eq_splitOn, List.map_map]
    exact List.map_id'' (fun _ => String.toList_ofList) _
  rw [← String.toList_inj, String.toList_intercalate, hlists, String.toList_singleton,
    List.intercalate_splitOn]

/-- **Texts without separators are the pieces of what they make with separators between
    them.** -/
theorem pieces_intercalate {texts : List String} (htexts : ∀ s ∈ texts, separator ∉ s.toList)
    (hne : texts ≠ []) :
    pieces separator ((String.singleton separator).intercalate texts) = texts := by
  have hplain : ∀ cs ∈ texts.map String.toList, separator ∉ cs := List.forall_mem_map.mpr htexts
  have hlists : texts.map String.toList ≠ [] := by simpa using hne
  rw [pieces, String.toList_intercalate, String.toList_singleton, piecesOf_eq_splitOn,
    List.splitOn_intercalate separator hplain hlists, List.map_map]
  exact List.map_id'' (fun _ => String.ofList_toList) texts

theorem cutFirst_of_not_mem {s : String} (h : separator ∉ s.toList) :
    cutFirst separator s = (s, none) := by
  have hplain : ∀ c ∈ s.toList, (c != separator) = true := by
    intro c hc
    rw [bne_iff_ne]
    rintro rfl
    exact h hc
  simp [cutFirst, List.takeWhile_eq_self_iff.mpr hplain, List.dropWhile_eq_nil_iff.mpr hplain]

end ModelCatalog.Text
