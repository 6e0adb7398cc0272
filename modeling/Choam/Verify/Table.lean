import Choam.Cli.Output
import Choam.Verify.Lexing

/-!
# Printed tables can be read

The rule under the header tells the widths of the columns, and with these every cell is found again
in its line, up to the blanks behind it; the last line tells the number of rows
(`readTable_formatTable`). A table is printed unless a column is wider than `format!` can fill up.
-/

namespace Choam

namespace Shell

variable {u : Unicode}

/-! ## Blanks at the end -/

section TrimEnd

variable {line blanks : List Char}

theorem trimEnd_append (h : ∀ c ∈ blanks, u.isWhitespace c = true) :
    trimEnd u (line ++ blanks) = trimEnd u line := by
  rw [trimEnd, trimEnd, List.rdropWhile, List.rdropWhile, List.reverse_append,
    List.dropWhile_append_of_pos fun c hc => h c (List.mem_reverse.mp hc)]

theorem trimEnd_spec (line : List Char) :
    ∃ blanks, line = trimEnd u line ++ blanks ∧ ∀ c ∈ blanks, u.isWhitespace c = true := by
  refine ⟨line.rtakeWhile u.isWhitespace, List.rdropWhile_append_rtakeWhile.symm, ?_⟩
  exact fun c hc => List.mem_rtakeWhile_imp hc

end TrimEnd

/-! ## Lines -/

/-- The cells of these widths in a line. -/
def readLine : List Nat → List Char → List (List Char)
  | [], _ => []
  | w :: ws, line => line.take w :: readLine ws (line.drop (w + 3))

theorem readLine_append {blanks : List Char} (h : ∀ c ∈ blanks, u.isWhitespace c = true)
    (ws : List Nat) (line : List Char) : (readLine ws (line ++ blanks)).map (trimEnd u) =
      (readLine ws line).map (trimEnd u) := by
  induction ws generalizing line blanks with
  | nil => rfl
  | cons w ws ih =>
    rw [readLine, readLine, List.map_cons, List.map_cons, List.take_append, List.drop_append,
      trimEnd_append fun c hc => h c (List.mem_of_mem_take hc),
      ih fun c hc => h c (List.mem_of_mem_drop hc)]

/-- The cell, filled up with blanks to the width. -/
def filled (c : String) (w : Nat) : List Char := c.toList ++ List.replicate (w - c.length) ' '

theorem length_filled {c : String} {w : Nat} (h : c.length ≤ w) : (filled c w).length = w := by
  rw [filled, List.length_append, String.length_toList, List.length_replicate]
  omega

/-- The line that is printed where no column is too wide. -/
def lineText (u : Unicode) (ws : List Nat) (cells : List String) : List Char :=
  trimEnd u (" | ".toList.intercalate (List.zipWith filled cells ws))

/-- The line as it is before its end is trimmed. -/
theorem readLine_intercalate {cells : List String} {ws : List Nat}
    (h : List.Forall₂ (fun c w => c.length ≤ w) cells ws) :
    readLine ws (" | ".toList.intercalate (List.zipWith filled cells ws)) =
      List.zipWith filled cells ws := by
  induction h with
  | nil => rfl
  | @cons c w cells ws hc hrest ih =>
    have hlen := length_filled hc
    cases hrest with
    | nil =>
      rw [List.zipWith_cons_cons, List.zipWith_nil_left, List.intercalate_singleton, readLine,
        List.take_of_length_le hlen.le]
      rfl
    | @cons c' w' cells ws hc' hrest =>
      rw [List.zipWith_cons_cons, List.zipWith_cons_cons, List.intercalate_cons_cons, readLine,
        ← List.zipWith_cons_cons (f := filled), List.append_assoc, List.take_left' hlen]
      rw [← List.append_assoc, List.drop_left' (by rw [List.length_append, hlen]; rfl), ih]

/-- **Every cell is found in its line.** -/
theorem readLine_lineText (hu : u.isWhitespace ' ' = true) {cells : List String} {ws : List Nat}
    (h : List.Forall₂ (fun c w => c.length ≤ w) cells ws) :
    (readLine ws (lineText u ws cells)).map (trimEnd u) =
      cells.map fun c => trimEnd u c.toList := by
  obtain ⟨blanks, hline, hblanks⟩ :=
    trimEnd_spec (u := u) (" | ".toList.intercalate (List.zipWith filled cells ws))
  have hread := readLine_append hblanks ws (lineText u ws cells)
  rw [lineText, ← hline, readLine_intercalate h] at hread
  rw [lineText, ← hread]
  clear hread hblanks hline
  induction h with
  | nil => rfl
  | cons hc hrest ih =>
    rw [List.zipWith_cons_cons, List.map_cons, List.map_cons, ih, filled,
      trimEnd_append fun c hc => (List.eq_of_mem_replicate hc) ▸ hu]

/-! ## The rule -/

/-- The widths that a rule tells, from behind some of its dashes. -/
def readRule (n : Nat) : List Char → List Nat
  | [] => [n]
  | '+' :: _ :: rest => (n - 1) :: readRule 0 rest
  | _ :: rest => readRule (n + 1) rest

theorem readRule_replicate (n w : Nat) (rest : List Char) :
    readRule n (List.replicate w '-' ++ rest) = readRule (n + w) rest := by
  induction w generalizing n with
  | zero => rfl
  | succ w ih =>
    rw [List.replicate_succ, List.cons_append, readRule, ih, Nat.add_right_comm, Nat.add_assoc]
    simp

theorem readRule_rule {ws : List Nat} (h : ws ≠ []) : readRule 0 (rule ws) = ws := by
  induction ws with
  | nil => exact absurd rfl h
  | cons w ws ih =>
    cases ws with
    | nil =>
      have hread := readRule_replicate 0 w []
      rw [List.append_nil, Nat.zero_add] at hread
      rw [rule, List.map_singleton, List.intercalate_singleton, hread]
      rfl
    | cons w' ws =>
      have hrule : rule (w :: w' :: ws) =
          List.replicate w '-' ++ ('-' :: '+' :: '-' :: rule (w' :: ws)) := by
        rw [rule, List.map_cons, List.map_cons, List.intercalate_cons_cons, List.append_assoc]
        rfl
      rw [hrule, readRule_replicate, Nat.zero_add]
      rw [readRule, readRule, ih (List.cons_ne_nil _ _)]
      · rfl
      · simp

/-! ## The table -/

/-- A line with its line feed, in front of others. -/
theorem readLines_append {line : List Char} (h : '\n' ∉ line) (rest : List Char) :
    readLines (line ++ '\n' :: rest) = (line ++ ['\n']) :: readLines rest := by
  induction line with
  | nil => rfl
  | cons c line ih =>
    have hc : c ≠ '\n' := fun hc => h (hc ▸ List.mem_cons_self)
    rw [List.cons_append, readLines, if_neg hc, ih fun hm => h (List.mem_cons_of_mem c hm)]
    rfl

theorem readLines_flatMap (lines : List (List Char)) (h : ∀ l ∈ lines, '\n' ∉ l)
    (rest : List Char) : readLines (lines.flatMap (fun l => l ++ ['\n']) ++ rest) =
      lines.map (· ++ ['\n']) ++ readLines rest := by
  induction lines with
  | nil => rfl
  | cons l lines ih =>
    obtain ⟨hl, hlines⟩ := List.forall_mem_cons.mp h
    rw [List.flatMap_cons, List.append_assoc, List.append_assoc, List.singleton_append,
      readLines_append hl, ih hlines]
    rfl

/-- The number at the beginning of a row count. -/
def readCount (line : List Char) : Nat :=
  Nat.ofDigitChars 10 ((line.drop 1).takeWhile Char.isDigit) 0

theorem readCount_rowCount (n : Nat) : readCount (rowCount n).toList = n := by
  have hdigits : (toString n).toList = Nat.toDigits 10 n := Nat.toList_repr
  have hline : (rowCount n).toList = '(' ::
      (Nat.toDigits 10 n ++ ' ' :: (("row" ++ if n = 1 then "" else "s") ++ ")").toList) := by
    rw [rowCount, ← hdigits]
    simp
  rw [readCount, hline, List.drop_one, List.tail_cons, List.takeWhile_append_of_pos fun c hc =>
    Nat.isDigit_of_mem_toDigits (b := 10) (by decide) (by decide) hc, List.takeWhile_cons_of_neg
    (by decide), List.append_nil, Nat.ofDigitChars_ten_toDigits]

/-- The cells of a table, line by line, from its header on, and the number of rows that its last
line tells. -/
def readTable (u : Unicode) (text : String) : List (List (List Char)) × Nat :=
  match (readLines text.toList).map List.dropLast with
  | header :: rule :: rest =>
    ((header :: rest.dropLast).map fun l => (readLine (readRule 0 rule) l).map (trimEnd u),
      readCount (rest.getLast?.getD []))
  | _ => ([], 0)

theorem le_foldr_max {m n : Nat} {l : List Nat} (h : n = m ∨ n ∈ l) : n ≤ l.foldr max m := by
  induction l with
  | nil =>
    rcases h with rfl | h
    · exact Nat.le_refl n
    · cases h
  | cons k l ih =>
    rw [List.foldr_cons, le_max_iff]
    rcases h with h | h
    · exact .inr (ih (.inl h))
    · rcases List.mem_cons.mp h with rfl | h
      · exact .inl (Nat.le_refl n)
      · exact .inr (ih (.inr h))

/-- The widths of the columns, of rows that are long enough. -/
def columnWidths (columns : List String) (body : List (List String)) : List Nat :=
  columns.mapIdx fun i c => (body.map fun row => ((row[i]?).getD "").length).foldr max c.length

theorem fits_columnWidths {columns : List String} {body : List (List String)} {cells : List String}
    (hcells : cells ∈ columns :: body) (hlen : cells.length = columns.length) :
    List.Forall₂ (fun c w => c.length ≤ w) cells (columnWidths columns body) := by
  have hcount : cells.length = (columnWidths columns body).length := by
    rw [hlen, columnWidths, List.length_mapIdx]
  refine List.forall₂_iff_get.mpr ⟨hcount, fun i hi hw => ?_⟩
  rw [List.get_eq_getElem, List.get_eq_getElem]
  simp only [columnWidths, List.getElem_mapIdx]
  apply le_foldr_max
  rcases List.mem_cons.mp hcells with rfl | hmem
  · exact .inl rfl
  · refine .inr (List.mem_map.mpr ⟨cells, hmem, ?_⟩)
    rw [List.getElem?_eq_getElem hi]
    rfl

theorem foldr_max_le {m n : Nat} {l : List Nat} (hm : m ≤ n) (h : ∀ k ∈ l, k ≤ n) :
    l.foldr max m ≤ n := by
  induction l with
  | nil => exact hm
  | cons k l ih =>
    obtain ⟨hk, hl⟩ := List.forall_mem_cons.mp h
    exact max_le hk (ih hl)

/-- No column is too wide exactly if no cell is. -/
theorem columnWidths_le {columns : List String} {body : List (List String)}
    (hlen : ∀ cells ∈ columns :: body, cells.length = columns.length) {n : Nat} :
    (∀ w ∈ columnWidths columns body, w ≤ n) ↔ ∀ cells ∈ columns :: body, ∀ c ∈ cells,
      c.length ≤ n := by
  constructor
  · intro h cells hcells c hc
    have hfits := fits_columnWidths hcells (hlen cells hcells)
    obtain ⟨i, hi, rfl⟩ := List.getElem_of_mem hc
    have hw := hfits.length_eq ▸ hi
    exact ((List.forall₂_iff_get.mp hfits).2 i hi hw).trans (h _ (List.get_mem _ _))
  · intro h w hw
    obtain ⟨i, hi, rfl⟩ := List.getElem_of_mem hw
    rw [columnWidths, List.length_mapIdx] at hi
    simp only [columnWidths, List.getElem_mapIdx]
    refine foldr_max_le (h _ List.mem_cons_self _ (List.getElem_mem hi)) fun k hk => ?_
    obtain ⟨row, hrow, rfl⟩ := List.mem_map.mp hk
    have hrow := List.mem_cons_of_mem columns hrow
    have hi' : i < row.length := (hlen row hrow).symm ▸ hi
    rw [List.getElem?_eq_getElem hi']
    exact h row hrow _ (List.getElem_mem hi')

theorem mem_intercalate {c : Char} {sep : List Char} {pieces : List (List Char)}
    (h : c ∈ sep.intercalate pieces) : c ∈ sep ∨ ∃ p ∈ pieces, c ∈ p := by
  induction pieces with
  | nil => cases h
  | cons p pieces ih =>
    cases pieces with
    | nil =>
      rw [List.intercalate_singleton] at h
      exact .inr ⟨p, List.mem_cons_self, h⟩
    | cons p' pieces =>
      rw [List.intercalate_cons_cons, List.mem_append, List.mem_append] at h
      rcases h with (h | h) | h
      · exact .inr ⟨p, List.mem_cons_self, h⟩
      · exact .inl h
      · rcases ih h with h | ⟨q, hq, h⟩
        · exact .inl h
        · exact .inr ⟨q, List.mem_cons_of_mem p hq, h⟩

theorem exists_of_mem_filled {cells : List String} {ws : List Nat} {p : List Char}
    (h : p ∈ List.zipWith filled cells ws) : ∃ c ∈ cells, ∃ w, p = filled c w := by
  rw [← List.map_uncurry_zip_eq_zipWith] at h
  obtain ⟨⟨c, w⟩, hmem, rfl⟩ := List.mem_map.mp h
  exact ⟨c, (List.of_mem_zip hmem).1, w, rfl⟩

theorem notMem_lineText {ws : List Nat} {cells : List String} (h : ∀ c ∈ cells, '\n' ∉ c.toList) :
    '\n' ∉ lineText u ws cells := by
  intro hmem
  have htrim := List.rdropWhile_prefix u.isWhitespace
    (" | ".toList.intercalate (List.zipWith filled cells ws))
  rcases mem_intercalate (htrim.subset hmem) with hsep | ⟨p, hp, hmem⟩
  · revert hsep
    decide
  · obtain ⟨c, hc, w, rfl⟩ := exists_of_mem_filled hp
    rcases List.mem_append.mp hmem with hmem | hmem
    · exact h c hc hmem
    · cases List.eq_of_mem_replicate hmem

theorem notMem_rule (ws : List Nat) : '\n' ∉ rule ws := by
  intro hmem
  rcases mem_intercalate hmem with hsep | ⟨p, hp, hmem⟩
  · revert hsep
    decide
  · obtain ⟨w, -, rfl⟩ := List.mem_map.mp hp
    cases List.eq_of_mem_replicate hmem

theorem notMem_rowCount (n : Nat) : '\n' ∉ (rowCount n).toList := by
  have hdigits : '\n' ∉ (toString n).toList := by
    intro hmem
    have := Nat.isDigit_of_mem_toDigits (b := 10) (n := n) (by decide) (by decide)
      (Nat.toList_repr ▸ hmem)
    cases this
  intro hmem
  rw [rowCount] at hmem
  simp only [String.toList_append, List.mem_append] at hmem
  rcases hmem with (((hmem | hmem) | hmem) | hmem) | hmem
  · revert hmem
    decide
  · exact hdigits hmem
  · revert hmem
    decide
  · split at hmem <;>
    · revert hmem
      decide
  · revert hmem
    decide

/-! ## What is printed -/

theorem mapM_padded (cells : List String) (ws : List Nat) :
    (cells.zip ws).mapM (fun p => padded p.1 p.2) =
      if ∀ p ∈ cells.zip ws, p.2 ≤ maxWidth then some (List.zipWith filled cells ws) else none := by
  induction cells generalizing ws with
  | nil => rfl
  | cons c cells ih =>
    cases ws with
    | nil => rfl
    | cons w ws =>
      rw [List.zip_cons_cons, List.mapM_cons, ih, padded]
      have hcons : (∀ p ∈ (c, w) :: cells.zip ws, p.2 ≤ maxWidth) ↔
          w ≤ maxWidth ∧ ∀ p ∈ cells.zip ws, p.2 ≤ maxWidth := List.forall_mem_cons
      rw [if_congr hcons rfl rfl]
      by_cases hw : w ≤ maxWidth
      · by_cases hrest : ∀ p ∈ cells.zip ws, p.2 ≤ maxWidth
        · rw [if_pos hw, if_pos hrest, if_pos ⟨hw, hrest⟩]
          rfl
        · rw [if_pos hw, if_neg hrest, if_neg fun h : _ ∧ _ => hrest h.2]
          rfl
      · rw [if_neg hw, if_neg fun h : _ ∧ _ => hw h.1]
        rfl

/-- A line is printed, unless one of its columns is too wide. -/
theorem line_eq {ws : List Nat} {cells : List String} (hlen : cells.length = ws.length) :
    line u ws cells = if ∀ w ∈ ws, w ≤ maxWidth then some (lineText u ws cells) else none := by
  have hwidths : (∀ p ∈ cells.zip ws, p.2 ≤ maxWidth) ↔ ∀ w ∈ ws, w ≤ maxWidth := by
    have hmap := @List.forall_mem_map _ _ Prod.snd (cells.zip ws) (· ≤ maxWidth)
    rwa [List.map_snd_zip hlen.ge, Iff.comm] at hmap
  rw [line, mapM_padded, if_congr hwidths rfl rfl]
  split <;> rfl

/-- The table that is printed where no column is too wide. -/
def tableText (u : Unicode) (ws : List Nat) (columns : List String) (body : List (List String)) :
    String :=
  String.ofList (lineText u ws columns ++ '\n' :: (rule ws ++ '\n' ::
    (body.map (lineText u ws)).flatMap (· ++ ['\n']) ++ (rowCount body.length).toList ++ ['\n']))

/-- A table is printed, unless one of its columns is too wide. -/
theorem formatTable_eq {r : QueryResult} {body : List (List String)} {ws : List Nat}
    (hbody : r.rows.map (·.map cell) = body) (hws : columnWidths r.columns body = ws)
    (hlen : ∀ cells ∈ body, cells.length = r.columns.length) :
    formatTable u r =
      if ∀ w ∈ ws, w ≤ maxWidth then some (tableText u ws r.columns body) else none := by
  have hwidths : widths r.columns body = some ws := by
    rw [widths, if_pos, ← hws, columnWidths]
    exact List.all_eq_true.mpr fun cells hcells => decide_eq_true (hlen cells hcells).ge
  have hcount : ws.length = r.columns.length := by
    rw [← hws, columnWidths, List.length_mapIdx]
  unfold formatTable
  simp only [hbody, hwidths, Option.bind_eq_bind, Option.bind_some]
  rw [line_eq hcount.symm]
  split
  next hfit =>
    have hlines : body.mapM (line u ws) = some (body.map (lineText u ws)) := by
      clear hbody hws hwidths
      induction body with
      | nil => rfl
      | cons cells body ih =>
        obtain ⟨hcells, hbody⟩ := List.forall_mem_cons.mp hlen
        rw [List.mapM_cons, ih hbody, line_eq (hcells.trans hcount.symm), if_pos hfit]
        rfl
    simp only [Option.bind_some, hlines]
    rfl
  next => rfl

/-- **A printed table can be read**: the header and the cells of each row, up to the blanks at the
end of each, and the number of rows, where no cell contains a line feed. It is printed unless a cell
is longer than `format!` can fill up. -/
theorem readTable_formatTable (hu : u.Lawful) {r : QueryResult} (hcolumns : r.columns ≠ [])
    (hrows : ∀ row ∈ r.rows, row.length = r.columns.length)
    (hlines : ∀ cells ∈ r.columns :: r.rows.map (·.map cell), ∀ c ∈ cells, '\n' ∉ c.toList) :
    (formatTable u r = none ↔
      ∃ cells ∈ r.columns :: r.rows.map (·.map cell), ∃ c ∈ cells, maxWidth < c.length) ∧
    ∀ text, formatTable u r = some text → readTable u text =
      ((r.columns :: r.rows.map (·.map cell)).map fun cells =>
        cells.map fun c => trimEnd u c.toList, r.rows.length) := by
  obtain ⟨hheader, hbody⟩ := List.forall_mem_cons.mp hlines
  have hlen : ∀ cells ∈ r.columns :: r.rows.map (·.map cell),
      cells.length = r.columns.length := by
    refine List.forall_mem_cons.mpr ⟨rfl, List.forall_mem_map.mpr fun row hrow => ?_⟩
    rw [List.length_map, hrows row hrow]
  generalize hcells : r.rows.map (·.map cell) = body at *
  generalize hws : columnWidths r.columns body = ws
  have hwide := columnWidths_le hlen (n := maxWidth)
  rw [hws] at hwide
  rw [formatTable_eq hcells hws (List.forall_mem_cons.mp hlen).2]
  refine ⟨?_, fun text htext => ?_⟩
  · rw [if_congr hwide rfl rfl]
    simp only [ite_eq_right_iff, reduceCtorEq, imp_false, not_forall, not_le, exists_prop]
  have hfits : ∀ cells ∈ r.columns :: body, List.Forall₂ (fun c w => c.length ≤ w) cells ws :=
    fun cells hcells => hws ▸ fits_columnWidths hcells (hlen cells hcells)
  have hne : ws ≠ [] := by
    rintro rfl
    exact hcolumns (List.forall₂_nil_right_iff.mp (hfits _ List.mem_cons_self))
  obtain ⟨-, htext⟩ := Option.ite_none_right_eq_some.mp htext
  obtain rfl := Option.some.inj htext
  have hread : (readLines (tableText u ws r.columns body).toList).map List.dropLast =
      lineText u ws r.columns :: rule ws ::
        (body.map (lineText u ws) ++ [(rowCount body.length).toList]) := by
    have hrest := readLines_flatMap (body.map (lineText u ws))
      (List.forall_mem_map.mpr fun cells hcells => notMem_lineText (hbody cells hcells))
      ((rowCount body.length).toList ++ '\n' :: [])
    rw [readLines_append (notMem_rowCount _)] at hrest
    rw [tableText, String.toList_ofList]
    simp only [List.append_assoc, List.cons_append]
    rw [readLines_append (notMem_lineText hheader), readLines_append (notMem_rule ws), hrest]
    simp [readLines]
  rw [readTable, hread]
  dsimp only
  rw [List.dropLast_concat, List.getLast?_concat, Option.getD_some, readCount_rowCount,
    readRule_rule hne, ← List.map_cons, List.map_map, ← hcells, List.length_map, hcells]
  refine Prod.ext (List.map_congr_left fun cells hcells => ?_) rfl
  exact readLine_lineText hu.space (hfits cells hcells)

/-- A cell with the separator in it, and one that ends with a blank. -/
def printedSample : QueryResult :=
  ⟨["id", "name"], [[.integer 1, .text "a | b "], [.null, .text ""]], 0⟩

theorem readTable_formatTable_sample :
    ∃ text, formatTable .ascii printedSample = some text ∧ readTable .ascii text =
      ([["id".toList, "name".toList], ["1".toList, "a | b".toList], ["NULL".toList, []]], 2) := by
  obtain ⟨hprinted, hread⟩ := readTable_formatTable (r := printedSample) Unicode.lawful_ascii
    (by decide) (by decide) (by decide)
  cases htext : formatTable .ascii printedSample with
  | none =>
    obtain ⟨cells, hcells, c, hc, hlong⟩ := hprinted.mp htext
    exact absurd hlong (by revert c cells; decide)
  | some text =>
    refine ⟨text, rfl, ?_⟩
    rw [hread text htext]
    decide

end Shell

end Choam
