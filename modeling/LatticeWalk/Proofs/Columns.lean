import LatticeWalk.Proofs.Experiments
import LatticeWalk.Proofs.Marginals

/-! # Columns and tables

A displacement has its points row by row. A decoder can as well keep one column of coordinates for
each dimension and the densities beside them, and put one entry after the other behind these lists:
it ends with the columns and the densities of the rows, and fails where decoding fails.

* `Decoder.fill`: columns and densities, filled entry by entry.
* `Decoder.fill_eq`: they are those of the decoded displacement.
* `Decoder.aligned_of_fill`: all the lists that are filled have the same length.
* `IsCell`: a text that stands in a table without quotes.
* `Displacement.cells_csv`: what stands in the lines and cells of the table of a displacement.
* `Displacement.tableOf`, `Displacement.Even.cells_csv`: the same in terms of columns and densities.
* `Experiment.Measured.cells`: under the name of a recorded iteration stand the columns and
  densities that its answer fills. -/

namespace LatticeWalk

/-! ### Columns -/

namespace Displacement

variable {R : Type}

/-- A displacement with further rows. -/
def extend (t : Displacement R) (rows : List (DensityRow R)) : Displacement R :=
  { t with rows := t.rows ++ rows }

theorem extend_cons (t : Displacement R) (row : DensityRow R) (rows : List (DensityRow R)) :
    t.extend (row :: rows) = (t.extend [row]).extend rows := by
  rw [extend, extend, extend, List.append_assoc, List.singleton_append]

theorem density_extend (t : Displacement R) (row : DensityRow R) :
    (t.extend [row]).density = t.density ++ [row.density] := by
  rw [density, extend, List.map_append, List.map_singleton, density]

theorem columns_extend {t : Displacement R} {row : DensityRow R}
    (hlen : row.point.length = t.dimensions) :
    (t.extend [row]).columns =
      List.zipWith (fun column x => column ++ [x]) t.columns row.point := by
  refine List.ext_getElem ?_ fun d hd hd' => ?_
  · rw [List.length_zipWith, length_columns, length_columns, hlen, min_self]
    rfl
  · have hlt : d < row.point.length := (List.length_zipWith ▸ hd').trans_le (min_le_right _ _)
    rw [List.getElem_zipWith]
    simp only [columns, List.getElem_map, List.getElem_range, column, extend, List.map_append,
      List.map_singleton, List.getD_eq_getElem _ _ hlt]

end Displacement

namespace Decoder

variable {R : Type} [Scalar R]

/-- Puts the coordinates of an entry behind the columns, and its share behind the densities. -/
def fillEntry (d : Decoder) (shots : ℕ) (filled : List (List ℕ) × List R) (entry : String × ℕ) :
    Except Failure (List (List ℕ) × List R) := do
  let columns ← (filled.1.zip d.spans).mapM fun c => do
    let x ← coordinate entry.1 c.2
    return c.1 ++ [x]
  return (columns, filled.2 ++ [(entry.2 : R) / (shots : R)])

/-- The columns and densities that a histogram stands for, filled entry by entry. -/
def fill (d : Decoder) (h : Histogram) (shots : ℕ) : Except Failure (List (List ℕ) × List R) :=
  if shots = 0 then refuse .noShots
  else do
    let merged ← d.merge h
    h.checkConserved merged
    merged.toList.foldlM (d.fillEntry shots) (List.replicate d.spans.length [], [])

/-- Values that are put behind columns as they are found. -/
theorem mapM_zip {α β : Type} {f : β → Except Failure α} : ∀ {columns : List (List α)}
    {keys : List β}, columns.length = keys.length →
    ((columns.zip keys).mapM fun c => do
      let x ← f c.2
      return c.1 ++ [x]) =
    (keys.mapM f).map fun xs => List.zipWith (fun column x => column ++ [x]) columns xs
  | [], [], _ => rfl
  | column :: columns, key :: keys, hlen => by
    rw [List.zip_cons_cons, List.mapM_cons, List.mapM_cons, mapM_zip (Nat.succ.inj hlen)]
    cases f key with
    | error e => rfl
    | ok x => cases keys.mapM f <;> rfl

theorem length_of_mapM_coordinate {d : Decoder} {key : String} {point : List ℕ}
    (h : d.spans.mapM (coordinate key) = .ok point) : point.length = d.spans.length :=
  (Except.mapM_eq_ok.mp h).length_eq.symm

/-- **An entry is a row**: what it adds to the columns and densities is what its row adds. -/
theorem fillEntry_eq (d : Decoder) (shots : ℕ) {t : Displacement R}
    (ht : t.dimensions = d.spans.length) (entry : String × ℕ) :
    d.fillEntry shots (t.columns, t.density) entry = (d.row shots entry).map fun row =>
      ((t.extend [row]).columns, (t.extend [row]).density) := by
  rw [fillEntry, mapM_zip (t.length_columns.trans ht), row]
  cases hpoint : d.spans.mapM (coordinate entry.1) with
  | error e => rfl
  | ok point =>
    have hlen : point.length = t.dimensions := (length_of_mapM_coordinate hpoint).trans ht.symm
    let added : DensityRow R := ⟨point, (entry.2 : R) / (shots : R)⟩
    refine congrArg Except.ok (Prod.ext ?_ ?_)
    · have hcolumns : (t.extend [added]).columns = _ := Displacement.columns_extend hlen
      exact hcolumns.symm
    · exact (t.density_extend added).symm

theorem foldlM_fillEntry (d : Decoder) (shots : ℕ) {t : Displacement R}
    (ht : t.dimensions = d.spans.length) (entries : List (String × ℕ)) :
    entries.foldlM (d.fillEntry shots) (t.columns, t.density) =
      (entries.mapM (d.row shots)).map fun rows =>
        ((t.extend rows).columns, (t.extend rows).density) := by
  induction entries generalizing t with
  | nil =>
    have hnone : t.extend [] = t := by rw [Displacement.extend, List.append_nil]
    rw [List.foldlM_nil, List.mapM_nil]
    show Except.ok (t.columns, t.density) = .ok ((t.extend []).columns, (t.extend []).density)
    rw [hnone]
  | cons entry entries ih =>
    rw [List.foldlM_cons, List.mapM_cons, fillEntry_eq d shots ht]
    cases d.row (R := R) shots entry with
    | error e => rfl
    | ok row =>
      show entries.foldlM (d.fillEntry shots)
        ((t.extend [row]).columns, (t.extend [row]).density) = _
      rw [ih (t := t.extend [row]) ht]
      simp only [← Displacement.extend_cons]
      cases entries.mapM (d.row (R := R) shots) <;> rfl

/-- **Filling columns is decoding.** For every decoder, histogram and number of shots the columns
and densities that are filled entry by entry are those of the decoded rows, and either both are
refused, for the same reason, or neither is. -/
theorem fill_eq (d : Decoder) (h : Histogram) (shots : ℕ) :
    d.fill h shots = (d.decode h shots).map fun t : Displacement R => (t.columns, t.density) := by
  unfold fill decode
  split_ifs with hshots
  · rfl
  · refine Except.bind_eq_map fun merged => Except.bind_eq_map fun _ => ?_
    have hnone : ((⟨d.spans.length, [], shots⟩ : Displacement R).columns,
        (⟨d.spans.length, [], shots⟩ : Displacement R).density) =
          (List.replicate d.spans.length [], []) := by
      refine Prod.ext (List.eq_replicate_iff.mpr ⟨Displacement.length_columns _, ?_⟩) rfl
      intro column hcolumn
      obtain ⟨i, -, rfl⟩ := List.mem_map.mp hcolumn
      rfl
    rw [← hnone, foldlM_fillEntry d shots rfl]
    cases merged.toList.mapM (d.row (R := R) shots) <;> rfl

theorem even_of_decode {d : Decoder} {h : Histogram} {shots : ℕ} {t : Displacement R}
    (hdecode : d.decode h shots = .ok t) : t.Even := by
  obtain ⟨-, -, -, rows, hrows, rfl⟩ := rows_of_decode hdecode
  refine Except.forall_of_mapM hrows fun entry _ row hrow => ?_
  obtain ⟨point, hpoint, hrow⟩ := Except.bind_eq_ok.mp hrow
  cases hrow
  exact length_of_mapM_coordinate hpoint

/-- **The lists that are filled are aligned**: one column for each dimension, all of them as long as
the densities. -/
theorem aligned_of_fill {d : Decoder} {h : Histogram} {shots : ℕ} {columns : List (List ℕ)}
    {density : List R} (hfill : d.fill h shots = .ok (columns, density)) :
    columns.length = d.spans.length ∧ ∀ column ∈ columns, column.length = density.length := by
  rw [fill_eq] at hfill
  obtain ⟨t, hdecode, heq⟩ := Except.map_eq_ok.mp hfill
  obtain ⟨rfl, rfl⟩ := Prod.mk.inj heq
  obtain ⟨-, -, -, rows, -, rfl⟩ := rows_of_decode hdecode
  refine ⟨Displacement.length_columns _, fun column hcolumn => ?_⟩
  rw [Displacement.length_of_mem_columns hcolumn, Displacement.length_density]

end Decoder

/-! ### Tables -/

/-- The letters that only a quoted cell may have. -/
def quotedFor : List Char := [',', '"', '\n', '\r']

/-- A text that stands in a table without quotes: no comma, no quotation mark, no end of a line. -/
def IsCell (s : String) : Prop := ∀ c ∈ quotedFor, c ∉ s.toList

theorem foreign_of_mem_quotedFor {c : Char} (hc : c ∈ quotedFor) :
    c.isDigit = false ∧ c ∉ "-.NaNinf".toList := by
  simp only [quotedFor, List.mem_cons, List.not_mem_nil, or_false] at hc
  rcases hc with rfl | rfl | rfl | rfl <;> decide

/-- Scalars that are written in tables without quotes. -/
class TabularNumerals (R : Type) [Numeral R] : Prop where
  isCell_spell : ∀ x : R, IsCell (Numeral.spell x)

instance : TabularNumerals Float := ⟨fun _ _ hc =>
  Decimal.notMem_plain (foreign_of_mem_quotedFor hc).1 (foreign_of_mem_quotedFor hc).2 _⟩

instance : TabularNumerals ℝ := by
  refine ⟨fun x c hc => ?_⟩
  obtain ⟨hdigit, hother⟩ := foreign_of_mem_quotedFor hc
  exact notMem_toString_int hdigit (fun hsign => hother (by simp [hsign])) ⌊x⌋

theorem isCell_toString (n : ℕ) : IsCell (toString n) := fun _ hc =>
  notMem_toString (foreign_of_mem_quotedFor hc).1 n

theorem IsCell.append {s s' : String} (h : IsCell s) (h' : IsCell s') : IsCell (s ++ s') := by
  intro c hc
  rw [String.toList_append, List.mem_append]
  exact not_or.mpr ⟨h c hc, h' c hc⟩

theorem csvLine_eq (cells : List String) :
    csvLine cells = (String.singleton ',').intercalate cells ++ String.singleton '\n' := by
  have hcomma : String.singleton ',' = "," := rfl
  rw [csvLine, hcomma]
  rfl

/-- **Lines of cells are read back.** -/
theorem split_csvLines {lines : List (List String)} (hne : ∀ cells ∈ lines, cells ≠ [])
    (hcells : ∀ cells ∈ lines, ∀ cell ∈ cells, IsCell cell) :
    (Text.split '\n' (String.join (lines.map csvLine))).map (Text.split ',') =
      lines ++ [[""]] := by
  have hplain : ∀ line ∈ lines.map ((String.singleton ',').intercalate ·),
      '\n' ∉ line.toList := by
    intro line hline
    obtain ⟨cells, hmem, rfl⟩ := List.mem_map.mp hline
    exact Text.notMem_intercalate (by decide) fun cell hcell =>
      hcells cells hmem cell hcell '\n' (by simp [quotedFor])
  have hlines : lines.map csvLine = (lines.map ((String.singleton ',').intercalate ·)).map
      (· ++ String.singleton '\n') := by
    rw [List.map_map]
    exact List.map_congr_left fun cells _ => csvLine_eq cells
  have hcut : ∀ cells ∈ lines, Text.split ',' ((String.singleton ',').intercalate cells) = cells :=
    fun cells hmem => (Text.joined_iff.mp ⟨hne cells hmem, fun cell hcell =>
      hcells cells hmem cell hcell ',' (by simp [quotedFor]), rfl⟩).symm
  have hempty : Text.split ',' "" = [""] := rfl
  rw [hlines, Text.split_join hplain, List.map_append, List.map_map, List.map_singleton, hempty]
  exact congrArg (· ++ [[""]]) ((List.map_congr_left hcut).trans (List.map_id _))

namespace Displacement

variable {R : Type}

theorem isCell_of_mem_csvHeader {t : Displacement R} {cell : String} (h : cell ∈ t.csvHeader) :
    IsCell cell := by
  rcases List.mem_append.mp h with h | h
  · obtain ⟨d, -, rfl⟩ := List.mem_map.mp h
    have hprefix : IsCell "dimension_" := by simp [IsCell, quotedFor]
    exact hprefix.append (isCell_toString d)
  · obtain rfl := List.mem_singleton.mp h
    simp [IsCell, quotedFor]

/-- The coordinates that the columns have in one place are those of a row. -/
theorem Even.map_columns {t : Displacement R} (h : t.Even) {i : ℕ} (hi : i < t.rows.length) :
    t.columns.map (fun column => column.getD i 0) = t.rows[i].point := by
  refine Eq.trans ?_ (h.map_getD (List.getElem_mem hi))
  rw [columns, List.map_map]
  refine List.map_congr_left fun d _ => ?_
  rw [Function.comp_apply, column, List.getD_eq_getElem _ _ (by rwa [List.length_map]),
    List.getElem_map]

variable [Scalar R] [TabularNumerals R]

theorem isCell_of_mem_csvCells {row : DensityRow R} {cell : String} (h : cell ∈ csvCells row) :
    IsCell cell := by
  rcases List.mem_append.mp h with h | h
  · obtain ⟨x, -, rfl⟩ := List.mem_map.mp h
    exact isCell_toString x
  · obtain rfl := List.mem_singleton.mp h
    exact TabularNumerals.isCell_spell _

/-- **What the table of a displacement holds**: cut into lines and these into cells, it has the
names of the columns, then for each row its coordinates and its density, and nothing behind the last
line. -/
theorem cells_csv (t : Displacement R) :
    (Text.split '\n' t.csv).map (Text.split ',') =
      ((List.range t.dimensions).map (fun d => "dimension_" ++ toString d) ++
        ["probability_density"]) ::
      t.rows.map (fun row => row.point.map toString ++ [Numeral.spell row.density]) ++ [[""]] := by
  have hcsv : t.csv = String.join ((t.csvHeader :: t.rows.map csvCells).map csvLine) := by
    rw [List.map_cons, String.join_cons, List.map_map]
    rfl
  rw [hcsv]
  refine split_csvLines (List.forall_mem_cons.mpr ⟨?_, ?_⟩) (List.forall_mem_cons.mpr ⟨?_, ?_⟩)
  · simp [csvHeader]
  · simp [csvCells]
  · exact fun cell => isCell_of_mem_csvHeader
  · intro cells hcells
    obtain ⟨row, -, rfl⟩ := List.mem_map.mp hcells
    exact fun cell => isCell_of_mem_csvCells

/-- A table in columns: their names, and for each density a line with what stands at its place in
each column. -/
def tableOf (columns : List (List ℕ)) (density : List R) : List (List String) :=
  ((List.range columns.length).map (fun d => "dimension_" ++ toString d) ++
    ["probability_density"]) ::
  density.zipIdx.map fun q =>
    columns.map (fun column => toString (column.getD q.2 0)) ++ [Numeral.spell q.1]

/-- **The table of a displacement is that of its columns and densities.** -/
theorem Even.cells_csv {t : Displacement R} (h : t.Even) :
    (Text.split '\n' t.csv).map (Text.split ',') = tableOf t.columns t.density ++ [[""]] := by
  have hrows : t.rows.map (fun row => row.point.map toString ++ [Numeral.spell row.density]) =
      t.density.zipIdx.map fun q =>
        t.columns.map (fun column => toString (column.getD q.2 0)) ++ [Numeral.spell q.1] := by
    refine List.ext_getElem (by simp [density]) fun i hi _ => ?_
    rw [List.length_map] at hi
    simp only [List.getElem_map, List.getElem_zipIdx, density, Nat.zero_add, ← h.map_columns hi,
      List.map_map]
    rfl
  rw [Displacement.cells_csv, tableOf, length_columns, hrows]

end Displacement

/-- **The table of a recorded iteration** has what was measured after its steps: the columns and
densities that the answer to its execution fills. -/
theorem Experiment.Measured.cells {R : Type} [Scalar R] [TabularNumerals R] {e : Experiment}
    {w₀ : Walk R} {folder : Folder} {r : IterationRecord R} {x : Execution R}
    (h : e.Measured w₀ folder r x) :
    ∃ (w : Walk R) (hist : Histogram) (columns : List (List ℕ)) (density : List R) (text : String),
      (Walk.addSteps r.steps).outcome w₀ = (.ok (), w) ∧ x.answer = .ok hist ∧
      w.decoder.fill hist e.shots = .ok (columns, density) ∧ folder.text? r.file = some text ∧
      (Text.split '\n' text).map (Text.split ',') =
        Displacement.tableOf columns density ++ [[""]] := by
  obtain ⟨w, hist, t, hsteps, -, hanswer, hread, -, htext⟩ := h.answer
  obtain ⟨_, hdecode, hread⟩ := Except.bind_eq_ok.mp hread
  obtain ⟨_, -, hread⟩ := Except.bind_eq_ok.mp hread
  cases hread
  have hfill : w.decoder.fill hist e.shots = .ok (t.columns, t.density) := by
    rw [Decoder.fill_eq, hdecode]
    rfl
  exact ⟨w, hist, t.columns, t.density, t.csv, hsteps, hanswer, hfill, htext,
    (Decoder.even_of_decode hdecode).cells_csv⟩

end LatticeWalk
