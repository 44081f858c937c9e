import LatticeWalk.Proofs.Points

/-! # Decoding as marginalisation

A displacement tells for every point how large a share of the shots ended there, whatever the keys
say beyond the position (`Walk.decode_marginalises`).

* `Displacement.Even`: every row has a coordinate for each dimension; then columns and rows tell the
  same.
* `Histogram.countAt`: how often outcomes were counted that spell a point.
* `Displacement.IsMarginal`: the displacement with these counts as shares.
* `Decoder.rows_of_decode`, `Decoder.Cuts.of_decode`, `Decoder.Splits.decode_eq_ok`: which
  histograms can be decoded, and the result. -/

namespace LatticeWalk

/-! ### Rows and columns -/

namespace Displacement

variable {R : Type}

/-- Every row has a coordinate for each dimension. -/
def Even (t : Displacement R) : Prop := ∀ row ∈ t.rows, row.point.length = t.dimensions

theorem length_columns (t : Displacement R) : t.columns.length = t.dimensions := by
  rw [columns, List.length_map, List.length_range]

theorem length_density (t : Displacement R) : t.density.length = t.size := List.length_map _

theorem length_of_mem_columns {t : Displacement R} {column : List ℕ} (h : column ∈ t.columns) :
    column.length = t.size := by
  obtain ⟨d, -, rfl⟩ := List.mem_map.mp h
  exact List.length_map _

variable {t : Displacement R} (h : t.Even)
include h

theorem Even.map_getD {row : DensityRow R} (hrow : row ∈ t.rows) :
    (List.range t.dimensions).map (fun d => row.point.getD d 0) = row.point := by
  have hlen := h row hrow
  refine List.ext_getElem (by simp [hlen]) fun d hd hd' => ?_
  rw [List.getElem_map, List.getElem_range, List.getD_eq_getElem _ _ hd']

theorem Even.point?_eq (row : ℕ) : t.point? row = t.columns.mapM fun column => column[row]? := by
  have hcolumns : t.columns.mapM (fun column => column[row]?) =
      (List.range t.dimensions).mapM fun d => t.rows[row]?.map fun r => r.point.getD d 0 := by
    rw [columns, List.mapM_map]
    congr 1
    funext d
    exact List.getElem?_map ..
  rw [hcolumns, point?]
  cases hrow : t.rows[row]? with
  | none =>
    -- without a dimension there is no column that could lack the row
    cases t.dimensions with
    | zero => rfl
    | succ n => rw [if_neg (Nat.succ_ne_zero n), List.range_succ_eq_map, List.mapM_cons]; rfl
  | some r =>
    have hmem := List.mem_of_getElem? hrow
    refine Eq.trans ?_ (List.mapM_pure (m := Option)).symm
    rw [h.map_getD hmem]
    split_ifs with hzero
    · rw [List.length_eq_zero_iff.mp ((h r hmem).trans hzero)]
      rfl
    · rfl

theorem Even.point?_of_lt {row : ℕ} (hrow : row < t.rows.length) :
    t.point? row = some t.rows[row].point := by
  have hlen := h _ (List.getElem_mem hrow)
  unfold point?
  split_ifs with hzero
  · rw [List.length_eq_zero_iff.mp (hlen.trans hzero)]
  · rw [List.getElem?_eq_getElem hrow]
    rfl

theorem Even.exists_point? {point : List ℕ} : (∃ row < t.size, t.point? row = some point) ↔
    point ∈ t.rows.map DensityRow.point := by
  rw [List.mem_map]
  constructor
  · rintro ⟨row, hrow, hpoint⟩
    rw [h.point?_of_lt hrow, Option.some.injEq] at hpoint
    exact ⟨_, List.getElem_mem hrow, hpoint⟩
  · rintro ⟨r, hr, rfl⟩
    obtain ⟨row, hrow, rfl⟩ := List.getElem_of_mem hr
    exact ⟨row, hrow, h.point?_of_lt hrow⟩

theorem Even.point?_inj (hnodup : (t.rows.map DensityRow.point).Nodup) {row row' : ℕ}
    (hrow : row < t.size) (hrow' : row' < t.size) (hpoint : t.point? row = t.point? row') :
    row = row' := by
  rw [h.point?_of_lt hrow, h.point?_of_lt hrow', Option.some.injEq] at hpoint
  have hlen : (t.rows.map DensityRow.point).length = t.size := List.length_map _
  refine (List.getElem?_inj (hrow.trans_eq hlen.symm) hnodup).mp ?_
  rw [List.getElem?_map, List.getElem?_map, List.getElem?_eq_getElem hrow,
    List.getElem?_eq_getElem hrow', Option.map_some, Option.map_some, hpoint]

theorem Even.density_of_point? {f : List ℕ → R} (hf : ∀ row ∈ t.rows, row.density = f row.point)
    {row : ℕ} (hrow : row < t.size) {point : List ℕ} (hpoint : t.point? row = some point) :
    t.density[row]? = some (f point) := by
  rw [h.point?_of_lt hrow, Option.some.injEq] at hpoint
  rw [density, List.getElem?_map, List.getElem?_eq_getElem hrow, Option.map_some,
    hf _ (List.getElem_mem hrow), hpoint]

theorem Even.lt_of_mem_columns {d n : ℕ}
    (hlt : ∀ row ∈ t.rows, ∀ x, row.point[d]? = some x → x < n) {column : List ℕ}
    (hcolumn : t.columns[d]? = some column) {x : ℕ} (hx : x ∈ column) : x < n := by
  rw [columns, List.getElem?_map] at hcolumn
  obtain ⟨e, he, rfl⟩ := Option.map_eq_some_iff.mp hcolumn
  obtain ⟨hd, rfl⟩ := List.getElem?_eq_some_iff.mp he
  rw [List.length_range] at hd
  rw [List.getElem_range] at hx
  obtain ⟨row, hrow, rfl⟩ := List.mem_map.mp hx
  refine hlt row hrow _ ?_
  rw [List.getD_eq_getElem?_getD, List.getElem?_eq_getElem (hd.trans_eq (h row hrow).symm)]
  rfl

omit h

variable [Scalar R] {f : List ℕ → R}

theorem densityAt_of_mem (hf : ∀ row ∈ t.rows, row.density = f row.point) {point : List ℕ}
    (hmem : point ∈ t.rows.map DensityRow.point) : t.densityAt point = f point := by
  obtain ⟨row, hrow, rfl⟩ := List.mem_map.mp hmem
  unfold densityAt
  cases hfind : t.rows.find? fun r => r.point == row.point with
  | none =>
    have hne := List.find?_eq_none.mp hfind row hrow
    simp at hne
  | some r =>
    have hpoint : r.point = row.point := by simpa using List.find?_some hfind
    exact (hf r (List.mem_of_find?_eq_some hfind)).trans (congrArg f hpoint)

theorem densityAt_of_notMem {point : List ℕ} (hmem : point ∉ t.rows.map DensityRow.point) :
    t.densityAt point = 0 := by
  have hfind : (t.rows.find? fun r => r.point == point) = none := by
    refine List.find?_eq_none.mpr fun r hr => ?_
    have hne : r.point ≠ point := fun he => hmem (he ▸ List.mem_map_of_mem hr)
    simpa using hne
  rw [densityAt, hfind]

end Displacement

/-! ### Counts of points -/

namespace Histogram

/-- How often outcomes were counted whose slices spell a point. -/
def countAt (h : Histogram) (widths point : List ℕ) : ℕ :=
  ((h.toList.filter fun c => Pattern.spelled widths c.1.toList = point).map Prod.snd).sum

/-- The shares of the outcomes at the points that they spell. -/
def displacement {R : Type} [Scalar R] (h : Histogram) (widths : List ℕ) (shots : ℕ) :
    Displacement R where
  dimensions := widths.length
  rows := h.toList.map fun c => ⟨Pattern.spelled widths c.1.toList, (c.2 : R) / (shots : R)⟩
  shots := shots

theorem points_displacement {R : Type} [Scalar R] (h : Histogram) (widths : List ℕ) (shots : ℕ) :
    (h.displacement widths shots : Displacement R).rows.map DensityRow.point =
      h.keys.map fun key => Pattern.spelled widths key.toList := by
  rw [displacement, keys, OrderedMap.keys, List.map_map, List.map_map]
  rfl

theorem even_displacement {R : Type} [Scalar R] (h : Histogram) (widths : List ℕ) (shots : ℕ) :
    (h.displacement widths shots : Displacement R).Even := by
  intro row hrow
  obtain ⟨c, -, rfl⟩ := List.mem_map.mp hrow
  exact Pattern.length_spelled widths c.1.toList

theorem checkConserved_eq_ok {raw merged : Histogram} (h : merged.total = raw.total) :
    raw.checkConserved merged = .ok () ↔ raw.shots = 0 ∨ raw.shots = raw.total := by
  unfold checkConserved
  rw [if_neg (not_not.mpr h.symm)]
  by_cases hshots : raw.shots = 0
  · simp [hshots]
  · by_cases htotal : raw.total = raw.shots
    · simp [htotal]
    · simp [hshots, htotal, Ne.symm htotal, mistrust]

end Histogram

/-- **The displacement gives every point its share of the counts.** Rows and columns are aligned,
each point that a key spells has one row, and no other point has one. -/
structure Displacement.IsMarginal {R : Type} [Scalar R] (t : Displacement R) (h : Histogram)
    (widths : List ℕ) (shots : ℕ) : Prop where
  measured : t.shots = shots
  columns : t.columns.length = widths.length
  aligned : t.density.length = t.size ∧ ∀ column ∈ t.columns, column.length = t.size
  size : t.size = (h.keys.map fun key => key.toList.take widths.sum).dedup.length
  points : ∀ row, t.point? row = t.columns.mapM fun column => column[row]?
  observed : ∀ point, (∃ row < t.size, t.point? row = some point) ↔
    ∃ key ∈ h.keys, Pattern.spelled widths key.toList = point
  distinct : ∀ row < t.size, ∀ row' < t.size, t.point? row = t.point? row' → row = row'
  bounded : ∀ (d width : ℕ) (column : List ℕ), widths[d]? = some width →
    t.columns[d]? = some column → ∀ x ∈ column, x < 2 ^ width
  density : ∀ row < t.size, ∀ point, t.point? row = some point →
    t.density[row]? = some ((h.countAt widths point : R) / (shots : R))
  densityAt_observed : ∀ point, (∃ key ∈ h.keys, Pattern.spelled widths key.toList = point) →
    t.densityAt point = (h.countAt widths point : R) / (shots : R)
  densityAt_unobserved : ∀ point, (¬ ∃ key ∈ h.keys, Pattern.spelled widths key.toList = point) →
    t.densityAt point = 0

/-! ### Decoding -/

theorem Decoder.rows_of_decode {R : Type} [Scalar R] {d : Decoder} {h : Histogram} {shots : ℕ}
    {t : Displacement R} (hdecode : d.decode h shots = .ok t) :
    0 < shots ∧ (∀ key ∈ h.keys, d.Reads key) ∧ (h.shots = 0 ∨ h.shots = h.total) ∧
      ∃ rows, (d.merged h).toList.mapM (d.row shots) = .ok rows ∧
        t = ⟨d.spans.length, rows, shots⟩ := by
  unfold decode at hdecode
  split_ifs at hdecode with hshots
  · cases hdecode
  · obtain ⟨m, hm, hdecode⟩ := Except.bind_eq_ok.mp hdecode
    obtain ⟨hreads, rfl⟩ := merge_eq_ok.mp hm
    obtain ⟨_, hcheck, hdecode⟩ := Except.bind_eq_ok.mp hdecode
    obtain ⟨rows, hrows, hdecode⟩ := Except.bind_eq_ok.mp hdecode
    cases hdecode
    exact ⟨Nat.pos_of_ne_zero hshots, hreads,
      (Histogram.checkConserved_eq_ok (d.total_merged h)).mp hcheck, rows, hrows, rfl⟩

namespace Decoder.Cuts

variable {R : Type} [Scalar R] {d : Decoder} {widths : List ℕ} (hd : d.Cuts widths)
include hd

theorem reads_iff {key : String} : d.Reads key ↔
    (∀ c ∈ key.toList, Pattern.isBit c = true) ∧ widths.sum ≤ key.length := by
  rw [Reads, hd.stateBits]

theorem toList_short (key : String) : (d.short key).toList = key.toList.take widths.sum := by
  rw [short, String.toList_ofList, hd.stateBits]

theorem spelled_short (key : String) :
    Pattern.spelled widths (d.short key).toList = Pattern.spelled widths key.toList := by
  rw [hd.toList_short, Pattern.spelled_take le_rfl]

/-- Keys are cut to the same key if and only if they spell the same point. -/
theorem short_inj {key key' : String} (hkey : d.Reads key) (hkey' : d.Reads key') :
    d.short key = d.short key' ↔
      Pattern.spelled widths key.toList = Pattern.spelled widths key'.toList := by
  obtain ⟨hbits, hlen⟩ := hd.reads_iff.mp hkey
  obtain ⟨hbits', hlen'⟩ := hd.reads_iff.mp hkey'
  rw [Pattern.spelled_inj hbits hbits' (hlen.trans_eq (String.length_toList).symm)
    (hlen'.trans_eq (String.length_toList).symm), ← String.toList_inj, hd.toList_short,
    hd.toList_short]

variable {h : Histogram} (hreads : ∀ key ∈ h.keys, d.Reads key)
include hreads

theorem rows_of_mapM {shots : ℕ} {rows : List (DensityRow R)}
    (hrows : (d.merged h).toList.mapM (d.row shots) = .ok rows) :
    rows = ((d.merged h).displacement widths shots : Displacement R).rows := by
  refine Except.eq_map_of_mapM hrows fun c hc row hrow => ?_
  have hpattern := isPattern_merged hreads (List.mem_map_of_mem hc)
  rw [hd.stateBits] at hpattern
  obtain ⟨point, hpoint, hrow⟩ := Except.bind_eq_ok.mp hrow
  cases hrow
  rw [hd.spelled _ hpattern point hpoint]

omit hreads in
/-- **What is decoded** comes from keys that can be cut, and from counts of the shots. -/
theorem of_decode {shots : ℕ} {t : Displacement R} (hdecode : d.decode h shots = .ok t) :
    0 < shots ∧ (∀ key ∈ h.keys, d.Reads key) ∧ (h.shots = 0 ∨ h.shots = h.total) ∧
      t = (d.merged h).displacement widths shots := by
  obtain ⟨hshots, hreads, hcheck, rows, hrows, rfl⟩ := rows_of_decode hdecode
  obtain rfl := hd.rows_of_mapM hreads hrows
  refine ⟨hshots, hreads, hcheck, ?_⟩
  rw [hd.spans]
  rfl

/-! ### The shares -/

/-- A cut key is counted as often as its point. -/
theorem countAt_of_mem {c : String × ℕ} (hc : c ∈ (d.merged h).toList) :
    c.2 = h.countAt widths (Pattern.spelled widths c.1.toList) := by
  obtain ⟨hkey, hcount⟩ := mem_merged.mp hc
  obtain ⟨raw, hraw, hshort⟩ := List.mem_map.mp hkey
  -- `raw` stands for all keys that were cut to this one
  rw [hcount, Histogram.countAt, ← hshort, hd.spelled_short]
  congr 2
  exact List.filter_congr fun e he => decide_eq_decide.mpr
    (hd.short_inj (hreads e.1 (List.mem_map_of_mem he)) (hreads raw hraw))

theorem nodup_points (shots : ℕ) :
    (((d.merged h).displacement widths shots : Displacement R).rows.map
      DensityRow.point).Nodup := by
  rw [Histogram.points_displacement]
  refine List.Nodup.map_on (fun key hkey key' hkey' hspelled => ?_) (d.merged h).nodup_keys
  have hpattern := isPattern_merged hreads hkey
  have hpattern' := isPattern_merged hreads hkey'
  have hshort := (hd.short_inj (reads_of_isPattern hpattern) (reads_of_isPattern hpattern')).mpr
    hspelled
  rwa [short_of_isPattern hpattern, short_of_isPattern hpattern'] at hshort

omit hreads in
theorem mem_points {shots : ℕ} {point : List ℕ} :
    point ∈ ((d.merged h).displacement widths shots : Displacement R).rows.map DensityRow.point ↔
      ∃ key ∈ h.keys, Pattern.spelled widths key.toList = point := by
  rw [Histogram.points_displacement, List.mem_map]
  constructor
  · rintro ⟨_, hkey, rfl⟩
    obtain ⟨raw, hraw, rfl⟩ := List.mem_map.mp (mem_keys_merged.mp hkey)
    exact ⟨raw, hraw, (hd.spelled_short raw).symm⟩
  · rintro ⟨key, hkey, rfl⟩
    exact ⟨_, mem_keys_merged.mpr (List.mem_map_of_mem hkey), hd.spelled_short key⟩

omit hreads in
theorem size_eq (shots : ℕ) : ((d.merged h).displacement widths shots : Displacement R).size =
    (h.keys.map fun key => key.toList.take widths.sum).dedup.length := by
  have hperm : ((d.merged h).keys.map String.toList).Perm
      (h.keys.map fun key => key.toList.take widths.sum).dedup := by
    refine (List.perm_ext_iff_of_nodup ?_ (List.nodup_dedup _)).mpr fun cs => ?_
    · exact (d.merged h).nodup_keys.map fun _ _ => String.toList_injective
    · simp only [List.mem_dedup, List.mem_map, mem_keys_merged, exists_exists_and_eq_and,
        hd.toList_short]
  have hkeys : (d.merged h).keys.length = (d.merged h).toList.length := List.length_map _
  rw [← hperm.length_eq, List.length_map, hkeys]
  exact List.length_map _

/-- **What comes out gives every point its share.** -/
theorem isMarginal (shots : ℕ) :
    ((d.merged h).displacement widths shots : Displacement R).IsMarginal h widths shots := by
  have heven := (d.merged h).even_displacement (R := R) widths shots
  let share : List ℕ → R := fun point => (h.countAt widths point : R) / (shots : R)
  have hshare : ∀ row ∈ ((d.merged h).displacement widths shots : Displacement R).rows,
      row.density = share row.point := by
    intro row hrow
    obtain ⟨c, hc, rfl⟩ := List.mem_map.mp hrow
    exact congrArg (fun n : ℕ => (n : R) / (shots : R)) (hd.countAt_of_mem hreads hc)
  have hpoint : ∀ row ∈ ((d.merged h).displacement widths shots : Displacement R).rows,
      ∀ (i width : ℕ), widths[i]? = some width → ∀ x, row.point[i]? = some x → x < 2 ^ width := by
    intro row hrow i width hwidth x hx
    obtain ⟨c, -, rfl⟩ := List.mem_map.mp hrow
    exact Pattern.spelled_lt hwidth hx
  exact
    { measured := rfl
      columns := Displacement.length_columns _
      aligned := ⟨Displacement.length_density _, fun _ => Displacement.length_of_mem_columns⟩
      size := hd.size_eq shots
      points := heven.point?_eq
      observed := fun point => heven.exists_point?.trans hd.mem_points
      distinct := fun row hrow row' hrow' =>
        heven.point?_inj (hd.nodup_points hreads shots) hrow hrow'
      bounded := fun i width column hwidth hcolumn x => heven.lt_of_mem_columns
        (fun row hrow y hy => hpoint row hrow i width hwidth y hy) hcolumn
      density := fun row hrow point => heven.density_of_point? (f := share) hshare hrow
      densityAt_observed := fun point hpoint =>
        Displacement.densityAt_of_mem (f := share) hshare (hd.mem_points.mpr hpoint)
      densityAt_unobserved := fun point hpoint =>
        Displacement.densityAt_of_notMem fun hmem => hpoint (hd.mem_points.mp hmem) }

end Decoder.Cuts

namespace Decoder.Splits

variable {R : Type} [Scalar R] {d : Decoder} {widths : List ℕ} (hd : d.Splits widths)
  {h : Histogram}
include hd

theorem mapM_row (hreads : ∀ key ∈ h.keys, d.Reads key) (shots : ℕ) :
    (d.merged h).toList.mapM (d.row shots) =
    .ok ((d.merged h).displacement widths shots : Displacement R).rows := by
  refine Except.mapM_eq_ok_map fun c hc => ?_
  have hpattern := isPattern_merged hreads (List.mem_map_of_mem hc)
  rw [hd.stateBits] at hpattern
  rw [row, hd.coordinates _ hpattern]
  rfl

/-- **Which histograms can be decoded**, and what comes out. -/
theorem decode_eq_ok {shots : ℕ} {t : Displacement R} : d.decode h shots = .ok t ↔
    0 < shots ∧ (∀ key ∈ h.keys, d.Reads key) ∧ (h.shots = 0 ∨ h.shots = h.total) ∧
      t = (d.merged h).displacement widths shots := by
  refine ⟨hd.of_decode, ?_⟩
  rintro ⟨hshots, hreads, hcheck, rfl⟩
  rw [decode, if_neg hshots.ne']
  refine Except.bind_eq_ok.mpr ⟨_, merge_eq_ok.mpr ⟨hreads, rfl⟩, ?_⟩
  refine Except.bind_eq_ok.mpr
    ⟨(), (Histogram.checkConserved_eq_ok (d.total_merged h)).mpr hcheck, ?_⟩
  refine Except.bind_eq_ok.mpr ⟨_, hd.mapM_row hreads shots, ?_⟩
  rw [hd.spans]
  rfl

/-- A merged histogram is decoded like the one that it was made of. -/
theorem decode_merged (hreads : ∀ key ∈ h.keys, d.Reads key) {shots : ℕ} {t : Displacement R}
    (hdecode : d.decode h shots = .ok t) : d.decode (d.merged h) shots = .ok t := by
  obtain ⟨hshots, -, hcheck, rfl⟩ := hd.decode_eq_ok.mp hdecode
  obtain ⟨hagain, hmerged⟩ := merge_eq_ok.mp (merge_merged hreads)
  refine hd.decode_eq_ok.mpr ⟨hshots, hagain, ?_, by rw [← hmerged]⟩
  rwa [d.shots_merged, d.total_merged]

end Decoder.Splits

/-- **Decoding is exact marginalisation.** Under the decoder of a walk, whose registers fit a word,
a histogram is decoded if and only if there are shots, all keys are bits and cover the position, and
the counts are those of the shots, if these are known. Then the result gives every point its share
of the counts, and it stays the same if the histogram is merged before. -/
theorem Walk.decode_marginalises {R : Type} [Scalar R] {spec : WalkSpec R} {w : Walk R}
    (hbuild : build spec = .ok w) (hnarrow : ∀ width ∈ spec.widths, width ≤ 64) (h : Histogram)
    (shots : ℕ) :
    ((∃ t : Displacement R, w.decoder.decode h shots = .ok t) ↔
      0 < shots ∧
        (∀ key ∈ h.keys, (∀ c ∈ key.toList, Pattern.isBit c = true) ∧
          spec.widths.sum ≤ key.length) ∧
        (h.shots = 0 ∨ h.shots = h.total)) ∧
    ∀ t : Displacement R, w.decoder.decode h shots = .ok t →
      t.IsMarginal h spec.widths shots ∧
        ∃ m, w.decoder.merge h = .ok m ∧ w.decoder.decode m shots = .ok t := by
  have hd := splits_of_build hbuild hnarrow
  refine ⟨?_, fun t hdecode => ?_⟩
  · simp only [← hd.reads_iff, hd.decode_eq_ok]
    constructor
    · rintro ⟨-, hshots, hreads, hcheck, -⟩
      exact ⟨hshots, hreads, hcheck⟩
    · rintro ⟨hshots, hreads, hcheck⟩
      exact ⟨_, hshots, hreads, hcheck, rfl⟩
  · obtain ⟨-, hreads, -, rfl⟩ := hd.decode_eq_ok.mp hdecode
    exact ⟨hd.isMarginal hreads shots, _, Decoder.merge_eq_ok.mpr ⟨hreads, rfl⟩,
      hd.decode_merged hreads hdecode⟩

/-- Counts of keys that are longer than the position. Two of them agree on it, and one was never
counted. -/
def longKeys : Histogram := .ofCounts [("1010", 3), ("0001", 0), ("1011", 2), ("011", 5)]

/-- Over two dimensions these stand for three points. -/
theorem Walk.decode_marginalises_longKeys : ∃ w : Walk ℝ, build { widths := [2, 1] } = .ok w ∧
    ∃ t : Displacement ℝ, w.decoder.decode longKeys 20 = .ok t ∧
      t.IsMarginal longKeys [2, 1] 20 ∧ t.size = 3 ∧
      t.densityAt [2, 1] = ((5 : ℕ) : ℝ) / ((20 : ℕ) : ℝ) ∧
      t.densityAt [0, 0] = ((0 : ℕ) : ℝ) / ((20 : ℕ) : ℝ) ∧ t.densityAt [3, 0] = 0 := by
  obtain ⟨w, hbuild⟩ : ∃ w : Walk ℝ, build { widths := [2, 1] } = .ok w := ⟨_, rfl⟩
  obtain ⟨hdecodes, hmarginal⟩ := decode_marginalises hbuild (by decide) longKeys 20
  have hkeys : longKeys.keys = ["0001", "011", "1010", "1011"] := by decide
  have hbits : ∀ key ∈ longKeys.keys, ∀ c ∈ key.toList, Pattern.isBit c = true := by
    simp [hkeys, Pattern.isBit]
  have hlen : ∀ key ∈ longKeys.keys, 3 ≤ key.length := by
    rw [hkeys]
    decide
  obtain ⟨t, hdecode⟩ := hdecodes.mpr
    ⟨by decide, fun key hkey => ⟨hbits key hkey, hlen key hkey⟩, by decide⟩
  obtain ⟨ht, -⟩ := hmarginal t hdecode
  have hcorner := ht.densityAt_observed [2, 1] ⟨"1010", by decide, by decide⟩
  have horigin := ht.densityAt_observed [0, 0] ⟨"0001", by decide, by decide⟩
  rw [show longKeys.countAt [2, 1] [2, 1] = 5 by decide] at hcorner
  rw [show longKeys.countAt [2, 1] [0, 0] = 0 by decide] at horigin
  exact ⟨w, hbuild, t, hdecode, ht, ht.size.trans (by decide), hcorner, horigin,
    ht.densityAt_unobserved [3, 0] (by decide)⟩

end LatticeWalk
