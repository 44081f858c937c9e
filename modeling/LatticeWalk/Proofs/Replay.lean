import LatticeWalk.Proofs.Marginals
import LatticeWalk.Displacement.Statistics

/-! # Replayed shots

The statistics of a displacement weigh each point by its density, multiplied back by the number of
shots. So they are the moments of a sample: of the table of all shots, in which each point stands as
often as it was measured.

* `Sample.mean`, `Sample.covariance`, `Sample.correlation`: the moments of a table of points.
* `Sample.posSemidef_covarianceMatrix`, `Sample.correlation_mem_Icc`: what covariances and
  correlations satisfy.
* `Histogram.repeated`: entries as often as they are counted; `Decoder.perm_merged`: merging only
  rearranges them.
* `Decoder.replay`: the table of the shots, each with the point that its key holds.
* `Decoder.statistics_of_replay`: the statistics of what is decoded are the moments of that
  table. -/

namespace LatticeWalk

/-! ### Moments of a sample -/

namespace Sample

/-- A coordinate of a point as a real number. -/
noncomputable def entry (i : ℕ) (point : List ℕ) : ℝ := (point.getD i 0 : ℕ)

/-- The mean of a coordinate. -/
noncomputable def mean (table : List (List ℕ)) (i : ℕ) : ℝ :=
  (table.map (entry i)).sum / table.length

/-- How far a coordinate of a point is from its mean. -/
noncomputable def deviation (table : List (List ℕ)) (i : ℕ) (point : List ℕ) : ℝ :=
  entry i point - mean table i

/-- The covariance of two coordinates, with one less than the size of the sample below. -/
noncomputable def covariance (table : List (List ℕ)) (i j : ℕ) : ℝ :=
  (table.map fun point => deviation table i point * deviation table j point).sum /
    (table.length - 1)

open Classical in
/-- The correlation of two coordinates, if neither is constant. -/
noncomputable def correlation (table : List (List ℕ)) (i j : ℕ) : Option ℝ :=
  if 0 < covariance table i i ∧ 0 < covariance table j j then
    some (covariance table i j / √(covariance table i i * covariance table j j))
  else none

/-- The covariances of the first coordinates. -/
noncomputable def covarianceMatrix (k : ℕ) (table : List (List ℕ)) : Matrix (Fin k) (Fin k) ℝ :=
  Matrix.of fun i j => covariance table i j

/-- The deviations of all points of the sample. -/
noncomputable def deviations (k : ℕ) (table : List (List ℕ)) :
    Matrix (Fin table.length) (Fin k) ℝ :=
  Matrix.of fun s i => deviation table i table[s]

theorem mean_perm {table table' : List (List ℕ)} (h : table.Perm table') :
    mean table = mean table' := by
  funext i
  rw [mean, mean, (h.map _).sum_eq, h.length_eq]

theorem covariance_perm {table table' : List (List ℕ)} (h : table.Perm table') :
    covariance table = covariance table' := by
  funext i j
  simp only [covariance, deviation, mean_perm h, h.length_eq, (h.map _).sum_eq]

theorem covariance_comm (table : List (List ℕ)) (i j : ℕ) :
    covariance table i j = covariance table j i := by
  simp only [covariance, mul_comm]

theorem isSymm_covarianceMatrix (k : ℕ) (table : List (List ℕ)) :
    (covarianceMatrix k table).IsSymm :=
  Matrix.IsSymm.ext fun i j => covariance_comm table j i

theorem covariance_eq_sum (table : List (List ℕ)) (i j : ℕ) :
    covariance table i j = (∑ s : Fin table.length,
      deviation table i table[s] * deviation table j table[s]) / (table.length - 1) := by
  rw [covariance, ← Fin.sum_univ_fun_getElem]
  rfl

theorem covarianceMatrix_eq (k : ℕ) (table : List (List ℕ)) :
    covarianceMatrix k table = ((table.length : ℝ) - 1)⁻¹ •
      ((deviations k table).conjTranspose * deviations k table) := by
  ext i j
  rw [covarianceMatrix, Matrix.of_apply, covariance_eq_sum, div_eq_inv_mul]
  rfl

theorem covariance_sq_le (table : List (List ℕ)) (i j : ℕ) :
    covariance table i j ^ 2 ≤ covariance table i i * covariance table j j := by
  simp only [covariance_eq_sum, div_pow, div_mul_div_comm, ← sq]
  exact div_le_div_of_nonneg_right (Finset.sum_mul_sq_le_sq_mul_sq ..) (sq_nonneg _)

section sample

variable {table : List (List ℕ)}

theorem correlation_eq_some {i j : ℕ} {r : ℝ} : correlation table i j = some r ↔
    (0 < covariance table i i ∧ 0 < covariance table j j) ∧
      r = covariance table i j / √(covariance table i i * covariance table j j) := by
  unfold correlation
  split_ifs with hpos <;> simp [hpos, eq_comm]

/-- **Correlations lie between minus one and one.** -/
theorem correlation_mem_Icc {i j : ℕ} {r : ℝ} (h : correlation table i j = some r) :
    r ∈ Set.Icc (-1) 1 := by
  obtain ⟨⟨hi, hj⟩, rfl⟩ := correlation_eq_some.mp h
  have hscale : 0 < √(covariance table i i * covariance table j j) :=
    Real.sqrt_pos.mpr (mul_pos hi hj)
  rw [Set.mem_Icc, ← abs_le, abs_div, abs_of_pos hscale, div_le_one hscale]
  exact Real.abs_le_sqrt (covariance_sq_le table i j)

theorem correlation_self {i : ℕ} {r : ℝ} (h : correlation table i i = some r) : r = 1 := by
  obtain ⟨⟨hi, -⟩, rfl⟩ := correlation_eq_some.mp h
  rw [Real.sqrt_mul_self hi.le, div_self hi.ne']

variable (hsize : 1 ≤ table.length)
include hsize

theorem denominator_nonneg : 0 ≤ (table.length : ℝ) - 1 := by
  rw [sub_nonneg]
  exact_mod_cast hsize

/-- **Covariances are positive semidefinite**: their matrix is a Gram matrix of the deviations. -/
theorem posSemidef_covarianceMatrix (k : ℕ) : (covarianceMatrix k table).PosSemidef := by
  have hfactor : 0 ≤ ((table.length : ℝ) - 1)⁻¹ := inv_nonneg.mpr (denominator_nonneg hsize)
  rw [covarianceMatrix_eq]
  exact (Matrix.posSemidef_conjTranspose_mul_self _).smul hfactor

theorem variance_nonneg (i : ℕ) : 0 ≤ covariance table i i := by
  refine div_nonneg (List.sum_nonneg fun x hx => ?_) (denominator_nonneg hsize)
  obtain ⟨point, -, rfl⟩ := List.mem_map.mp hx
  exact mul_self_nonneg _

end sample

end Sample

/-! ### Entries as often as they are counted -/

namespace Histogram

variable {α : Type} (point : String → α)

/-- What outcomes stand for, each as often as it is counted. -/
def repeated (counts : List (String × ℕ)) : List α :=
  counts.flatMap fun c => List.replicate c.2 (point c.1)

theorem length_repeated (counts : List (String × ℕ)) :
    (repeated point counts).length = (counts.map Prod.snd).sum := by
  simp [repeated, List.length_flatMap]

/-- A sum over all repetitions weighs each outcome by its count. -/
theorem sum_repeated (f : α → ℝ) (counts : List (String × ℕ)) :
    ((repeated point counts).map f).sum = (counts.map fun c => (c.2 : ℝ) * f (point c.1)).sum := by
  induction counts with
  | nil => rfl
  | cons c counts ih =>
    rw [List.map_cons, List.sum_cons, ← ih]
    simp [repeated]

/-- A count that is added to its entry adds so many repetitions. -/
theorem perm_alterEntries (key : String) (count : ℕ) (counts : List (String × ℕ)) :
    (repeated point
      (OrderedMap.alterEntries key (fun before => before.getD 0 + count) counts)).Perm
      (List.replicate count (point key) ++ repeated point counts) := by
  induction counts with
  | nil => simp [repeated, OrderedMap.alterEntries]
  | cons c counts ih =>
    unfold OrderedMap.alterEntries
    split_ifs with hlt hgt
    · simp [repeated]
    · exact (ih.append_left _).trans (List.perm_append_comm_assoc ..)
    · obtain rfl : key = c.1 := le_antisymm (not_lt.mp hgt) (not_lt.mp hlt)
      refine .of_eq ?_
      rw [repeated, List.flatMap_cons, Option.getD_some, Nat.add_comm, List.replicate_add,
        List.append_assoc]
      rfl

theorem perm_recordAll (h : Histogram) (counts : List (String × ℕ)) :
    (repeated point (h.recordAll counts).toList).Perm
      (repeated point counts ++ repeated point h.toList) := by
  induction counts generalizing h with
  | nil => exact .refl _
  | cons c counts ih =>
    have hrecord : (repeated point (h.record c.1 c.2).toList).Perm
        (List.replicate c.2 (point c.1) ++ repeated point h.toList) := perm_alterEntries ..
    refine (ih (h.record c.1 c.2)).trans ((hrecord.append_left _).trans ?_)
    refine (List.perm_append_comm_assoc ..).trans (.of_eq ?_)
    simp [repeated]

end Histogram

namespace Decoder

open Histogram (repeated)

variable {d : Decoder} {h : Histogram}

/-- **Merging rearranges the shots**: an outcome stands for what its cut key stands for. -/
theorem perm_merged {α : Type} (point : String → α) (d : Decoder) (h : Histogram) :
    (repeated point (d.merged h).toList).Perm
      (repeated (fun key => point (d.short key)) h.toList) := by
  have hcut : repeated point (d.cutAll h.toList) =
      repeated (fun key => point (d.short key)) h.toList := List.flatMap_map ..
  have hempty : repeated point (Histogram.empty h.shots).toList = [] := rfl
  have hrecord := Histogram.perm_recordAll point (.empty h.shots) (d.cutAll h.toList)
  rwa [hempty, List.append_nil, hcut] at hrecord

/-! ### The table of the shots -/

/-- The shots one by one, each with the point that its key holds. -/
def replay (d : Decoder) (h : Histogram) : Except Failure (List (List ℕ)) := do
  let tables ← h.toList.mapM fun c => do
    let point ← d.spans.mapM (coordinate c.1)
    return List.replicate c.2 point
  return tables.flatten

/-- The point that a key holds, if it holds one. -/
def pointOf (d : Decoder) (key : String) : List ℕ :=
  (d.spans.mapM (coordinate key)).toOption.getD []

theorem pointOf_eq {key : String} {point : List ℕ}
    (h : d.spans.mapM (coordinate key) = .ok point) : d.pointOf key = point := by
  rw [pointOf, h]
  rfl

theorem replay_eq_ok {point : String → List ℕ}
    (hpoint : ∀ key ∈ h.keys, d.spans.mapM (coordinate key) = .ok (point key)) :
    d.replay h = .ok (repeated point h.toList) := by
  have hrows : h.toList.mapM (fun c => do
      let point ← d.spans.mapM (coordinate c.1)
      return List.replicate c.2 point) =
      .ok (h.toList.map fun c => List.replicate c.2 (point c.1)) := by
    refine Except.mapM_eq_ok_map fun c hc => ?_
    rw [hpoint c.1 (List.mem_map_of_mem hc)]
    rfl
  rw [replay, hrows, repeated, List.flatMap_def]
  rfl

theorem coordinate_of_short {key : String} {span : Span} {x : ℕ}
    (hx : coordinate (d.short key) span = .ok x) : coordinate key span = .ok x := by
  unfold coordinate at hx ⊢
  split_ifs at hx with hlast
  · rw [short, String.length_ofList, List.length_take, lt_min_iff, String.length_toList] at hlast
    rw [short, String.toList_ofList, List.take_take, Nat.min_eq_left hlast.1] at hx
    rwa [if_pos hlast.2]
  · cases hx

theorem mapM_coordinate_of_short {key : String} {point : List ℕ}
    (hpoint : d.spans.mapM (coordinate (d.short key)) = .ok point) :
    d.spans.mapM (coordinate key) = .ok point :=
  Except.mapM_eq_ok.mpr ((Except.mapM_eq_ok.mp hpoint).imp fun _ _ => coordinate_of_short)

end Decoder

/-! ### The moments of the table -/

theorem Scalar.round_natCast (n : ℕ) : round (n : ℝ) = n := by
  have hfloor : ⌊(n : ℝ) + 1 / 2⌋ = n := by
    rw [Int.floor_eq_iff]
    constructor <;> push_cast <;> linarith
  have hround : Scalar.round (n : ℝ) = (⌊(n : ℝ) + 1 / 2⌋ : ℝ) := if_pos n.cast_nonneg
  rw [hround, hfloor, Int.cast_natCast]

namespace Displacement

open Histogram (repeated)

/-- Points with their shares of the shots. -/
noncomputable def ofCounts (k : ℕ) (point : String → List ℕ) (counts : List (String × ℕ))
    (shots : ℕ) : Displacement ℝ where
  dimensions := k
  rows := counts.map fun c => ⟨point c.1, (c.2 : ℝ) / (shots : ℝ)⟩
  shots := shots

/-- The points of all rows, each as often as it was counted. -/
def expand {R : Type} (t : Displacement R) (counts : List ℕ) : List (List ℕ) :=
  (t.rows.zip counts).flatMap fun r => List.replicate r.2 r.1.point

theorem expand_ofCounts (k : ℕ) (point : String → List ℕ) (counts : List (String × ℕ))
    (shots : ℕ) :
    (ofCounts k point counts shots).expand (counts.map Prod.snd) = repeated point counts := by
  rw [expand, ofCounts, List.zip_map', List.flatMap_map]
  rfl

section counts

variable {k : ℕ} {point : String → List ℕ} {counts : List (String × ℕ)} {shots : ℕ}
  (hshots : 0 < shots)
include hshots

/-- Multiplied back by the shots, a density is the count again. -/
theorem weights_ofCounts :
    (ofCounts k point counts shots).weights = counts.map fun c => (c.2 : ℝ) := by
  rw [weights, ofCounts, List.map_map]
  refine List.map_congr_left fun c _ => ?_
  have hpos : (shots : ℝ) ≠ 0 := by exact_mod_cast hshots.ne'
  rw [Function.comp_apply, div_mul_cancel₀ _ hpos, Scalar.round_natCast]

theorem sum_weights_ofCounts :
    Scalar.sum (ofCounts k point counts shots).weights = (repeated point counts).length := by
  rw [weights_ofCounts hshots, Scalar.sum_eq, Histogram.length_repeated, Nat.cast_list_sum,
    List.map_map]
  rfl

theorem sum_weighted_ofCounts {f : DensityRow ℝ × ℝ → ℝ} {g : List ℕ → ℝ}
    (hfg : ∀ row w, f (row, w) = w * g row.point) :
    Scalar.sum ((ofCounts k point counts shots).weighted.map f) =
      ((repeated point counts).map g).sum := by
  have hweighted : (ofCounts k point counts shots).weighted =
      counts.map fun c => (⟨point c.1, (c.2 : ℝ) / (shots : ℝ)⟩, (c.2 : ℝ)) := by
    rw [weighted, weights_ofCounts hshots, ofCounts]
    exact List.zip_map' ..
  rw [Scalar.sum_eq, hweighted, List.map_map, Histogram.sum_repeated]
  exact congrArg List.sum (List.map_congr_left fun c _ => hfg ..)

theorem meanOf_ofCounts (hsize : 0 < (repeated point counts).length) (i : ℕ) :
    (ofCounts k point counts shots).meanOf i = some (Sample.mean (repeated point counts) i) := by
  have hpos : (0 : ℝ) < (repeated point counts).length := by exact_mod_cast hsize
  rw [meanOf, sum_weights_ofCounts hshots]
  rw [if_pos hpos, sum_weighted_ofCounts hshots (g := Sample.entry i) fun _ _ => mul_comm _ _]
  rfl

variable (hsize : 2 ≤ (repeated point counts).length)
include hsize

theorem covarianceOf_ofCounts (i j : ℕ) : (ofCounts k point counts shots).covarianceOf i j =
    some (Sample.covariance (repeated point counts) i j) := by
  have hordered : ∀ i j, (ofCounts k point counts shots).covarianceOfOrdered i j =
      some (Sample.covariance (repeated point counts) i j) := by
    intro i j
    have htwo : (2.0 : ℝ) ≤ (repeated point counts).length := by
      norm_num
      exact_mod_cast hsize
    have hmean := meanOf_ofCounts (k := k) hshots (Nat.zero_lt_two.trans_le hsize)
    rw [covarianceOfOrdered, sum_weights_ofCounts hshots, if_pos htwo, hmean, hmean]
    refine congrArg (fun x => some (x / _)) ?_
    exact sum_weighted_ofCounts hshots fun _ _ => mul_assoc _ _ _
  rw [covarianceOf, hordered]
  -- only the upper half is computed, and the other is its mirror image
  rcases le_total i j with hij | hij
  · rw [min_eq_left hij, max_eq_right hij]
  · rw [min_eq_right hij, max_eq_left hij, Sample.covariance_comm]

theorem correlationOf_ofCounts (i j : ℕ) : (ofCounts k point counts shots).correlationOf i j =
    Sample.correlation (repeated point counts) i j := by
  have hi := Sample.variance_nonneg (one_le_two.trans hsize) i
  have hscale : 0 < √(Sample.covariance (repeated point counts) i i *
      Sample.covariance (repeated point counts) j j) ↔
      0 < Sample.covariance (repeated point counts) i i ∧
        0 < Sample.covariance (repeated point counts) j j := by
    rw [Real.sqrt_pos, mul_pos_iff]
    exact or_iff_left fun hneg => absurd hi (not_le.mpr hneg.1)
  rw [correlationOf, covarianceOf_ofCounts hshots hsize, covarianceOf_ofCounts hshots hsize,
    covarianceOf_ofCounts hshots hsize]
  change (if 0 < √_ then some (_ / √_) else none) = _
  simp only [hscale, Sample.correlation]

end counts

end Displacement

/-- **The statistics are the moments of a sample**, in so many coordinates. Covariances are
symmetric and positive semidefinite, with the variances on their diagonal; correlations lie between
minus one and one, with one on their diagonal, and are undefined where a coordinate is constant. -/
structure Statistics.AreMoments (s : Statistics ℝ) (k : ℕ) (table : List (List ℕ)) : Prop where
  mean : s.mean = (List.range k).map fun i => some (Sample.mean table i)
  covariance : s.covariance = Displacement.table k fun i j => some (Sample.covariance table i j)
  symmetric : (Sample.covarianceMatrix k table).IsSymm
  posSemidef : (Sample.covarianceMatrix k table).PosSemidef
  variance : s.variance = (List.range k).map fun i => some (Sample.covariance table i i)
  correlation : s.correlation = Displacement.table k (Sample.correlation table)
  bounded : ∀ row ∈ s.correlation, ∀ r, some r ∈ row → r ∈ Set.Icc (-1) 1
  diagonal : ∀ (i : ℕ) (row : List (Option ℝ)) (r : ℝ), s.correlation[i]? = some row →
    row[i]? = some (some r) → r = 1

theorem Statistics.AreMoments.perm {s : Statistics ℝ} {k : ℕ} {table table' : List (List ℕ)}
    (h : s.AreMoments k table) (hperm : table.Perm table') : s.AreMoments k table' := by
  have hmean := Sample.mean_perm hperm
  have hcovariance := Sample.covariance_perm hperm
  have hcorrelation : Sample.correlation table = Sample.correlation table' := by
    funext i j
    simp only [Sample.correlation, hcovariance]
  have hmatrix : Sample.covarianceMatrix k table = Sample.covarianceMatrix k table' := by
    simp only [Sample.covarianceMatrix, hcovariance]
  exact
    { mean := hmean ▸ h.mean
      covariance := hcovariance ▸ h.covariance
      symmetric := hmatrix ▸ h.symmetric
      posSemidef := hmatrix ▸ h.posSemidef
      variance := hcovariance ▸ h.variance
      correlation := hcorrelation ▸ h.correlation
      bounded := h.bounded
      diagonal := h.diagonal }

namespace Displacement

open Histogram (repeated)

theorem mem_table {α : Type} {n : ℕ} {f : ℕ → ℕ → α} {row : List α} {a : α}
    (hrow : row ∈ table n f) (ha : a ∈ row) : ∃ i j, a = f i j := by
  obtain ⟨i, -, rfl⟩ := List.mem_map.mp hrow
  obtain ⟨j, -, rfl⟩ := List.mem_map.mp ha
  exact ⟨i, j, rfl⟩

theorem getElem?_table {α : Type} {n i j : ℕ} {f : ℕ → ℕ → α} {row : List α} {a : α}
    (hrow : (table n f)[i]? = some row) (ha : row[j]? = some a) : a = f i j := by
  rw [table, List.getElem?_map, Option.map_eq_some_iff] at hrow
  obtain ⟨i', hi, rfl⟩ := hrow
  rw [List.getElem?_map, Option.map_eq_some_iff] at ha
  obtain ⟨j', hj, rfl⟩ := ha
  obtain ⟨_, rfl⟩ := List.getElem?_eq_some_iff.mp hi
  obtain ⟨_, rfl⟩ := List.getElem?_eq_some_iff.mp hj
  rw [List.getElem_range, List.getElem_range]

theorem areMoments_ofCounts {k : ℕ} {point : String → List ℕ} {counts : List (String × ℕ)}
    {shots : ℕ} (hshots : 0 < shots) (hsize : 2 ≤ (repeated point counts).length) :
    (ofCounts k point counts shots).statistics.AreMoments k (repeated point counts) := by
  have hcorrelation : (ofCounts k point counts shots).statistics.correlation =
      table k (Sample.correlation (repeated point counts)) :=
    congrArg (table k) (funext₂ (correlationOf_ofCounts hshots hsize))
  exact
    { mean := List.map_congr_left fun i _ =>
        meanOf_ofCounts hshots (Nat.zero_lt_two.trans_le hsize) i
      covariance := congrArg (table k) (funext₂ (covarianceOf_ofCounts hshots hsize))
      symmetric := Sample.isSymm_covarianceMatrix k _
      posSemidef := Sample.posSemidef_covarianceMatrix (one_le_two.trans hsize) k
      variance := List.map_congr_left fun i _ => covarianceOf_ofCounts hshots hsize i i
      correlation := hcorrelation
      bounded := by
        rw [hcorrelation]
        intro row hrow r hr
        obtain ⟨i, j, hij⟩ := mem_table hrow hr
        exact Sample.correlation_mem_Icc hij.symm
      diagonal := by
        rw [hcorrelation]
        intro i row r hrow hr
        exact Sample.correlation_self (getElem?_table hrow hr).symm }

end Displacement

namespace Decoder

open Histogram (repeated)

variable {d : Decoder} {h : Histogram}

/-- **What is decoded** are the points of the merged keys, with the shares of their counts. -/
theorem ofCounts_of_decode {shots : ℕ} {t : Displacement ℝ} (hdecode : d.decode h shots = .ok t) :
    0 < shots ∧ (∀ key ∈ h.keys, d.Reads key) ∧
      (∀ key ∈ (d.merged h).keys, d.spans.mapM (coordinate key) = .ok (d.pointOf key)) ∧
      t = .ofCounts d.spans.length d.pointOf (d.merged h).toList shots := by
  obtain ⟨hshots, hreads, -, rows, hrows, rfl⟩ := rows_of_decode hdecode
  refine ⟨hshots, hreads, List.forall_mem_map.mpr fun c hc => ?_, ?_⟩
  · obtain ⟨_, hrow⟩ := Except.exists_of_mapM hrows hc
    obtain ⟨point, hpoint, -⟩ := Except.bind_eq_ok.mp hrow
    rw [pointOf_eq hpoint, hpoint]
  · have hrow : ∀ (c : String × ℕ) (row : DensityRow ℝ), d.row shots c = .ok row →
        row = ⟨d.pointOf c.1, (c.2 : ℝ) / (shots : ℝ)⟩ := by
      intro c row hrow
      obtain ⟨point, hpoint, hrow⟩ := Except.bind_eq_ok.mp hrow
      cases hrow
      rw [pointOf_eq hpoint]
    rw [Except.eq_map_of_mapM hrows fun c _ => hrow c]
    rfl

/-- **The statistics are those of the replayed shots.** Let a displacement be decoded from two
counts or more. Then each shot has a point, and the statistics are the moments of the table of these
points. It has as many entries as the counts add up to, and up to their order it has the point of
each row as often as the merged histogram counts it. -/
theorem statistics_of_replay {shots : ℕ} {t : Displacement ℝ} (hdecode : d.decode h shots = .ok t)
    (htotal : 2 ≤ h.total) : ∃ table m, d.replay h = .ok table ∧ table.length = h.total ∧
      d.merge h = .ok m ∧ t.size = m.size ∧ table.Perm (t.expand m.counts.values) ∧
      t.statistics.AreMoments t.dimensions table := by
  obtain ⟨hshots, hreads, hpoint, rfl⟩ := ofCounts_of_decode hdecode
  have hraw : ∀ key ∈ h.keys,
      d.spans.mapM (coordinate key) = .ok (d.pointOf (d.short key)) := fun key hkey =>
    mapM_coordinate_of_short (hpoint _ (mem_keys_merged.mpr (List.mem_map_of_mem hkey)))
  have hperm := perm_merged d.pointOf d h
  have hsize : (repeated d.pointOf (d.merged h).toList).length = h.total := by
    rw [Histogram.length_repeated, ← Histogram.total_eq_sum, total_merged]
  have hexpand := Displacement.expand_ofCounts d.spans.length d.pointOf (d.merged h).toList shots
  have hmoments := Displacement.areMoments_ofCounts (k := d.spans.length) hshots
    (htotal.trans_eq hsize.symm)
  exact ⟨_, d.merged h, replay_eq_ok hraw, hperm.length_eq.symm.trans hsize,
    merge_eq_ok.mpr ⟨hreads, rfl⟩, List.length_map _, hperm.symm.trans (.of_eq hexpand.symm),
    hmoments.perm hperm⟩

/-- Two coordinates of two bits each, the rest of a key being cut off. -/
def twoByTwo : Decoder := ⟨[⟨0, 0, 1⟩, ⟨1, 2, 3⟩], 4⟩

/-- Counts of keys with a bit behind the position. The first two have the same one. -/
def slanted : Histogram := .ofCounts [("00010", 1), ("00011", 1), ("10110", 2)]

/-- Four shots at two points of a line: the coordinates are fully correlated. -/
theorem statistics_of_replay_slanted : ∃ t : Displacement ℝ, twoByTwo.decode slanted 4 = .ok t ∧
    2 ≤ slanted.total ∧ twoByTwo.replay slanted = .ok [[0, 1], [0, 1], [2, 3], [2, 3]] ∧
    t.statistics.mean = [some 1, some 2] ∧
    t.statistics.covariance = [[some (4 / 3), some (4 / 3)], [some (4 / 3), some (4 / 3)]] ∧
    t.statistics.correlation = [[some 1, some 1], [some 1, some 1]] := by
  obtain ⟨t, hdecode⟩ : ∃ t : Displacement ℝ, twoByTwo.decode slanted 4 = .ok t := ⟨_, rfl⟩
  have htotal : 2 ≤ slanted.total := by decide
  have hreplay : twoByTwo.replay slanted = .ok [[0, 1], [0, 1], [2, 3], [2, 3]] := by rfl
  have hdimensions : t.dimensions = 2 := by
    obtain ⟨-, -, -, rfl⟩ := ofCounts_of_decode hdecode
    rfl
  obtain ⟨table, m, htable, -, -, -, -, hmoments⟩ := statistics_of_replay hdecode htotal
  obtain rfl := Except.ok.inj (hreplay.symm.trans htable)
  rw [hdimensions] at hmoments
  have hmean : ∀ i < 2, Sample.mean [[0, 1], [0, 1], [2, 3], [2, 3]] i = i + 1 := by
    intro i hi
    interval_cases i <;> norm_num [Sample.mean, Sample.entry]
  have hcovariance : ∀ i < 2, ∀ j < 2,
      Sample.covariance [[0, 1], [0, 1], [2, 3], [2, 3]] i j = 4 / 3 := by
    intro i hi j hj
    rw [Sample.covariance]
    simp only [Sample.deviation, hmean i hi, hmean j hj]
    interval_cases i <;> interval_cases j <;> norm_num [Sample.entry]
  have hcorrelation : ∀ i < 2, ∀ j < 2,
      Sample.correlation [[0, 1], [0, 1], [2, 3], [2, 3]] i j = some 1 := by
    intro i hi j hj
    rw [Sample.correlation_eq_some, hcovariance i hi i hi, hcovariance j hj j hj,
      hcovariance i hi j hj]
    norm_num
  refine ⟨t, hdecode, htotal, hreplay, ?_, ?_, ?_⟩
  · rw [hmoments.mean]
    norm_num [List.range_succ, hmean]
  · rw [hmoments.covariance]
    simp [Displacement.table, List.range_succ, hcovariance]
  · rw [hmoments.correlation]
    simp [Displacement.table, List.range_succ, hcorrelation]

end Decoder

end LatticeWalk
