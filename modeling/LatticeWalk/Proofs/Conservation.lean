import LatticeWalk.Proofs.Marginals
import LatticeWalk.Proofs.Restarts
import LatticeWalk.Proofs.Shots
import LatticeWalk.Proofs.Start

/-! # Conservation of shots

A program that is executed is observed once in every shot, under a key of its layout. So its
histogram is complete, and nothing between the counts and the results of a walk can refuse it.

* `Histogram.Complete`: every shot was counted, under a pattern.
* `Local.outcomes_of_execute`: what the device returns are observations, one for each shot;
  `Histogram.complete_observed` says that such a histogram is complete.
* `Displacement.check_eq_ok`: coordinates that fit and shares that add up to one are accepted.
* `Walk.accepts_of_complete`: a complete histogram is merged, decoded and accepted.
* `Walk.shots_conserved`: so a measurement fails only where the execution does. -/

namespace LatticeWalk

/-! ### Observations -/

/-- **Every shot was counted**, under a pattern of so many bits. -/
structure Histogram.Complete (h : Histogram) (width n : ℕ) : Prop where
  shots : h.shots = n
  total : h.total = n
  size : h.size ≤ n
  keys : ∀ key ∈ h.keys, IsPattern key width

theorem Histogram.complete_observed (layout : Layout) (outcomes : List ℕ) :
    ((empty outcomes.length).recordAll (layout.observed outcomes)).Complete layout.width
      outcomes.length := by
  have hfst : (layout.observed outcomes).map Prod.fst = outcomes.map layout.key := by
    rw [Layout.observed, List.map_map]
    rfl
  have hmem : ∀ key ∈ ((empty outcomes.length).recordAll (layout.observed outcomes)).keys,
      key ∈ outcomes.map layout.key := by
    intro key hkey
    rw [mem_keys_recordAll, hfst] at hkey
    exact hkey.resolve_left List.not_mem_nil
  constructor
  case shots => exact shots_recordAll _ _
  case total =>
    have hsnd : (layout.observed outcomes).map Prod.snd = List.replicate outcomes.length 1 := by
      rw [Layout.observed, List.map_map]
      exact List.map_const'
    rw [total_recordAll, hsnd, List.sum_replicate, smul_eq_mul, Nat.mul_one]
    exact Nat.zero_add _
  case size =>
    -- the keys do not repeat, and each of them was observed
    have hle := (List.subperm_of_subset (nodup_keys _) hmem).length_le
    rw [List.length_map, keys, OrderedMap.keys, List.length_map] at hle
    exact hle
  case keys =>
    intro key hkey
    obtain ⟨i, -, rfl⟩ := List.mem_map.mp (hmem key hkey)
    exact layout.isPattern_key i

namespace Local

variable {R : Type} [Scalar R] {c : Circuit R}

theorem outcomes_of_addRuns : ∀ {n : ℕ} {h h' : Histogram} {draws draws' : Draws R},
    (addRuns c n h).outcome draws = (.ok h', draws') →
    ∃ outcomes : List ℕ, outcomes.length = n ∧ h' = h.recordAll (c.layout.observed outcomes)
  | 0, _, _, _, _, hrun => by
    cases hrun
    exact ⟨[], rfl, rfl⟩
  | n + 1, h, h', draws, draws', hrun => by
    obtain ⟨v, draws₁, -, hrun⟩ := Attempt.outcome_bind_eq_ok hrun
    obtain ⟨i, draws₂, -, hrun⟩ := Attempt.outcome_bind_eq_ok hrun
    obtain ⟨outcomes, hlen, rfl⟩ := outcomes_of_addRuns hrun
    exact ⟨i :: outcomes, congrArg (· + 1) hlen, rfl⟩

/-- **What is returned are observations**, one for each shot. -/
theorem outcomes_of_execute {limit shots : ℕ} {draws draws' : Draws R} {h : Histogram}
    (hexecute : (execute limit c shots).outcome draws = (.ok h, draws')) :
    ∃ outcomes : List ℕ, outcomes.length = shots ∧
      h = (Histogram.empty shots).recordAll (c.layout.observed outcomes) := by
  unfold execute at hexecute
  split_ifs at hexecute with hlimit hresets
  · cases hexecute
  · exact outcomes_of_addRuns hexecute
  · by_cases hshots : shots = 0
    · subst hshots
      cases hexecute
      exact ⟨[], rfl, rfl⟩
    · obtain ⟨v, draws₁, -, hsamples⟩ := sampled_eq_ok hshots hexecute
      rw [outcome_addSamples] at hsamples
      cases hsamples
      exact ⟨_, draws₁.length_indices v.probabilities shots, rfl⟩

theorem complete_of_execute {limit shots : ℕ} {draws draws' : Draws R} {h : Histogram}
    (hexecute : (execute limit c shots).outcome draws = (.ok h, draws')) :
    h.Complete c.layout.width shots := by
  obtain ⟨outcomes, rfl, rfl⟩ := outcomes_of_execute hexecute
  exact Histogram.complete_observed c.layout outcomes

end Local

/-! ### Checks that are passed -/

namespace Displacement

theorem le_largest {x width : ℕ} (hx : x < 2 ^ width) (hnarrow : width ≤ 64) :
    x ≤ largest width := by
  have hlimit : Word.limit = 2 ^ 64 := rfl
  have hpow : Nat.pow 2 width = 2 ^ width := rfl
  unfold largest
  split_ifs with hwide
  · rw [le_antisymm hnarrow hwide] at hx
    omega
  · omega

/-- **What is accepted**: coordinates that fit their registers, with shares that add up to one. -/
theorem check_eq_ok {t : Displacement ℝ} {widths : List ℕ}
    (hcolumns : ∀ (d : ℕ) (column : List ℕ), t.columns[d]? = some column →
      ∀ x ∈ column, x ≤ largest (widths.getD d 0))
    (htotal : t.total = 1) {tolerance : ℝ} (htolerance : 0 ≤ tolerance) :
    t.check widths (some tolerance) = .ok () := by
  have hfits : t.columns.zipIdx.forM (fun c => checkColumn c.2 (widths.getD c.2 0) c.1) =
      .ok () := by
    refine Except.forM_eq_ok.mpr fun c hc => ?_
    have hcolumn := hcolumns c.2 c.1 (List.mem_zipIdx_iff_getElem?.mp hc)
    have hnone : c.1.find? (fun x => largest (widths.getD c.2 0) < x) = none :=
      List.find?_eq_none.mpr fun x hx => by simpa using hcolumn x hx
    rw [checkColumn, hnone]
  have hclose : ¬ tolerance < Scalar.abs (t.total - 1) := by
    rw [htotal, sub_self]
    simpa [Scalar.abs] using htolerance
  refine Except.bind_eq_ok.mpr ⟨(), hfits, ?_⟩
  simp only [Option.getD_some, hclose, decide_false, Bool.and_false]
  rfl

end Displacement

namespace Histogram

/-- The shares of all outcomes add up to one. -/
theorem total_displacement {h : Histogram} {shots : ℕ} (hshots : 0 < shots)
    (htotal : h.total = shots) (widths : List ℕ) :
    (h.displacement widths shots : Displacement ℝ).total = 1 := by
  have hpos : (shots : ℝ) ≠ 0 := Nat.cast_ne_zero.mpr hshots.ne'
  have hdensity : (h.displacement widths shots : Displacement ℝ).density =
      ((h.toList.map Prod.snd).map fun n : ℕ => (n : ℝ)).map fun x => x * (shots : ℝ)⁻¹ := by
    rw [Displacement.density, displacement, List.map_map, List.map_map, List.map_map]
    exact List.map_congr_left fun c _ => div_eq_mul_inv (c.2 : ℝ) (shots : ℝ)
  rw [Displacement.total, hdensity, Scalar.sum_eq, List.sum_map_mul_right, List.map_id',
    ← Nat.cast_list_sum, ← total_eq_sum, htotal]
  exact mul_inv_cancel₀ hpos

end Histogram

namespace Walk

/-- **Nothing refuses a histogram** on the way to a displacement of the walk, which gives every point
its share of the counts. -/
structure Accepts (w : Walk ℝ) (h : Histogram) (shots : ℕ) (t : Displacement ℝ) : Prop where
  conserved : ∃ m, w.decoder.merge h = .ok m ∧ h.checkConserved m = .ok ()
  decoded : w.decoder.decode h shots = .ok t
  marginal : t.IsMarginal h w.plan.widths shots
  total : t.total = 1
  checked : t.check w.plan.widths (some resultTolerance) = .ok ()

theorem Accepts.read_eq {w : Walk ℝ} {h : Histogram} {shots : ℕ} {t : Displacement ℝ}
    (ht : w.Accepts h shots t) : w.read h shots = .ok t :=
  Except.bind_eq_ok.mpr ⟨t, ht.decoded, Except.bind_eq_ok.mpr ⟨(), ht.checked, rfl⟩⟩

/-- **A complete histogram of a walk is accepted.** -/
theorem accepts_of_complete {spec : WalkSpec ℝ} {w₀ w : Walk ℝ} (hbuild : build spec = .ok w₀)
    (hnarrow : ∀ width ∈ spec.widths, width ≤ 64) (hplan : w.plan = w₀.plan) {h : Histogram}
    {shots : ℕ} (hshots : 0 < shots) (hh : h.Complete w.plan.layout.width shots) :
    ∃ t, w.Accepts h shots t := by
  have hdecoder : w.decoder = w₀.decoder := by rw [decoder, decoder, hplan]
  have hd : w.decoder.Splits spec.widths := hdecoder ▸ splits_of_build hbuild hnarrow
  have hwidths : w.plan.widths = spec.widths := hplan ▸ (build_eq_ok hbuild).1.plan.widths
  have hreads : ∀ key ∈ h.keys, w.decoder.Reads key := fun key hkey =>
    ⟨(hh.keys key hkey).bits, Layout.stateBits_le.trans (hh.keys key hkey).length.ge⟩
  have hcounted : h.shots = 0 ∨ h.shots = h.total := .inr (hh.shots.trans hh.total.symm)
  have hconserved := (Histogram.checkConserved_eq_ok (w.decoder.total_merged h)).mpr hcounted
  have hmarginal := hd.isMarginal (R := ℝ) hreads shots
  have htotal := Histogram.total_displacement hshots
    ((w.decoder.total_merged h).trans hh.total) spec.widths
  refine ⟨(w.decoder.merged h).displacement spec.widths shots,
    { conserved := ⟨_, Decoder.merge_eq_ok.mpr ⟨hreads, rfl⟩, hconserved⟩
      decoded := hd.decode_eq_ok.mpr ⟨hshots, hreads, hcounted, rfl⟩
      marginal := hwidths ▸ hmarginal
      total := htotal
      checked := ?_ }⟩
  rw [hwidths]
  refine Displacement.check_eq_ok (fun d column hcolumn x hx => ?_) htotal ?_
  · obtain ⟨hlt, -⟩ := List.getElem?_eq_some_iff.mp hcolumn
    rw [hmarginal.columns] at hlt
    rw [List.getD_eq_getElem _ _ hlt]
    exact Displacement.le_largest
      (hmarginal.bounded d _ column (List.getElem?_eq_getElem hlt) hcolumn x hx)
      (hnarrow _ (List.getElem_mem hlt))
  · unfold resultTolerance
    norm_num

/-! ### Measurements -/

/-- **Local execution keeps every shot, and can always be decoded.** A histogram that the device
returns, of any circuit and with any draws, is complete: it counts as many observations as there
were shots, under keys of as many bits as the circuit has wires. So a walk whose registers fit a
word, whatever it was asked before, is measured whenever its program is executed: what is returned
is accepted and kept. A measurement fails only as the execution does, and leaves the walk. -/
theorem shots_conserved :
    (∀ (R : Type) [Scalar R] (limit : ℕ) (c : Circuit R) (shots : ℕ) (draws draws' : Draws R)
      (h : Histogram), (Local.execute limit c shots).outcome draws = (.ok h, draws') →
        h.Complete c.layout.width shots) ∧
    ∀ (spec : WalkSpec ℝ) (w₀ : Walk ℝ), build spec = .ok w₀ →
      (∀ width ∈ spec.widths, width ≤ 64) →
      ∀ (σ : Type) (backend : Backend ℝ σ) (b : σ) (calls : List Call) (w : Walk ℝ),
        (run backend (w₀, b) calls).1 = w →
        ∀ (limit shots : ℕ) (draws draws' : Draws ℝ), 0 < shots →
          (∀ h, (Local.execute limit w.program shots).outcome draws = (.ok h, draws') →
            ∃ t, w.Accepts h shots t ∧
              (getResults (.simulator ℝ limit) shots).outcome (w, draws) =
                (.ok t, ({ w with results := some t }, draws'))) ∧
          ∀ e, (Local.execute limit w.program shots).outcome draws = (.error e, draws') →
            (getResults (.simulator ℝ limit) shots).outcome (w, draws) =
              (.error e, (w, draws')) := by
  refine ⟨fun R _ limit c shots draws draws' h => Local.complete_of_execute, ?_⟩
  intro spec w₀ hbuild hnarrow σ backend b calls w hw limit shots draws draws' hshots
  have hplan : w.plan = w₀.plan := hw ▸ (compiled_run hbuild backend b calls).plan_eq
  have hlayout : w.program.layout = w.plan.layout := hw ▸ (ready_run hbuild backend b calls).layout
  have houtcome := outcome_getResults (Backend.simulator ℝ limit) shots (w, draws)
  refine ⟨fun h hexecute => ?_, fun e hexecute => ?_⟩
  · have hcomplete : h.Complete w.plan.layout.width shots :=
      hlayout ▸ Local.complete_of_execute hexecute
    obtain ⟨t, ht⟩ := accepts_of_complete hbuild hnarrow hplan hshots hcomplete
    refine ⟨t, ht, houtcome.trans ?_⟩
    simp only [Backend.simulator, hexecute, ht.read_eq]
  · refine houtcome.trans ?_
    simp only [Backend.simulator, hexecute]

/-- Five shots of a walk that began anew after unruly calls. -/
theorem shots_conserved_anew : ∃ w₀ w : Walk ℝ, build latchedAtThree = .ok w₀ ∧
    (run (Backend.replay ℝ) (w₀, []) (unruly ++ [.resetCircuit])).1 = w ∧
    ∃ h t draws', (Local.execute 24 w.program 5).outcome (.ofSeed 7) = (.ok h, draws') ∧
      h.Complete 7 5 ∧ w.Accepts h 5 t ∧
      (getResults (.simulator ℝ 24) 5).outcome (w, .ofSeed 7) =
        (.ok t, ({ w with results := some t }, draws')) := by
  obtain ⟨w, hbuild, hwidth⟩ : ∃ w : Walk ℝ, build latchedAtThree = .ok w ∧
      w.program.width = 7 := ⟨_, rfl, rfl⟩
  have hanew : (run (Backend.replay ℝ) (w, []) (unruly ++ [.resetCircuit])).1 = w := by
    rw [run_concat, perform, Attempt.outcome_first,
      resetCircuit_of_run hbuild (Backend.replay ℝ) [] unruly rfl]
  obtain ⟨h, draws', hexecute, -, -⟩ := execute_of_build hbuild states_latchedAtThree
    (by omega) (show w.program.width ≤ 24 by omega) (show 0 < 5 by norm_num) (.ofSeed 7)
  obtain ⟨hcomplete, hmeasures⟩ := shots_conserved
  obtain ⟨hresults, -⟩ := hmeasures _ w hbuild (by decide) _ (Backend.replay ℝ) [] _ w
    hanew 24 5 (.ofSeed 7) draws' (by norm_num)
  obtain ⟨t, ht, hmeasured⟩ := hresults h hexecute
  exact ⟨w, w, hbuild, hanew, h, t, draws', hexecute,
    hwidth ▸ hcomplete ℝ 24 w.program 5 _ _ h hexecute, ht, hmeasured⟩

end Walk

end LatticeWalk
