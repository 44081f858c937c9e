import LatticeWalk.Proofs.Latches
import LatticeWalk.Proofs.Placement
import LatticeWalk.Proofs.Sampling

/-! # The start of a walk

A program that has only begun leaves the simulation in one basis state: the walker in its place, the
latches set and all other wires at zero. What is measured there is decoded to the place in which the
walker was put (`Walk.start_survives`).

* `Register.written_eq`: a register that holds the value of a pattern is written as that pattern.
* `WalkSpec.Begins`: what the basis state of an unstepped program holds.
* `Plan.Sound.begins`, `Plan.Sound.run_preparation`: the preparation leads to such a state. -/

namespace LatticeWalk

open Operation (gatesOf)

theorem Register.written_eq {r : Register} {s : String} (hs : IsPattern s r.width) {i : ℕ}
    (h : r.valueIn i = Pattern.value s) : r.written i = s.toList := by
  rw [← Register.read_testBit, Pattern.read_eq_value hs] at h
  have hlen := Pattern.length_wireBits_of hs
  have hbits : (List.range r.width).map (i >>> r.start).testBit = Pattern.wireBits s := by
    refine List.ext_getElem (by simp [hlen]) fun q hq hq' => ?_
    have hbit := h q (by simpa using hq)
    rw [List.getD_eq_getElem _ _ hq'] at hbit
    rw [List.getElem_map, List.getElem_range, Nat.testBit_shiftRight]
    exact hbit
  rw [← (Pattern.ofValue_eq_iff hs _).mpr hbits]
  exact String.toList_ofList.symm

/-- **The basis state in which a walk begins**: every position register holds the starting position
along its dimension and every latch its pattern, and all other wires are zero. -/
structure WalkSpec.Begins {R : Type} (spec : WalkSpec R) (layout : Layout) (states : List String)
    (i : ℕ) : Prop where
  positions : ∀ (d : ℕ) (s : String), states[d]? = some s →
    ∃ r, layout.dimension? d = some r ∧ r.width = s.length ∧ r.valueIn i = Pattern.value s
  latches : ∀ (j : ℕ) (c : BoundaryControl R) (n : ℕ), spec.controls[j]? = some c →
    c.permeability = .absorbing n → 0 < n →
    ∃ r, layout.find? (.control j) = some r ∧ r.width = n ∧ r.valueIn i = Pattern.value c.state
  elsewhere : ∀ q, (∀ d r, layout.dimension? d = some r → q ∉ r.wires) →
    (∀ (j : ℕ) (c : BoundaryControl R) (n : ℕ) (r : Register), spec.controls[j]? = some c →
      c.permeability = .absorbing n → layout.find? (.control j) = some r → q ∉ r.wires) →
    i.testBit q = false

namespace Plan

/-- The basis state that a program begins with. -/
def startIndex {R : Type} (plan : Plan R) : ℕ := index plan.layout.width plan.prepared

namespace Sound

variable {R : Type} [Scalar R] {plan : Plan R} {spec : WalkSpec R} (h : plan.Sound spec)
include h

theorem control_of_spec {j : ℕ} {c : BoundaryControl R} (hc : spec.controls[j]? = some c) :
    ∃ i, plan.controls[j]? = some i ∧ i.control = c := by
  rw [← h.controls, List.getElem?_map] at hc
  exact Option.map_eq_some_iff.mp hc

theorem spec_of_control {j : ℕ} {i : Installed R} (hi : plan.controls[j]? = some i) :
    spec.controls[j]? = some i.control := by
  rw [← h.controls, List.getElem?_map, hi]
  rfl

variable (hstates : ∀ c ∈ plan.controls, IsPattern c.control.state c.control.controlWidth)
include hstates

theorem testBit_startIndex : plan.startIndex.testBit = plan.prepared := by
  refine testBit_index_of_high fun q hq => h.prepared_eq_false hstates fun p hp hmem => ?_
  have hstop := plan.layout.stop_le (h.register_of_marks hp)
  have hlt := (Register.mem_wires.mp hmem).2
  omega

theorem valueIn_startIndex {p : Register × String} (hp : p ∈ plan.marks) :
    p.1.valueIn plan.startIndex = Pattern.value p.2 := by
  rw [← Register.read_testBit, h.testBit_startIndex hstates]
  exact h.read_marks hstates hp

theorem shows_startIndex [BitExact R] :
    (StateVector.basis plan.layout.width plan.startIndex : StateVector R).Shows
      (Wave.basis plan.prepared) := by
  rw [← h.testBit_startIndex hstates]
  exact StateVector.shows_basis (index_lt _ _)

/-- **The preparation leads to the basis state in which the walk begins**, for any scalars. -/
theorem run_preparation [BitExact R] (draws : Draws R) :
    (Simulation.run plan.preparation).outcome ⟨.basis plan.layout.width 0, draws⟩ =
      (.ok (), ⟨.basis plan.layout.width plan.startIndex, draws⟩) := by
  obtain ⟨v, hrun, hwires, hshows⟩ := Simulation.run_gates
    (StateVector.shows_start plan.layout.width) (fun op hop => h.within_marks hstates hop)
    (fun op hop => isReset_of_preparation hop) draws
  rw [actAll_preparation] at hshows
  rw [hrun, hshows.eq (h.shows_startIndex hstates) hwires]

omit hstates

variable (hp : plan.Placed) {states : List String} (hinitial : spec.initial = some states)
include hinitial

theorem mem_marks {d : ℕ} {s : String} (hs : states[d]? = some s) :
    ∃ r, plan.positions[d]? = some r ∧ (r, s) ∈ plan.marks := by
  obtain ⟨hd, -⟩ := List.getElem?_eq_some_iff.mp hs
  rw [(h.shape.initial states hinitial).1, ← h.length_positions] at hd
  refine ⟨plan.positionOf d, Plan.getElem?_positions hd, List.mem_append_right _ ?_⟩
  rw [h.initial, hinitial]
  exact List.mem_iff_getElem?.mpr
    ⟨d, List.getElem?_zip_eq_some.mpr ⟨Plan.getElem?_positions hd, hs⟩⟩

theorem map_positions {α : Type} {f : Register → α} {g : String → α}
    (hfg : ∀ p ∈ plan.marks, f p.1 = g p.2) : plan.positions.map f = states.map g := by
  have hlen : plan.positions.length = states.length := by
    rw [h.length_positions, (h.shape.initial states hinitial).1]
  refine List.ext_getElem (by simp [hlen]) fun d hd hd' => ?_
  rw [List.length_map] at hd hd'
  obtain ⟨r, hr, hmark⟩ := h.mem_marks hinitial (List.getElem?_eq_getElem hd')
  rw [List.getElem?_eq_getElem hd, Option.some.injEq] at hr
  rw [List.getElem_map, List.getElem_map, hr]
  exact hfg _ hmark

include hstates

include hp in
theorem begins : spec.Begins plan.layout states plan.startIndex where
  positions d s hs := by
    obtain ⟨r, hr, hmark⟩ := h.mem_marks hinitial hs
    exact ⟨r, hp.dimension?_eq_some h hr, (h.isPattern_marks hstates hmark).length.symm,
      h.valueIn_startIndex hstates hmark⟩
  latches j c n hc hn hpos := by
    obtain ⟨i, hi, rfl⟩ := h.control_of_spec hc
    obtain ⟨⟨r, hr, hrn⟩, -⟩ := (h.wired i (List.mem_of_getElem? hi)).eq_some_of_absorbing hn hpos
    have hlatch : (r, i.control.state) ∈ plan.latches :=
      List.mem_filterMap.mpr ⟨i, List.mem_of_getElem? hi,
        Installed.latch?_eq_some.mpr ⟨⟨n, hn⟩, hr, rfl⟩⟩
    exact ⟨r, hp.control?_eq_some h hi hr, hrn,
      h.valueIn_startIndex hstates (List.mem_append_left _ hlatch)⟩
  elsewhere q hpositions hlatches := by
    rw [h.testBit_startIndex hstates]
    refine h.prepared_eq_false hstates fun p hmark => ?_
    rcases List.mem_append.mp hmark with hmark | hmark
    · obtain ⟨i, hi, hlatch⟩ := List.mem_filterMap.mp hmark
      obtain ⟨⟨n, hn⟩, hr, -⟩ := Installed.latch?_eq_some.mp hlatch
      obtain ⟨j, hj⟩ := List.mem_iff_getElem?.mp hi
      exact hlatches j i.control n p.1 (h.spec_of_control hj) hn (hp.control?_eq_some h hj hr)
    · obtain ⟨d, hd⟩ := List.mem_iff_getElem?.mp (List.of_mem_zip hmark).1
      exact hpositions d p.1 (hp.dimension?_eq_some h hd)

/-- The key of the basis state begins with the patterns of the starting position. -/
theorem prefix_key : states.flatMap String.toList <+: (plan.layout.key plan.startIndex).toList := by
  have hwritten : plan.positions.map (Register.written plan.startIndex) =
      states.map String.toList := h.map_positions hinitial fun p hmark =>
    Register.written_eq (h.isPattern_marks hstates hmark) (h.valueIn_startIndex hstates hmark)
  have hflat : plan.positions.flatMap (Register.written plan.startIndex) =
      states.flatMap String.toList := by
    rw [List.flatMap_def, hwritten, List.flatMap_def]
  rw [Layout.toList_key, h.registers, List.flatMap_append, hflat]
  exact List.prefix_append _ _

include hp in
theorem pointOf_startIndex : plan.layout.pointOf plan.startIndex = states.map Pattern.value := by
  rw [Layout.pointOf, ← Layout.map_ordered, hp.map_ordered h]
  exact h.map_positions hinitial fun p hmark => h.valueIn_startIndex hstates hmark

end Sound

end Plan

namespace Walk

section unstepped
variable {spec : WalkSpec ℝ} {w : Walk ℝ} (hbuild : build spec = .ok w)
include hbuild

theorem width_pos_of_build : 0 < w.program.width := by
  have hready := (build_eq_ok hbuild).1
  have hcoin := hready.plan.coin_pos
  have hstop := hready.plan.stop_coin
  rw [Register.stop] at hstop
  rw [hready.width]
  omega

variable (hstates : ∀ c ∈ spec.controls, IsPattern c.state c.controlWidth)
include hstates

/-- Executed without a step, a program leads to the basis state in which the walk begins. -/
theorem run_of_build (draws : Draws ℝ) :
    (Simulation.run w.program.operations).outcome ⟨.basis w.program.width 0, draws⟩ =
      (.ok (), ⟨.basis w.program.width w.plan.startIndex, draws⟩) := by
  have hready := (build_eq_ok hbuild).1
  rw [(fresh_of_build hbuild).2.2, hready.width]
  exact hready.plan.run_preparation (hready.plan.of_controls hstates) draws

theorem execute_of_build (hwidth : w.program.width < 64) {limit shots : ℕ}
    (hlimit : w.program.width ≤ limit) (hshots : 0 < shots) (draws : Draws ℝ) : ∃ h draws',
      (Local.execute limit w.program shots).outcome draws = (.ok h, draws') ∧
        h.toList = [(w.program.layout.key w.plan.startIndex, shots)] ∧ h.shots = shots := by
  have hevolve : (Local.evolve w.program).outcome draws =
      (.ok (.basis w.program.width w.plan.startIndex), draws) := by
    simp only [Local.evolve, Attempt.outcome_of,
      Simulation.start_eq_ok (width_pos_of_build hbuild) hwidth, run_of_build hbuild hstates]
    rfl
  have hreset : w.program.hasResets = false := by
    rw [Circuit.hasResets, (fresh_of_build hbuild).2.2, List.any_eq_false]
    intro op hop
    rw [Plan.isReset_of_preparation hop]
    exact Bool.false_ne_true
  have hlt : w.plan.startIndex < 2 ^ w.program.width := by
    rw [(build_eq_ok hbuild).1.width]
    exact index_lt _ _
  obtain ⟨h, hexecute, hlist, htotal⟩ :=
    Local.outcome_execute_basis hlimit hreset hshots hevolve hlt
  exact ⟨h, _, hexecute, hlist, htotal⟩

/-- Counts of that key alone are decoded to the starting position. -/
theorem decode_of_build {states : List String} (hinitial : spec.initial = some states)
    (hwidth : w.program.width < 64) {h : Histogram} {count : ℕ}
    (hlist : h.toList = [(w.program.layout.key w.plan.startIndex, count)])
    (htotal : h.shots = count) {shots : ℕ} (hshots : 0 < shots) :
    (Decoder.ofLayout w.program.layout).decode h shots =
      .ok (⟨states.length, [⟨states.map Pattern.value, (count : ℝ) / (shots : ℝ)⟩], shots⟩ :
        Displacement ℝ) := by
  have hready := (build_eq_ok hbuild).1
  have hplan := hready.plan
  have hp := WalkSpec.plan_placed (plan_of_build hbuild)
  have hnarrow : ∀ r ∈ w.program.layout.registers, r.width ≤ 64 := by
    intro r hr
    have hstop := w.program.layout.stop_le hr
    have hwide : w.program.layout.width < 64 := hwidth
    rw [Register.stop] at hstop
    omega
  have hdecode := Layout.decode_single (R := ℝ) hnarrow hlist htotal hshots
  rwa [hready.layout, hplan.pointOf_startIndex (hplan.of_controls hstates) hp hinitial,
    List.length_map, ← hready.layout] at hdecode

end unstepped

/-- **The starting position survives the whole pipeline.** Executed without a step, the program of a
walk leaves the simulation in the basis state in which the walk begins. Every sample of it gives
that state, every key begins with the patterns of the starting position, every execution counts
one key only, and whatever number of counts is decoded, the result is one row, which holds the
starting position. -/
theorem start_survives {spec : WalkSpec ℝ} {w : Walk ℝ} (hbuild : build spec = .ok w)
    (hstates : ∀ c ∈ spec.controls, IsPattern c.state c.controlWidth) {states : List String}
    (hinitial : spec.initial = some states) (hwidth : w.program.width < 64) :
    ∃ i < 2 ^ w.program.width, spec.Begins w.program.layout states i ∧
      (∀ draws, ∃ s, Simulation.start w.program.width draws = .ok s ∧
        (Simulation.run w.program.operations).outcome s =
          (.ok (), ⟨.basis w.program.width i, draws⟩)) ∧
      (∀ draws, (Simulation.sample ⟨(.basis w.program.width i : StateVector ℝ), draws⟩).1 = i) ∧
      states.flatMap String.toList <+: (w.program.layout.key i).toList ∧
      (∀ limit shots draws, w.program.width ≤ limit → 0 < shots → ∃ h draws',
        (Local.execute limit w.program shots).outcome draws = (.ok h, draws') ∧
          h.toList = [(w.program.layout.key i, shots)] ∧ h.shots = shots) ∧
      ∀ (h : Histogram) (count : ℕ), 0 < count → h.toList = [(w.program.layout.key i, count)] →
        h.shots = count → ∀ shots > 0, (Decoder.ofLayout w.program.layout).decode h shots =
          .ok (⟨states.length, [⟨states.map Pattern.value, (count : ℝ) / (shots : ℝ)⟩], shots⟩ :
            Displacement ℝ) := by
  have hready := (build_eq_ok hbuild).1
  have h := hready.plan
  have hp := WalkSpec.plan_placed (plan_of_build hbuild)
  have hstates' := h.of_controls hstates
  have hlt : w.plan.startIndex < 2 ^ w.program.width := by
    rw [hready.width]
    exact index_lt _ _
  have hlayout := hready.layout
  refine ⟨w.plan.startIndex, hlt, hlayout ▸ h.begins hstates' hp hinitial,
    fun draws => ⟨_, Simulation.start_eq_ok (width_pos_of_build hbuild) hwidth draws,
      run_of_build hbuild hstates draws⟩,
    fun draws => StateVector.sampleIndex_basis hlt _, hlayout ▸ h.prefix_key hstates' hinitial,
    fun limit shots draws hlimit hshots =>
      execute_of_build hbuild hstates hwidth hlimit hshots draws,
    fun hist count _ hlist htotal shots hshots =>
      decode_of_build hbuild hstates hinitial hwidth hlist htotal hshots⟩

/-- Two dimensions, and a wall with a latch of two wires that is set to one. -/
noncomputable def latchedAtThree : WalkSpec ℝ where
  widths := [2, 1]
  initial := some ["10", "1"]
  controls := [⟨.absorbing 2, "01", [⟨"11", 0, none⟩], 1, none⟩]

theorem states_latchedAtThree :
    ∀ c ∈ latchedAtThree.controls, IsPattern c.state c.controlWidth := by
  intro c hc
  rw [List.mem_singleton.mp hc]
  exact ⟨by simp [Pattern.isBit], rfl⟩

/-- The walker that starts at two and one is found there. -/
theorem start_survives_latchedAtThree : ∃ w : Walk ℝ, build latchedAtThree = .ok w ∧
    w.program.width = 7 ∧ ∃ i < 2 ^ 7, latchedAtThree.Begins w.program.layout ["10", "1"] i ∧
      ∀ draws, ∃ h draws', (Local.execute 24 w.program 5).outcome draws = (.ok h, draws') ∧
        (Decoder.ofLayout w.program.layout).decode h 5 =
          .ok (⟨2, [⟨[2, 1], ((5 : ℕ) : ℝ) / ((5 : ℕ) : ℝ)⟩], 5⟩ : Displacement ℝ) := by
  obtain ⟨w, hbuild, hwidth⟩ : ∃ w : Walk ℝ, build latchedAtThree = .ok w ∧
      w.program.width = 7 := ⟨_, rfl, rfl⟩
  obtain ⟨i, hi, hbegins, -, -, -, hexecute, hdecode⟩ :=
    start_survives hbuild states_latchedAtThree rfl (by omega)
  refine ⟨w, hbuild, hwidth, i, hwidth ▸ hi, hbegins, fun draws => ?_⟩
  obtain ⟨h, draws', hrun, hlist, hshots⟩ := hexecute 24 5 draws (by omega) (by norm_num)
  exact ⟨h, draws', hrun, hdecode h 5 (by norm_num) hlist hshots 5 (by norm_num)⟩

end Walk

end LatticeWalk
