import LatticeWalk.Proofs.Pass
import LatticeWalk.Proofs.Reordering
import LatticeWalk.Proofs.Slice

/-! # The order of boundaries

The boundary phase puts the blocks of the planes one behind the other, control by control. What it
comes to does not depend on the order of planes, nor on that of controls that reflect, as long as
these keep their place among the one-way controls.

* `Walk.SameBoundaries`: two boundary phases that come to the same.
* `Walk.build_replanned`: a specification with its planes in another order.
* `Walk.reflections_in_any_order`: the orders that make no difference.
* `Walk.walls_around_valve_not_exchangeable`: one that makes a difference. Its coin only changes
  signs, so that every basis state goes to one basis state (`Gate.actAll_basis_ne_zero_iff`). -/

namespace LatticeWalk

open Operation (gatesOf)
open Simulation (Leads)

variable {R : Type} [Scalar R]

/-! ### Specifications with planes in another order -/

/-- The control has the same planes in another order. -/
def BoundaryControl.Replanned (c c' : BoundaryControl R) : Prop :=
  ∃ ps, c.boundaries.Perm ps ∧ c' = { c with boundaries := ps }

omit [Scalar R] in
theorem BoundaryControl.planes_replanned {cs cs' : List (BoundaryControl R)}
    (h : cs.Forall₂ Replanned cs') :
    (cs.flatMap boundaries).Perm (cs'.flatMap boundaries) := by
  induction h with
  | nil => exact .nil
  | cons hc _ ih =>
    obtain ⟨ps, hperm, rfl⟩ := hc
    exact hperm.append ih

omit [Scalar R] in
theorem Plan.install_replanned : ∀ {cs cs' : List (BoundaryControl R)} {b b' : Allocator}
    {i : ℕ} {as : List (Installed R)}, cs.Forall₂ BoundaryControl.Replanned cs' →
    install b i cs = .ok (as, b') → ∃ as', install b i cs' = .ok (as', b') ∧
      Installed.Rearranged as as' ∧
      as'.flatMap (fun c => c.control.preparation c.register) =
        as.flatMap fun c => c.control.preparation c.register
  | _, _, b, b', i, as, .nil, h => by
    obtain rfl : as = [] := (congrArg Prod.fst (Except.ok.inj h)).symm
    exact ⟨[], h, .nil, rfl⟩
  | _, _, b, b', i, as, .cons ⟨ps, hperm, hc⟩ hcs, h => by
    subst hc
    obtain ⟨⟨r, b1⟩, h1, h⟩ := Except.bind_eq_ok.mp h
    obtain ⟨⟨a, b2⟩, h2, h⟩ := Except.bind_eq_ok.mp h
    obtain ⟨⟨rest, b3⟩, h3, h⟩ := Except.bind_eq_ok.mp h
    cases h
    obtain ⟨rest', h3', hrest, hprep⟩ := install_replanned hcs h3
    refine ⟨_, Except.bind_eq_ok.mpr ⟨_, h1, Except.bind_eq_ok.mpr ⟨_, h2,
      Except.bind_eq_ok.mpr ⟨_, h3', rfl⟩⟩⟩, .planes hperm hrest, ?_⟩
    rw [List.flatMap_cons, List.flatMap_cons, hprep]
    rfl

/-- **Planes in another order** give the same walk with its controls rearranged. -/
theorem Walk.build_replanned {spec : WalkSpec R} {w₀ : Walk R} (hbuild : build spec = .ok w₀)
    {cs : List (BoundaryControl R)} (hcs : spec.controls.Forall₂ BoundaryControl.Replanned cs) :
    ∃ as, Installed.Rearranged w₀.plan.controls as ∧ build { spec with controls := cs } =
      .ok { w₀ with plan := { w₀.plan with controls := as } } := by
  obtain ⟨b1, b2, b3, h⟩ := WalkSpec.plan_eq_ok.mp (build_eq_ok_iff.mp hbuild).1
  obtain ⟨as, hinstall, hrearranged, hprep⟩ := Plan.install_replanned hcs h.controls
  have hshape : { spec with controls := cs }.checkShape = .ok () := by
    have hshaped := WalkSpec.checkShape_eq_ok.mp h.shape
    have hplanes := BoundaryControl.planes_replanned hcs
    exact WalkSpec.checkShape_eq_ok.mpr ⟨hshaped.nonempty, hshaped.widths, hshaped.initial,
      fun plane hp => hshaped.planes plane (hplanes.mem_iff.mpr hp)⟩
  have hplan : { spec with controls := cs }.plan = .ok { w₀.plan with controls := as } :=
    WalkSpec.plan_eq_ok.mpr ⟨b1, b2, b3, hshape, h.moves, h.coin, h.cycle, h.positions,
      h.coinRegister, hinstall, h.layout, h.widths, h.initial, h.decoherence⟩
  refine ⟨as, hrearranged, build_of_preparation hbuild hplan rfl ?_⟩
  rw [Plan.preparation, Plan.preparation, hprep]

/-! ### The boundary phase -/

theorem Simulation.leads_alike {n : ℕ} {ops ops' : List (Operation R)}
    (hops : ∀ op ∈ ops, op.Within n ∧ op.isReset = false)
    (hops' : ∀ op ∈ ops', op.Within n ∧ op.isReset = false)
    (hact : ∀ ψ : Wave R, Gate.actAll (gatesOf ops) ψ = Gate.actAll (gatesOf ops') ψ)
    {v : StateVector R} (hn : v.wires = n) (hsize : v.amplitudes.size = 2 ^ n) :
    ∃ u, Leads ops v u ∧ Leads ops' v u := by
  subst hn
  have hshows := StateVector.shows_wave hsize
  obtain ⟨u, hleads, hwires, hu⟩ := leads_of_shows hshows hops
  obtain ⟨u', hleads', hwires', hu'⟩ := leads_of_shows hshows hops'
  rw [← hact] at hu'
  exact ⟨u, hleads, hu'.eq hu (hwires'.trans hwires.symm) ▸ hleads'⟩

namespace Walk

variable {w : Walk R}

/-- **The boundary phases of two walks come to the same**: both fail, or both succeed and add
operations that lead from any state of the wires to one state. -/
structure SameBoundaries (w w' : Walk R) : Prop where
  succeeds : (∃ t, applyBoundaries.outcome w = (.ok (), t)) ↔
    ∃ t, applyBoundaries.outcome w' = (.ok (), t)
  leads : ∀ t t', applyBoundaries.outcome w = (.ok (), t) →
    applyBoundaries.outcome w' = (.ok (), t') → ∃ ops ops',
      t = { w.push ops with phase := .bounded } ∧ t' = { w'.push ops' with phase := .bounded } ∧
      ∀ v, v.wires = w.program.width → v.amplitudes.size = 2 ^ w.program.width →
        ∃ u, Leads ops v u ∧ Leads ops' v u

/-- A boundary phase that was added had sound controls wherever there were planes. -/
theorem guarded_of_applyBoundaries (hs : w.plan.Seated) {w' : Walk R} {u : Unit}
    (h : applyBoundaries.outcome w = (.ok u, w')) : w.plan.Guarded := by
  intro c hc hne
  obtain ⟨plane, hplane, ops, hblock⟩ := exists_block (blocks_of_applyBoundaries h).2 hc hne
  have hseats := hs.controls c hc
  exact BoundaryControl.sound_of_block (hseats.suits plane) (hseats.planes plane hplane).2 hblock

section seated
variable (hs : w.plan.Seated) (hl : w.program.layout = w.plan.layout)
include hs hl

theorem within_boundaryOps (hg : w.plan.Guarded) :
    ∀ op ∈ w.plan.boundaryOps, op.Within w.program.width ∧ op.isReset = false := by
  intro op hop
  rw [Circuit.width, hl]
  exact ⟨hs.within_boundaryOps hg hop, Plan.Sound.isReset_boundaryOps hop⟩

theorem gatesOf_blockOf {i : ℕ} {p : Boundary} {c : Installed R}
    (hc : w.plan.controls[i]? = some c) (hreflects : c.control.Reflects)
    {ops : List (Operation R)} (h : w.blockOf i p = .ok ops) :
    p.dimension < w.plan.positions.length ∧
      (∀ op ∈ ops, op.Within w.program.width ∧ op.isReset = false) ∧
      gatesOf ops = (BoundaryControl.turnBack w.plan.coin w.plan.coinRegister).map
        (Gate.under (w.plan.ask c p)) := by
  obtain ⟨c', hc', hdim, hblock⟩ := blockOf_eq_ok h
  obtain rfl := Option.some.inj (hc.symm.trans hc')
  have hseats := hs.controls c (List.mem_of_getElem? hc)
  obtain ⟨hgates, hresets⟩ := BoundaryControl.gatesOf_of_block hreflects (hseats.suits p) hblock
  refine ⟨hdim, fun op hop => ⟨?_, hresets op hop⟩, hgates⟩
  rw [Circuit.width, hl]
  exact (BoundaryControl.wellFormed_block (hseats.apart p hdim) hs.coin.fits_inverse
    (hseats.suits p) hblock op hop).toWithin

/-- **Two reflections that are built** lead to the same state in either order. -/
theorem leads_of_blocks {i j : ℕ} {p q : Boundary} {c d : Installed R}
    (hc : w.plan.controls[i]? = some c) (hd : w.plan.controls[j]? = some d)
    (hreflects : c.control.Reflects) (hreflects' : d.control.Reflects)
    {ops ops' : List (Operation R)} (hops : w.blockOf i p = .ok ops)
    (hops' : w.blockOf j q = .ok ops') {v : StateVector R} (hv : v.wires = w.program.width)
    (hsize : v.amplitudes.size = 2 ^ w.program.width) :
    ∃ u, Leads (ops ++ ops') v u ∧ Leads (ops' ++ ops) v u := by
  obtain ⟨hdim, hwithin, hgates⟩ := gatesOf_blockOf hs hl hc hreflects hops
  obtain ⟨hdim', hwithin', hgates'⟩ := gatesOf_blockOf hs hl hd hreflects' hops'
  have hseats := hs.controls c (List.mem_of_getElem? hc)
  have hseats' := hs.controls d (List.mem_of_getElem? hd)
  have hboth : ∀ op ∈ ops ++ ops', op.Within w.program.width ∧ op.isReset = false :=
    fun op hop => (List.mem_append.mp hop).elim (hwithin op) (hwithin' op)
  have hboth' : ∀ op ∈ ops' ++ ops, op.Within w.program.width ∧ op.isReset = false :=
    fun op hop => hboth op (List.mem_append.mpr (List.mem_append.mp hop).symm)
  refine Simulation.leads_alike hboth hboth' (fun ψ => ?_) hv hsize
  have hperm := Plan.actAll_reflections_perm hs.coin (List.Perm.swap (d, q) (c, p) [])
    (List.forall_mem_cons.mpr ⟨⟨hreflects, hseats, hdim⟩,
      List.forall_mem_singleton.mpr ⟨hreflects', hseats', hdim'⟩⟩) ψ
  simpa only [Plan.reflections, List.flatMap_cons, List.flatMap_nil, List.append_nil, ← hgates,
    ← hgates', ← Operation.gatesOf_append] using hperm

/-- **The boundary phases of rearranged controls come to the same.** -/
theorem sameBoundaries_of_rearranged {cs : List (Installed R)}
    (h : Installed.Rearranged w.plan.controls cs) :
    w.SameBoundaries { w with plan := { w.plan with controls := cs } } := by
  set w' : Walk R := { w with plan := { w.plan with controls := cs } }
  have hs' : w'.plan.Seated := hs.rearranged h
  have hguarded : w.plan.Guarded ↔ w'.plan.Guarded := hs.guarded_iff h
  constructor
  · constructor
    · rintro ⟨t, ht⟩
      exact ⟨_, outcome_applyBoundaries_of_seated hs' hl
        (hguarded.mp (guarded_of_applyBoundaries hs ht)) (blocks_of_applyBoundaries ht).1⟩
    · rintro ⟨t, ht⟩
      exact ⟨_, outcome_applyBoundaries_of_seated hs hl
        (hguarded.mpr (guarded_of_applyBoundaries hs' ht)) (blocks_of_applyBoundaries ht).1⟩
  · intro t t' ht ht'
    have hg := guarded_of_applyBoundaries hs ht
    have hphase := (blocks_of_applyBoundaries ht).1
    rw [outcome_applyBoundaries_of_seated hs hl hg hphase] at ht
    rw [outcome_applyBoundaries_of_seated hs' hl (hguarded.mp hg) hphase] at ht'
    refine ⟨_, _, (congrArg Prod.snd ht).symm, (congrArg Prod.snd ht').symm, fun v hv hsize => ?_⟩
    refine Simulation.leads_alike (within_boundaryOps hs hl hg)
      (within_boundaryOps (w := w') hs' hl (hguarded.mp hg)) (fun ψ => ?_) hv hsize
    rw [Plan.boundaryOps_eq, Plan.boundaryOps_eq, Operation.gatesOf_append,
      Operation.gatesOf_append, Gate.actAll_append, Gate.actAll_append,
      h.actAll_blocksOf hs.coin (fun c hc => ⟨hs.controls c hc, hg c hc⟩)]
    rfl

end seated

/-- **Reflections in any order.** For a walk of any specification, whatever its program is at the
time:

* the blocks that are built for two planes under controls that are hard, permeable or absorbing lead
  from every state to the same one in either order;
* the boundary phase fails or succeeds, and leads from every state to the same one, no matter how
  the planes of each control are ordered, and how those controls are that stand between the one-way
  controls before and behind them;
* a specification that lists the planes of its controls in another order is accepted, its program
  begins alike, and its boundary phase comes to the same. -/
theorem reflections_in_any_order {spec : WalkSpec R} {w₀ : Walk R} (hbuild : build spec = .ok w₀)
    (hplan : w.plan = w₀.plan) (hlayout : w.program.layout = w₀.program.layout) :
    (∀ (i j : ℕ) (p q : Boundary) (c d : Installed R) (ops ops' : List (Operation R)),
      w.plan.controls[i]? = some c → w.plan.controls[j]? = some d →
      c.control.Reflects → d.control.Reflects →
      w.blockOf i p = .ok ops → w.blockOf j q = .ok ops' →
      ∀ v, v.wires = w.program.width → v.amplitudes.size = 2 ^ w.program.width →
        ∃ u, Leads (ops ++ ops') v u ∧ Leads (ops' ++ ops) v u) ∧
    (∀ cs, Installed.Rearranged w.plan.controls cs →
      w.SameBoundaries { w with plan := { w.plan with controls := cs } }) ∧
    ∀ cs, spec.controls.Forall₂ BoundaryControl.Replanned cs →
      ∃ w₀', build { spec with controls := cs } = .ok w₀' ∧ w₀'.program = w₀.program ∧
        w.SameBoundaries { w with plan := w₀'.plan } := by
  have hready := (build_eq_ok hbuild).1
  have hs : w.plan.Seated := hplan ▸ hready.plan.seated
  have hl : w.program.layout = w.plan.layout := by rw [hlayout, hready.layout, hplan]
  refine ⟨fun i j p q c d ops ops' hc hd hreflects hreflects' hops hops' v hv hsize =>
    leads_of_blocks hs hl hc hd hreflects hreflects' hops hops' hv hsize,
    fun cs h => sameBoundaries_of_rearranged hs hl h, fun cs hcs => ?_⟩
  obtain ⟨as, hrearranged, hbuild'⟩ := build_replanned hbuild hcs
  refine ⟨_, hbuild', rfl, ?_⟩
  rw [← hplan] at hrearranged ⊢
  exact sameBoundaries_of_rearranged hs hl hrearranged

/-- Two by two sites with walls at the upper site of both dimensions and a permeable plane at the
upper site of the first, so that all of them meet in a corner. -/
noncomputable def corner : WalkSpec ℝ where
  widths := [1, 1]
  controls := [BoundaryControl.hard.addBoundaries [⟨"1", 0, none⟩, ⟨"1", 1, none⟩],
    (BoundaryControl.permeable (.hadamard 1)).addBoundaries [⟨"1", 0, none⟩]]

/-- In a corner, where all controls act, behind the coin. -/
theorem reflections_in_any_order_corner : ∃ (w₀ w : Walk ℝ) (c d : Installed ℝ)
    (ops ops' : List (Operation ℝ)) (u : StateVector ℝ),
    build corner = .ok w₀ ∧ addCoins.outcome w₀ = (.ok (), w) ∧ w.plan = w₀.plan ∧
    w.program.layout = w₀.program.layout ∧ w.plan.controls = [c, d] ∧ c.control.Reflects ∧
    d.control.Reflects ∧ w.blockOf 0 ⟨"1", 1, none⟩ = .ok ops ∧
    w.blockOf 1 ⟨"1", 0, none⟩ = .ok ops' ∧
    Leads (ops ++ ops') (.basis 5 19) u ∧ Leads (ops' ++ ops) (.basis 5 19) u ∧
    Installed.Rearranged [c, d] [d, c.withPlanes [⟨"1", 1, none⟩, ⟨"1", 0, none⟩]] ∧
    w.SameBoundaries { w with plan := { w.plan with
      controls := [d, c.withPlanes [⟨"1", 1, none⟩, ⟨"1", 0, none⟩]] } } := by
  obtain ⟨w₀, c, d, ops, ops', hbuild, hcontrols, hwidth, hc, hd, hplanes, hops, hops'⟩ :
      ∃ (w₀ : Walk ℝ) (c d : Installed ℝ) (ops ops' : List (Operation ℝ)),
        build corner = .ok w₀ ∧ w₀.plan.controls = [c, d] ∧ w₀.program.width = 5 ∧
        c.control.permeability = .hard ∧ d.control.permeability = .permeable (.hadamard 1) ∧
        c.control.boundaries = [⟨"1", 0, none⟩, ⟨"1", 1, none⟩] ∧
        w₀.blockOf 0 ⟨"1", 1, none⟩ = .ok ops ∧ w₀.blockOf 1 ⟨"1", 0, none⟩ = .ok ops' :=
    ⟨_, _, _, _, _, rfl, rfl, rfl, rfl, rfl, rfl, rfl, rfl⟩
  have hc' : c.control.Reflects := fun bits => by rw [hc]; nofun
  have hd' : d.control.Reflects := fun bits => by rw [hd]; nofun
  have hperm : c.control.boundaries.Perm [⟨"1", 1, none⟩, ⟨"1", 0, none⟩] := by
    rw [hplanes]
    exact .swap _ _ _
  have hrearranged : Installed.Rearranged [c, d]
      [d, c.withPlanes [⟨"1", 1, none⟩, ⟨"1", 0, none⟩]] :=
    .trans (.planes hperm (.refl [d])) (.swap [] hc' hd')
  set w : Walk ℝ := { w₀.push w₀.plan.coinOps with phase := .coined }
  have hcoins : addCoins.outcome w₀ = (.ok (), w) :=
    outcome_addCoins (build_eq_ok hbuild).1 (fresh_of_build hbuild).1
  have hcontrols : w.plan.controls = [c, d] := hcontrols
  have hsize : (StateVector.basis 5 19 : StateVector ℝ).amplitudes.size = 2 ^ 5 := by
    simp [StateVector.basis]
  obtain ⟨hblocks, hphase, -⟩ := reflections_in_any_order (w := w) hbuild rfl rfl
  obtain ⟨u, hleads, hleads'⟩ := hblocks 0 1 ⟨"1", 1, none⟩ ⟨"1", 0, none⟩ c d ops ops'
    (by rw [hcontrols]; rfl) (by rw [hcontrols]; rfl) hc' hd' hops hops' (.basis 5 19)
    hwidth.symm (hwidth ▸ hsize)
  refine ⟨w₀, w, c, d, ops, ops', u, hbuild, hcoins, rfl, rfl, hcontrols, hc', hd', hops, hops',
    hleads, hleads', hrearranged, hphase _ ?_⟩
  rwa [hcontrols]

end Walk

/-! ### Around a one-way control -/

namespace Gate

/-- A flip, or a change of the sign of ones. -/
def Moves (g : Gate ℝ) : Prop :=
  g.IsFlip ∨ g.transform ≠ .flip ∧ g.transform.matrix = ⟨1, 0, 0, -1⟩

/-- Where the amplitude of a basis state was before a gate that moves amplitudes. -/
def origin (g : Gate R) (i : ℕ) : ℕ :=
  match g.transform with
  | .flip => if Met g.controls i.testBit then i ^^^ 2 ^ g.target else i
  | _ => i

theorem act_ne_zero_iff {g : Gate ℝ} (h : g.Moves) (ψ : Wave ℝ) (i : ℕ) :
    g.act ψ i.testBit ≠ 0 ↔ ψ (g.origin i).testBit ≠ 0 := by
  rcases h with hflip | ⟨hsign, hmatrix⟩
  · have hbits : (g.origin i).testBit = g.send i.testBit := by
      unfold origin send
      rw [hflip.flip]
      dsimp only
      split_ifs
      · funext q
        rw [Nat.testBit_xor, Nat.testBit_two_pow, Function.update_apply]
        by_cases hq : g.target = q
        · simp [hq]
        · simp [hq, Ne.symm hq]
      · rfl
    rw [act_flip hflip ψ.flipExact_real, hbits]
  · have hstays : g.origin i = i := by
      unfold origin
      cases ht : g.transform with
      | flip => exact absurd ht hsign
      | _ => rfl
    rw [hstays, act, hmatrix]
    split_ifs <;> simp

/-- Where the amplitude of a basis state was before several gates. -/
def firstOrigin (gs : List (Gate R)) (i : ℕ) : ℕ := gs.foldr origin i

theorem actAll_ne_zero_iff : ∀ {gs : List (Gate ℝ)}, (∀ g ∈ gs, g.Moves) → ∀ (ψ : Wave ℝ) (i : ℕ),
    actAll gs ψ i.testBit ≠ 0 ↔ ψ (firstOrigin gs i).testBit ≠ 0
  | [], _, _, _ => Iff.rfl
  | g :: gs, h, ψ, i => by
    rw [actAll_cons, actAll_ne_zero_iff fun g' hg' => h g' (by simp [hg'])]
    exact act_ne_zero_iff (h g (by simp)) ψ _

/-- A basis state goes to one basis state, up to a sign. -/
theorem actAll_basis_ne_zero_iff {gs : List (Gate ℝ)} (h : ∀ g ∈ gs, g.Moves) (i j : ℕ) :
    actAll gs (Wave.basis i.testBit) j.testBit ≠ 0 ↔ firstOrigin gs j = i := by
  rw [actAll_ne_zero_iff h]
  constructor
  · intro hne
    exact Nat.eq_of_testBit_eq (congrFun (Wave.supported_basis (P := (· = i.testBit)) rfl _ hne))
  · rintro rfl
    rw [Wave.basis, if_pos rfl]
    exact fun e => one_ne_zero (congrArg Amplitude.re e)

end Gate

namespace Walk

/-- A boundary phase whose gates move amplitudes takes a basis state to one basis state. -/
theorem exists_leads_of_moves {w : Walk ℝ} (hs : w.plan.Seated)
    (hl : w.program.layout = w.plan.layout) (hg : w.plan.Guarded)
    (hmoves : ∀ g ∈ gatesOf w.plan.boundaryOps, g.Moves) {i : ℕ} (hi : i < 2 ^ w.program.width) :
    ∃ u, Leads w.plan.boundaryOps (.basis w.program.width i) u ∧ ∀ j < 2 ^ w.program.width,
      (u.amplitude j ≠ 0 ↔ Gate.firstOrigin (gatesOf w.plan.boundaryOps) j = i) := by
  obtain ⟨u, hleads, hwires, hu⟩ :=
    Simulation.leads_of_shows (StateVector.shows_basis hi) (within_boundaryOps hs hl hg)
  have hwires : u.wires = w.program.width := hwires
  refine ⟨u, hleads, fun j hj => ?_⟩
  rw [hu.amplitude j (hwires ▸ hj)]
  exact Gate.actAll_basis_ne_zero_iff hmoves i j

/-- Four sites with a wall at one, a valve of one wire at one, and a wall at two. The coin only
changes signs. -/
noncomputable def wallsAroundValve : WalkSpec ℝ where
  widths := [2]
  initial := some ["01"]
  coin := .su2
  params := ⟨[("theta", .scalar 0), ("xi", .scalar 0), ("zeta", .scalar 0)], by decide⟩
  controls := [BoundaryControl.hard.addBoundaries [⟨"01", 0, none⟩],
    (BoundaryControl.ofPermeability (.oneWay 1)).addBoundaries [⟨"01", 0, none⟩],
    BoundaryControl.hard.addBoundaries [⟨"10", 0, none⟩]]

/-- What this coin does to its wire when it is taken back. -/
noncomputable def signChange : Transform ℝ := .unitary (Operator.su2Matrix 0 0 0).adjoint

theorem matrix_signChange : signChange.matrix = ⟨1, 0, 0, -1⟩ := by
  rw [signChange, Transform.matrix, Operator.su2Matrix_zero, GateMatrix.adjoint]
  congr 1 <;> ext <;> simp

theorem moves_of_transforms {gs : List (Gate ℝ)} {ts : List (Transform ℝ)}
    (hgs : gs.map Gate.transform = ts) (hts : ∀ t ∈ ts, t = signChange ∨ t = .flip)
    (hapart : ∀ g ∈ gs, ∀ c ∈ g.controls, c.wire ≠ g.target) : ∀ g ∈ gs, g.Moves := by
  intro g hg
  rcases hts _ (hgs ▸ List.mem_map_of_mem hg) with he | he
  · exact .inr ⟨by rw [he]; nofun, he ▸ matrix_signChange⟩
  · exact .inl ⟨he, hapart g hg⟩

theorem sound_wallsAroundValve : ∀ c ∈ wallsAroundValve.controls, c.Sound := by
  have hone : BoundaryControl.oneWay 1 =
      .ok (BoundaryControl.ofPermeability (.oneWay 1) : BoundaryControl ℝ) := rfl
  simp only [wallsAroundValve, List.forall_mem_cons]
  exact ⟨BoundaryControl.sound_hard.addBoundaries _,
    (BoundaryControl.sound_oneWay hone).addBoundaries _,
    BoundaryControl.sound_hard.addBoundaries _, nofun⟩

/-- **Two walls with a one-way control between them cannot be exchanged.** A walker that the first
wall turns back before the valve finds it is recorded as one that came down, and as one that came up
if that wall acts behind the valve. -/
theorem walls_around_valve_not_exchangeable : ∃ (w₀ w : Walk ℝ) (a v b : Installed ℝ),
    build wallsAroundValve = .ok w₀ ∧ addCoins.outcome w₀ = (.ok (), w) ∧
    w.plan.controls = [a, v, b] ∧ a.control.Reflects ∧ b.control.Reflects ∧
    let w' : Walk ℝ := { w with plan := { w.plan with controls := [b, v, a] } }
    ∃ ops ops' u u',
      applyBoundaries.outcome w = (.ok (), { w.push ops with phase := .bounded }) ∧
      applyBoundaries.outcome w' = (.ok (), { w'.push ops' with phase := .bounded }) ∧
      Leads ops (.basis 6 1) u ∧ Leads ops' (.basis 6 1) u' ∧
      u.amplitude 25 ≠ 0 ∧ u'.amplitude 25 = 0 := by
  obtain ⟨w₀, a, v, b, hbuild, hwidth, hcontrols, ha, hb, htransforms, htransforms', hapart,
      hapart', horigin, horigin'⟩ :
      ∃ (w₀ : Walk ℝ) (a v b : Installed ℝ), build wallsAroundValve = .ok w₀ ∧
        w₀.program.width = 6 ∧ w₀.plan.controls = [a, v, b] ∧
        a.control.permeability = .hard ∧ b.control.permeability = .hard ∧
        (gatesOf w₀.plan.boundaryOps).map Gate.transform =
          [signChange, .flip, signChange, .flip, .flip, .flip, .flip, .flip, signChange, .flip] ∧
        (gatesOf { w₀.plan with controls := [b, v, a] }.boundaryOps).map Gate.transform =
          [signChange, .flip, signChange, .flip, .flip, .flip, .flip, .flip, signChange, .flip] ∧
        (∀ g ∈ gatesOf w₀.plan.boundaryOps, ∀ c ∈ g.controls, c.wire ≠ g.target) ∧
        (∀ g ∈ gatesOf { w₀.plan with controls := [b, v, a] }.boundaryOps,
          ∀ c ∈ g.controls, c.wire ≠ g.target) ∧
        Gate.firstOrigin (gatesOf w₀.plan.boundaryOps) 25 = 1 ∧
        Gate.firstOrigin (gatesOf { w₀.plan with controls := [b, v, a] }.boundaryOps) 25 ≠ 1 :=
    ⟨_, _, _, _, rfl, rfl, rfl, rfl, rfl, rfl, rfl, by decide, by decide, rfl, by decide⟩
  have hsigns : ∀ t ∈ [signChange, .flip, signChange, .flip, .flip, .flip, .flip, .flip,
      signChange, .flip], t = signChange ∨ t = .flip := by simp
  have hready := (build_eq_ok hbuild).1
  have hmem : ∀ c ∈ [b, v, a], c ∈ w₀.plan.controls := by
    rw [hcontrols]
    simp
  set w : Walk ℝ := { w₀.push w₀.plan.coinOps with phase := .coined }
  set w' : Walk ℝ := { w with plan := { w.plan with controls := [b, v, a] } }
  have hs : w.plan.Seated := hready.plan.seated
  have hs' : w'.plan.Seated := hs.withControls fun c hc => hs.controls c (hmem c hc)
  have hsound : ∀ c ∈ w.plan.controls, c.control.Sound :=
    hready.plan.of_controls sound_wallsAroundValve
  have hg : w.plan.Guarded := .of_sound hsound
  have hg' : w'.plan.Guarded := .of_sound fun c hc => hsound c (hmem c hc)
  have hmoves := moves_of_transforms htransforms hsigns hapart
  have hmoves' := moves_of_transforms htransforms' hsigns hapart'
  have hlt : ∀ i < 2 ^ 6, i < 2 ^ w₀.program.width := fun i hi => hwidth ▸ hi
  obtain ⟨u, hleads, hu⟩ :=
    exists_leads_of_moves hs hready.layout hg hmoves (hlt 1 (by decide))
  obtain ⟨u', hleads', hu'⟩ :=
    exists_leads_of_moves hs' hready.layout hg' hmoves' (hlt 1 (by decide))
  have hsix : w.program.width = 6 := hwidth
  have hsix' : w'.program.width = 6 := hwidth
  rw [hsix] at hleads
  rw [hsix'] at hleads'
  refine ⟨w₀, w, a, v, b, hbuild, outcome_addCoins hready (fresh_of_build hbuild).1, hcontrols,
    fun bits => by rw [ha]; nofun, fun bits => by rw [hb]; nofun, _, _, u, u',
    outcome_applyBoundaries_of_seated hs hready.layout hg rfl,
    outcome_applyBoundaries_of_seated hs' hready.layout hg' rfl, hleads, hleads',
    (hu 25 (hlt 25 (by decide))).mpr horigin, ?_⟩
  exact not_not.mp (mt (hu' 25 (hlt 25 (by decide))).mp horigin')

end Walk

end LatticeWalk
