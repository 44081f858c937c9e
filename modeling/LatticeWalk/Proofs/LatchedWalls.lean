import LatticeWalk.Proofs.Counterpart
import LatticeWalk.Proofs.Start

/-! # Latches in hard walls

What becomes of the plan of a specification when latches are put into some of its hard walls. The
registers of the new plan are those of the old one, in the same order, with the latches in between.

* `WalkSpec.latched`: the specification with latches in hard walls.
* `Plan.latchesOver`: the latches that were put in.
* `OffLatches`, `wireOff`: the wires of no latch, and these in order.
* `Installed.Kin.counterpart`: packed registers stand on the same wires, counted without latches.
* `WalkSpec.counterpart`: the plans of the two specifications. -/

namespace LatticeWalk

open Operator (controlsOn)

variable {R : Type}

/-- A latch for a hard wall: its wires, the pattern that keeps the wall closed, and what else an
absorbing control says. -/
structure Latch where
  wires : ℕ
  state : String
  resets : ℕ
  label : Option String
  pos : 0 < wires
  pattern : IsPattern state wires

/-- The wall with a latch, if it is hard. -/
def BoundaryControl.latched (c : BoundaryControl R) (latch : Option Latch) : BoundaryControl R :=
  match c.permeability, latch with
  | .hard, some l => ⟨.absorbing l.wires, l.state, c.boundaries, l.resets, l.label⟩
  | _, _ => c

theorem BoundaryControl.latched_of_hard {c : BoundaryControl R} (h : c.permeability = .hard)
    (l : Latch) : c.latched (some l) =
      ⟨.absorbing l.wires, l.state, c.boundaries, l.resets, l.label⟩ := by
  unfold latched
  rw [h]

theorem BoundaryControl.latched_eq_self {c : BoundaryControl R} {latch : Option Latch}
    (h : c.permeability = .hard → latch = none) : c.latched latch = c := by
  unfold latched
  split
  next hhard => cases h hhard
  next => rfl

/-- The specification with latches in its hard walls, given by their places among the controls. -/
def WalkSpec.latched (spec : WalkSpec R) (latches : ℕ → Option Latch) : WalkSpec R :=
  { spec with controls := spec.controls.mapIdx fun j c => c.latched (latches j) }

/-- The latches where the specification has hard walls, with the patterns that keep these closed. -/
def Plan.latchesOver (plan : Plan R) (spec : WalkSpec R) : List (Register × String) :=
  (spec.controls.zip plan.controls).filterMap fun c =>
    match c.1.permeability with
    | .hard => c.2.latch?
    | _ => none

/-! ### Wires of no latch -/

/-- The wire belongs to none of the latches. -/
def OffLatches (ps : List (Register × String)) (q : ℕ) : Prop := ∀ p ∈ ps, q ∉ p.1.wires

instance (ps : List (Register × String)) : DecidablePred (OffLatches ps) := fun q => by
  unfold OffLatches; infer_instance

/-- The wires that are left when the latches are dropped, in order. -/
noncomputable def wireOff (ps : List (Register × String)) : ℕ → ℕ := Nat.nth (OffLatches ps)

/-- Every latch carries the pattern that keeps its wall closed. -/
def LatchesHold (ps : List (Register × String)) (b : ℕ → Bool) : Prop :=
  ∀ p ∈ ps, p.1.read b = Pattern.value p.2

instance (ps : List (Register × String)) (b : ℕ → Bool) : Decidable (LatchesHold ps b) := by
  unfold LatchesHold; infer_instance

/-- The controls that ask whether all latches are set. -/
def askLatches (ps : List (Register × String)) : List Control :=
  ps.flatMap fun p => controlsOn p.1.wires (Pattern.wireBits p.2)

theorem met_askLatches {ps : List (Register × String)} (h : ∀ p ∈ ps, IsPattern p.2 p.1.width)
    (b : ℕ → Bool) : Met (askLatches ps) b ↔ LatchesHold ps b := by
  have hflat : Met (askLatches ps) b ↔
      ∀ p ∈ ps, Met (controlsOn p.1.wires (Pattern.wireBits p.2)) b := by
    simp only [Met, askLatches, List.forall_mem_flatMap]
  rw [hflat]
  exact forall₂_congr fun p hp => Operator.met_controlsOn (h p hp)

theorem Operator.exists_controlsOn {r : Register} {s : String} (h : IsPattern s r.width) {q : ℕ}
    (hq : q ∈ r.wires) : ∃ c ∈ controlsOn r.wires (Pattern.wireBits s), c.wire = q := by
  have hlen : r.wires.length ≤ (Pattern.wireBits s).length := by
    rw [Register.length_wires, Pattern.length_wireBits_of h]
  have hzip : q ∈ (r.wires.zip (Pattern.wireBits s)).map Prod.fst := by
    rwa [List.map_fst_zip hlen]
  obtain ⟨p, hp, rfl⟩ := List.mem_map.mp hzip
  exact ⟨⟨p.1, p.2⟩, List.mem_map.mpr ⟨p, hp, rfl⟩, rfl⟩

/-! ### Packed registers without the latches -/

section count
variable {ps : List (Register × String)}

/-- **A register on no latch** stands where it would stand without the latches before it. -/
theorem Register.renamed_of_count {r r' : Register} (hoff : ∀ q ∈ r'.wires, OffLatches ps q)
    (hwidth : r'.width = r.width) (hcount : Nat.count (OffLatches ps) r'.start = r.start) :
    r.Renamed (wireOff ps) r' ∧ Nat.count (OffLatches ps) r'.stop = r.stop := by
  have hmem : ∀ i < r'.width, r'.start + i ∈ r'.wires := fun i hi =>
    mem_wires.mpr ⟨by omega, by rw [stop]; omega⟩
  have hcounts : ∀ i ≤ r'.width, Nat.count (OffLatches ps) (r'.start + i) = r.start + i := by
    intro i hi
    rw [Nat.count_add, hcount, Nat.count_of_forall fun k hk => hoff _ (hmem k (by omega))]
  refine ⟨⟨hwidth, fun i hi => ?_⟩, ?_⟩
  · have hi' : i < r'.width := hwidth ▸ hi
    calc r'.wire i = wireOff ps (Nat.count (OffLatches ps) (r'.wire i)) :=
          (Nat.nth_count (hoff _ (hmem i hi'))).symm
      _ = wireOff ps (r.wire i) := congrArg _ (hcounts i hi'.le)
  · rw [stop, stop, hcounts _ le_rfl, hwidth]

theorem Register.count_of_latch {r : Register} (hon : ∀ q ∈ r.wires, ¬ OffLatches ps q) :
    Nat.count (OffLatches ps) r.stop = Nat.count (OffLatches ps) r.start := by
  have hnone : Nat.count (fun k => OffLatches ps (r.start + k)) r.width = 0 :=
    Nat.count_of_forall_not fun k hk => hon _ (mem_wires.mpr ⟨by omega, by rw [stop]; omega⟩)
  rw [stop, Nat.count_add, hnone, Nat.add_zero]

theorem Register.renamed_option {o o' : Option Register} {s s' : ℕ}
    (hwidth : o'.map width = o.map width) (hp : PackedFrom s o.toList)
    (hp' : PackedFrom s' o'.toList) (hoff : ∀ r ∈ o'.toList, ∀ q ∈ r.wires, OffLatches ps q)
    (hcount : Nat.count (OffLatches ps) s' = s) :
    Option.Rel (Renamed (wireOff ps)) o o' ∧
      Nat.count (OffLatches ps) (s' + (o'.toList.map width).sum) =
        s + (o.toList.map width).sum := by
  cases o with
  | none =>
    rw [Option.map_none, Option.map_eq_none_iff] at hwidth
    subst hwidth
    exact ⟨.none, by simpa using hcount⟩
  | some r =>
    rw [Option.map_some, Option.map_eq_some_iff] at hwidth
    obtain ⟨r', rfl, hwidth⟩ := hwidth
    obtain ⟨rfl, -⟩ := hp
    obtain ⟨rfl, -⟩ := hp'
    obtain ⟨hrenamed, hstop⟩ := renamed_of_count (hoff r' (by simp)) hwidth hcount
    exact ⟨.some hrenamed, by simpa [stop] using hstop⟩

/-- A control of the old plan and that of the new one: the same, apart from all latches, or a hard
wall and the wall with a latch. -/
inductive Installed.Kin (ps : List (Register × String)) (c c' : Installed R) : Prop
  | kept (control : c'.control = c.control)
      (off : ∀ r ∈ c'.registers, ∀ q ∈ r.wires, OffLatches ps q)
  | shut (l : Latch) (hard : c.control.permeability = .hard)
      (control : c'.control = c.control.latched (some l))
      (latch : ∀ p, c'.latch? = some p → p ∈ ps)

namespace Installed

/-- **A control and its kin are counterparts**, if their registers stand on the same wires, counted
without latches, and then so do the registers behind them. -/
theorem Kin.counterpart {c c' : Installed R} (h : c.Kin ps c') (hw : c.Wired) (hw' : c'.Wired)
    {s s' : ℕ} (hp : Register.PackedFrom s c.registers)
    (hp' : Register.PackedFrom s' c'.registers) (hcount : Nat.count (OffLatches ps) s' = s) :
    c.Counterpart (wireOff ps) (askLatches ps) c' ∧
      Nat.count (OffLatches ps) (s' + (c'.registers.map Register.width).sum) =
        s + (c.registers.map Register.width).sum := by
  cases h with
  | kept control off =>
    have hregister : c'.register.map Register.width = c.register.map Register.width := by
      rw [hw'.register, hw.register, control]
    have hancilla : c'.ancilla.map Register.width = c.ancilla.map Register.width := by
      rw [hw'.ancilla, hw.ancilla, control]
    obtain ⟨hp1, hp2⟩ := Register.packedFrom_append.mp hp
    obtain ⟨hp1', hp2'⟩ := Register.packedFrom_append.mp hp'
    obtain ⟨hrel, hcount1⟩ := Register.renamed_option hregister hp1 hp1'
      (fun r hr => off r (List.mem_append_left _ hr)) hcount
    obtain ⟨hrel', hcount2⟩ := Register.renamed_option hancilla hp2 hp2'
      (fun r hr => off r (List.mem_append_right _ hr)) hcount1
    refine ⟨.kept control hrel hrel', ?_⟩
    simpa only [registers, List.map_append, List.sum_append, ← Nat.add_assoc] using hcount2
  | shut l hard control latch =>
    rw [BoundaryControl.latched_of_hard hard] at control
    have habsorbing : c'.control.permeability = .absorbing l.wires := by rw [control]
    have hstate : c'.control.state = l.state := by rw [control]
    have hboundaries : c'.control.boundaries = c.control.boundaries := by rw [control]
    obtain ⟨hnone, hnone'⟩ := hw.eq_none_of_hard hard
    obtain ⟨⟨r, hr, hwidth⟩, hancilla⟩ := hw'.eq_some_of_absorbing habsorbing l.pos
    have hmem : (r, l.state) ∈ ps :=
      latch _ (latch?_eq_some.mpr ⟨⟨l.wires, habsorbing⟩, hr, hstate⟩)
    have hpattern : IsPattern c'.control.state r.width := by
      rw [hstate, hwidth]
      exact l.pattern
    have hasked : controlsOn r.wires (Pattern.wireBits c'.control.state) ⊆ askLatches ps := by
      rw [hstate]
      exact fun d hd => List.mem_flatMap.mpr ⟨(r, l.state), hmem, hd⟩
    refine ⟨.shut l.wires r hard habsorbing hboundaries ⟨hnone, hnone'⟩ ⟨hr, hancilla⟩ hpattern
      hasked, ?_⟩
    have hregisters : c.registers = [] := by simp [registers, hnone, hnone']
    have hregisters' : c'.registers = [r] := by simp [registers, hr, hancilla]
    rw [hregisters'] at hp' ⊢
    obtain ⟨rfl, -⟩ := hp'
    have hsame : Nat.count (OffLatches ps) r.stop = Nat.count (OffLatches ps) r.start :=
      Register.count_of_latch fun q hq hoff => hoff _ hmem hq
    rw [hregisters]
    simpa [Register.stop, hcount] using hsame

/-- **All controls and their kin are counterparts.** -/
theorem counterparts_of_kin {cs cs' : List (Installed R)} (h : cs.Forall₂ (Kin ps) cs')
    (hw : ∀ c ∈ cs, c.Wired) (hw' : ∀ c ∈ cs', c.Wired) {s s' : ℕ}
    (hp : Register.PackedFrom s (cs.flatMap registers))
    (hp' : Register.PackedFrom s' (cs'.flatMap registers))
    (hcount : Nat.count (OffLatches ps) s' = s) :
    cs.Forall₂ (Counterpart (wireOff ps) (askLatches ps)) cs' ∧
      Nat.count (OffLatches ps) (s' + ((cs'.flatMap registers).map Register.width).sum) =
        s + ((cs.flatMap registers).map Register.width).sum := by
  induction h generalizing s s' with
  | nil => exact ⟨.nil, by simpa using hcount⟩
  | @cons c c' cs cs' hc _ ih =>
    rw [List.forall_mem_cons] at hw hw'
    rw [List.flatMap_cons, Register.packedFrom_append] at hp hp'
    obtain ⟨hfirst, hcount1⟩ := hc.counterpart hw.1 hw'.1 hp.1 hp'.1 hcount
    obtain ⟨hrest, hcount2⟩ := ih hw.2 hw'.2 hp.2 hp'.2 hcount1
    refine ⟨.cons hfirst hrest, ?_⟩
    simpa only [List.flatMap_cons, List.map_append, List.sum_append, ← Nat.add_assoc] using hcount2

end Installed

end count

/-! ### The two plans -/

theorem Plan.mem_latchesOver {plan : Plan R} {spec : WalkSpec R} {p : Register × String} :
    p ∈ plan.latchesOver spec ↔ ∃ (j : ℕ) (c : BoundaryControl R) (i : Installed R),
      spec.controls[j]? = some c ∧ plan.controls[j]? = some i ∧ c.permeability = .hard ∧
        i.latch? = some p := by
  have hzip : ∀ c : BoundaryControl R × Installed R, c ∈ spec.controls.zip plan.controls ↔
      ∃ j : ℕ, spec.controls[j]? = some c.1 ∧ plan.controls[j]? = some c.2 := fun c => by
    simp only [List.mem_iff_getElem?, List.getElem?_zip_eq_some]
  rw [latchesOver, List.mem_filterMap]
  constructor
  · rintro ⟨c, hc, hp⟩
    obtain ⟨j, hj, hj'⟩ := (hzip c).mp hc
    cases hhard : c.1.permeability with
    | hard =>
      rw [hhard] at hp
      exact ⟨j, c.1, c.2, hj, hj', hhard, hp⟩
    | _ =>
      rw [hhard] at hp
      cases hp
  · rintro ⟨j, c, i, hc, hi, hhard, hp⟩
    refine ⟨(c, i), (hzip (c, i)).mpr ⟨j, hc, hi⟩, ?_⟩
    rw [hhard]
    exact hp

namespace WalkSpec

variable [Scalar R] {spec : WalkSpec R} {latches : ℕ → Option Latch} {plan plan' : Plan R}

omit [Scalar R] in
theorem getElem?_latched (spec : WalkSpec R) (latches : ℕ → Option Latch) (j : ℕ) :
    (spec.latched latches).controls[j]? = (spec.controls[j]?).map (·.latched (latches j)) :=
  List.getElem?_mapIdx

omit [Scalar R] in
/-- A control is one of the old ones or a wall with a latch. -/
theorem mem_latched {c' : BoundaryControl R} (hc' : c' ∈ (spec.latched latches).controls) :
    c' ∈ spec.controls ∨ ∃ (c : BoundaryControl R) (l : Latch),
      c' = ⟨.absorbing l.wires, l.state, c.boundaries, l.resets, l.label⟩ := by
  obtain ⟨j, hj⟩ := List.mem_iff_getElem?.mp hc'
  rw [getElem?_latched, Option.map_eq_some_iff] at hj
  obtain ⟨c, hj, rfl⟩ := hj
  by_cases hlatch : c.permeability = .hard → latches j = none
  · rw [BoundaryControl.latched_eq_self hlatch]
    exact .inl (List.mem_of_getElem? hj)
  · obtain ⟨hhard, hne⟩ := Classical.not_imp.mp hlatch
    obtain ⟨l, hl⟩ := Option.ne_none_iff_exists'.mp hne
    rw [hl, BoundaryControl.latched_of_hard hhard]
    exact .inr ⟨c, l, rfl⟩

omit [Scalar R] in
theorem states_latched (latches : ℕ → Option Latch)
    (h : ∀ c ∈ spec.controls, IsPattern c.state c.controlWidth) :
    ∀ c ∈ (spec.latched latches).controls, IsPattern c.state c.controlWidth := by
  intro c hc
  rcases mem_latched hc with hc | ⟨c, l, rfl⟩
  · exact h c hc
  · exact l.pattern

theorem derived_latched
    (h : ∀ c ∈ spec.controls, ∀ op, c.permeability = .permeable op → op.Derived) :
    ∀ c ∈ (spec.latched latches).controls, ∀ op, c.permeability = .permeable op → op.Derived := by
  intro c hc op hop
  rcases mem_latched hc with hc | ⟨c, l, rfl⟩
  · exact h c hc op hop
  · cases hop

section kin
variable (h : plan.Sound spec) (h' : plan'.Sound (spec.latched latches))
include h h'

/-- The registers of a control are apart from the latches of all others. -/
theorem kin {j : ℕ} {c c' : Installed R} (hc : plan.controls[j]? = some c)
    (hc' : plan'.controls[j]? = some c') : c.Kin (plan'.latchesOver spec) c' := by
  have hspec := h.spec_of_control hc
  have hcontrol : c'.control = c.control.latched (latches j) := by
    have hspec' := h'.spec_of_control hc'
    rw [getElem?_latched, hspec] at hspec'
    exact (Option.some.inj hspec').symm
  by_cases hlatch : c.control.permeability = .hard → latches j = none
  · rw [BoundaryControl.latched_eq_self hlatch] at hcontrol
    refine .kept hcontrol fun r hr q hq p hp hqp => ?_
    obtain ⟨k, d, i, hd, hi, hhard, hip⟩ := Plan.mem_latchesOver.mp hp
    obtain ⟨⟨n, habsorbing⟩, hreg, -⟩ := Installed.latch?_eq_some.mp hip
    have hp1 : p.1 ∈ i.registers := by simp [Installed.registers, hreg]
    by_cases hjk : j = k
    · -- the control itself is not a wall with a latch
      subst hjk
      obtain rfl := Option.some.inj (hspec.symm.trans hd)
      obtain rfl := Option.some.inj (hc'.symm.trans hi)
      rw [hcontrol, hhard] at habsorbing
      cases habsorbing
    · exact h'.controls_disjoint hjk hc' hi hr hp1 hq hqp
  · obtain ⟨hhard, hne⟩ := Classical.not_imp.mp hlatch
    obtain ⟨l, hl⟩ := Option.ne_none_iff_exists'.mp hne
    refine .shut l hhard (hl ▸ hcontrol) fun p hp => ?_
    exact Plan.mem_latchesOver.mpr ⟨j, c.control, c', hspec, hc', hhard, hp⟩

theorem forall₂_kin : plan.controls.Forall₂ (Installed.Kin (plan'.latchesOver spec))
    plan'.controls := by
  have hlen : plan.controls.length = plan'.controls.length := by
    calc plan.controls.length = spec.controls.length := by rw [← h.controls, List.length_map]
      _ = (spec.latched latches).controls.length := List.length_mapIdx.symm
      _ = plan'.controls.length := by rw [← h'.controls, List.length_map]
  refine List.forall₂_iff_get.mpr ⟨hlen, fun j hj hj' => ?_⟩
  exact kin h h' (List.getElem?_eq_getElem hj) (List.getElem?_eq_getElem hj')

end kin

end WalkSpec

namespace Plan

theorem latchesOver_subset (plan : Plan R) (spec : WalkSpec R) :
    plan.latchesOver spec ⊆ plan.latches := by
  intro p hp
  obtain ⟨j, c, i, -, hi, -, hlatch⟩ := mem_latchesOver.mp hp
  exact List.mem_filterMap.mpr ⟨i, List.mem_of_getElem? hi, hlatch⟩

namespace Sound

variable [Scalar R] {plan : Plan R} {spec : WalkSpec R} (h : plan.Sound spec)
include h

theorem packed_controls :
    Register.PackedFrom plan.coinRegister.stop (plan.controls.flatMap Installed.registers) ∧
      plan.layout.width = plan.coinRegister.stop +
        ((plan.controls.flatMap Installed.registers).map Register.width).sum := by
  have hpacked := plan.layout.packed
  rw [h.registers, Register.packedFrom_append] at hpacked
  obtain ⟨-, hstart, hrest⟩ := hpacked
  refine ⟨hrest, ?_⟩
  rw [Layout.width_eq, h.registers, List.map_append, List.sum_append, List.map_cons, List.sum_cons,
    Register.stop, hstart]
  omega

theorem off_of_lt_coin {spec₀ : WalkSpec R} {q : ℕ} (hq : q < plan.coinRegister.stop) :
    OffLatches (plan.latchesOver spec₀) q := by
  intro p hp hqp
  obtain ⟨c, hc, hr⟩ := h.register_of_latches (plan.latchesOver_subset spec₀ hp)
  have hstop := h.coin_control hc hr
  have hstart := (Register.mem_wires.mp hqp).1
  omega

theorem lt_of_latchesOver {spec₀ : WalkSpec R} {p : Register × String}
    (hp : p ∈ plan.latchesOver spec₀) {q : ℕ} (hq : q ∈ p.1.wires) : q < plan.layout.width := by
  obtain ⟨c, hc, hr⟩ := h.register_of_latches (plan.latchesOver_subset spec₀ hp)
  exact (Register.mem_wires.mp hq).2.trans_le (h.stop_control hc hr)

/-- Latches carry patterns, all of which the preparation writes. -/
theorem latchesOver_marks (spec₀ : WalkSpec R)
    (hstates : ∀ c ∈ plan.controls, IsPattern c.control.state c.control.controlWidth) :
    (∀ p ∈ plan.latchesOver spec₀, IsPattern p.2 p.1.width) ∧
      LatchesHold (plan.latchesOver spec₀) plan.prepared := by
  have hmarks : ∀ p ∈ plan.latchesOver spec₀, p ∈ plan.marks := fun p hp =>
    List.mem_append_left _ (plan.latchesOver_subset spec₀ hp)
  exact ⟨fun p hp => h.isPattern_marks hstates (hmarks p hp),
    fun p hp => h.read_marks hstates (hmarks p hp)⟩

theorem infinite_off (spec₀ : WalkSpec R) :
    (Set.ofPred (OffLatches (plan.latchesOver spec₀))).Infinite := by
  refine Set.infinite_of_forall_exists_gt fun a => ⟨max a plan.layout.width + 1, ?_, by omega⟩
  intro p hp hq
  have hlt := h.lt_of_latchesOver hp hq
  omega

end Sound

end Plan

namespace WalkSpec

variable [Scalar R] {spec : WalkSpec R} {latches : ℕ → Option Latch} {plan plan' : Plan R}
  (hplan : spec.plan = .ok plan) (hplan' : (spec.latched latches).plan = .ok plan')
include hplan hplan'

/-- **The plans of the two specifications are counterparts**, and without latches the wires are as
many. -/
theorem counterpart :
    plan.Counterpart (wireOff (plan'.latchesOver spec)) (askLatches (plan'.latchesOver spec))
        plan' ∧
      Nat.count (OffLatches (plan'.latchesOver spec)) plan'.layout.width = plan.layout.width := by
  have h := plan_sound hplan
  have h' := plan_sound hplan'
  obtain ⟨hpositions, hcoin⟩ := same_front hplan hplan' rfl rfl
  obtain ⟨hpacked, hwidth⟩ := h.packed_controls
  obtain ⟨hpacked', hwidth'⟩ := h'.packed_controls
  rw [hcoin] at hpacked' hwidth'
  have hoff : ∀ q < plan.coinRegister.stop, OffLatches (plan'.latchesOver spec) q :=
    fun q hq => h'.off_of_lt_coin (hcoin ▸ hq)
  have hcount : ∀ q ≤ plan.coinRegister.stop,
      Nat.count (OffLatches (plan'.latchesOver spec)) q = q :=
    fun q hq => Nat.count_of_forall fun k hk => hoff k (by omega)
  obtain ⟨hcontrols, hcounted⟩ := Installed.counterparts_of_kin (forall₂_kin h h') h.wired
    h'.wired hpacked hpacked' (hcount _ le_rfl)
  refine ⟨⟨hpositions, hcoin, ?_, ?_, ?_, hcontrols, fun q hq => ?_⟩, ?_⟩
  · exact Except.ok.inj (h'.coin.symm.trans h.coin)
  · rw [h'.initial, h.initial]
    rfl
  · rw [h'.decoherence, h.decoherence]
    rfl
  · calc wireOff (plan'.latchesOver spec) q
        = wireOff (plan'.latchesOver spec) (Nat.count (OffLatches (plan'.latchesOver spec)) q) := by
          rw [hcount q hq.le]
      _ = q := Nat.nth_count (hoff q hq)
  · rw [hwidth', hcounted, hwidth]

/-- **Without the latches the wires of the new plan are those of the old one**, renamed. -/
theorem wires_renamed (hstates : ∀ c ∈ spec.controls, IsPattern c.state c.controlWidth) :
    Renaming (wireOff (plan'.latchesOver spec)) (askLatches (plan'.latchesOver spec))
      plan.layout.width plan'.layout.width := by
  have h' := plan_sound hplan'
  have hinfinite := h'.infinite_off spec
  have hstates' := h'.of_controls (states_latched latches hstates)
  obtain ⟨hpattern, hhold⟩ := h'.latchesOver_marks spec hstates'
  have hcount := (counterpart hplan hplan').2
  have hwire : ∀ c ∈ askLatches (plan'.latchesOver spec),
      ∃ p ∈ plan'.latchesOver spec, c.wire ∈ p.1.wires := by
    intro c hc
    obtain ⟨p, hp, hc⟩ := List.mem_flatMap.mp hc
    exact ⟨p, hp, Operator.wire_mem_of_controlsOn hc⟩
  refine
    { injective := Nat.nth_injective hinfinite, lt_iff := fun q => ?_, apart := fun c hc q hq => ?_
      wire_lt := fun c hc => ?_, covers := fun u => ?_, met := ⟨plan'.prepared, ?_⟩ }
  · have hle := Nat.count_le_iff_le_nth hinfinite (a := plan'.layout.width) (b := q)
    rw [hcount] at hle
    rw [← not_le, ← not_le, hle]
    rfl
  · obtain ⟨p, hp, hcp⟩ := hwire c hc
    rw [hq] at hcp
    exact Nat.nth_mem_of_infinite hinfinite q p hp hcp
  · obtain ⟨p, hp, hcp⟩ := hwire c hc
    exact h'.lt_of_latchesOver hp hcp
  · by_cases hu : OffLatches (plan'.latchesOver spec) u
    · exact .inl ⟨_, Nat.nth_count hu⟩
    · simp only [OffLatches, not_forall, not_not] at hu
      obtain ⟨p, hp, hup⟩ := hu
      obtain ⟨c, hc, hcu⟩ := Operator.exists_controlsOn (hpattern p hp) hup
      exact .inr ⟨c, List.mem_flatMap.mpr ⟨p, hp, hc⟩, hcu⟩
  · exact (met_askLatches hpattern _).mpr hhold

end WalkSpec

end LatticeWalk
