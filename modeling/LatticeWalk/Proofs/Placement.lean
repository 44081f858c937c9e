import LatticeWalk.Proofs.Compile
import LatticeWalk.Proofs.Keys

/-! # Where a plan puts its registers

Each register of a plan has the role that it is looked up by.

* `Plan.Placed`: registers with their roles; `WalkSpec.plan_placed` proves it of the plans that are
  made.
* `Plan.Placed.dimension?_eq_some`, `Plan.Placed.control?_eq_some`,
  `Plan.Placed.ancilla?_eq_some`: registers by their roles.
* `Plan.Placed.dimensionRegisters_eq`: the position registers stand in order of their dimensions. -/

namespace LatticeWalk

variable {R : Type}

/-! ### Allocation -/

namespace Plan

theorem allocatePositions_roles : ∀ {widths : List ℕ} {a a' : Allocator} {d : ℕ}
    {rs : List Register}, allocatePositions a d widths = .ok (rs, a') →
    ∀ (i : ℕ) (r : Register), rs[i]? = some r → r.role = .dimension (d + i)
  | [], a, a', d, rs, h => by
    cases h
    simp
  | width :: widths, a, a', d, rs, h => by
    obtain ⟨⟨r, a1⟩, h1, h⟩ := Except.bind_eq_ok.mp h
    obtain ⟨⟨rs', a2⟩, h2, h⟩ := Except.bind_eq_ok.mp h
    cases h
    obtain ⟨hr, -⟩ := Allocator.allocate_eq_ok h1
    intro i r' hr'
    cases i with
    | zero =>
      rw [List.getElem?_cons_zero, Option.some.injEq] at hr'
      rw [← hr', hr]
      rfl
    | succ i =>
      rw [allocatePositions_roles h2 i r' (by simpa using hr'), Nat.add_right_comm, Nat.add_assoc]

theorem allocateSome_role {a a' : Allocator} {name : String} {role : Role} {width : ℕ}
    {o : Option Register} (h : allocateSome a name role width = .ok (o, a')) :
    ∀ r, o = some r → r.role = role := by
  unfold allocateSome at h
  split_ifs at h
  · cases h
    exact nofun
  · obtain ⟨⟨r, a1⟩, h1, h⟩ := Except.bind_eq_ok.mp h
    cases h
    obtain ⟨hr, -⟩ := Allocator.allocate_eq_ok h1
    intro r' hr'
    obtain rfl := Option.some.inj hr'
    rw [hr]

/-- The registers of the control of an index have its roles. -/
def HasRoles (c : Installed R) (j : ℕ) : Prop :=
  (∀ r, c.register = some r → r.role = .control j) ∧ ∀ a, c.ancilla = some a → a.role = .ancilla j

theorem install_roles : ∀ {controls : List (BoundaryControl R)} {a a' : Allocator} {i : ℕ}
    {cs : List (Installed R)}, install a i controls = .ok (cs, a') →
    ∀ (j : ℕ) (c : Installed R), cs[j]? = some c → HasRoles c (i + j)
  | [], a, a', i, cs, h => by
    cases h
    simp
  | control :: controls, a, a', i, cs, h => by
    obtain ⟨⟨r, a1⟩, h1, h⟩ := Except.bind_eq_ok.mp h
    obtain ⟨⟨ancilla, a2⟩, h2, h⟩ := Except.bind_eq_ok.mp h
    obtain ⟨⟨rest, a3⟩, h3, h⟩ := Except.bind_eq_ok.mp h
    cases h
    intro j c hc
    cases j with
    | zero =>
      obtain rfl := Option.some.inj hc
      exact ⟨allocateSome_role h1, allocateSome_role h2⟩
    | succ j =>
      have hrest := install_roles h3 j c (by simpa using hc)
      rwa [Nat.add_right_comm, Nat.add_assoc] at hrest

/-- The registers of a plan have their roles. -/
structure Placed (plan : Plan R) : Prop where
  positions : ∀ (d : ℕ) (r : Register), plan.positions[d]? = some r → r.role = .dimension d
  coin : plan.coinRegister.role = .coin
  controls : ∀ (j : ℕ) (c : Installed R), plan.controls[j]? = some c → HasRoles c j

end Plan

/-- **An accepted specification has a plan with its registers in their places.** -/
theorem WalkSpec.plan_placed [Scalar R] {spec : WalkSpec R} {plan : Plan R}
    (h : spec.plan = .ok plan) : plan.Placed := by
  obtain ⟨a1, a2, a3, hmade⟩ := plan_eq_ok.mp h
  have hpositions := Plan.allocatePositions_roles hmade.positions
  have hcontrols := Plan.install_roles hmade.controls
  obtain ⟨hr, -⟩ := Allocator.allocate_eq_ok hmade.coinRegister
  refine ⟨fun d r hd => ?_, by rw [hr], fun j c hj => ?_⟩
  · simpa using hpositions d r hd
  · simpa using hcontrols j c hj

theorem Walk.plan_of_build [Scalar R] {spec : WalkSpec R} {w : Walk R} (h : build spec = .ok w) :
    spec.plan = .ok w.plan := (build_eq_ok_iff.mp h).1

/-! ### Registers by role -/

theorem Layout.find?_eq_some {l : Layout} {role : Role} {r : Register} (hr : r ∈ l.registers)
    (hrole : r.role = role) (hunique : ∀ s ∈ l.registers, s.role = role → s = r) :
    l.find? role = some r := by
  unfold find?
  cases hfind : l.registers.find? fun r => r.role == role with
  | none =>
    have hne := List.find?_eq_none.mp hfind r hr
    simp [hrole] at hne
  | some s =>
    have hs := List.find?_some hfind
    rw [hunique s (List.mem_of_find?_eq_some hfind) (by simpa using hs)]

namespace Plan.Placed

variable [Scalar R] {plan : Plan R} {spec : WalkSpec R} (hp : plan.Placed) (h : plan.Sound spec)
include hp h

omit hp in
theorem mem_registers {r : Register} : r ∈ plan.layout.registers ↔
    (∃ d : ℕ, plan.positions[d]? = some r) ∨ r = plan.coinRegister ∨
      ∃ (j : ℕ) (c : Installed R), plan.controls[j]? = some c ∧ r ∈ c.registers := by
  have hcontrols : (∃ c ∈ plan.controls, r ∈ c.registers) ↔
      ∃ (j : ℕ) (c : Installed R), plan.controls[j]? = some c ∧ r ∈ c.registers := by
    simp only [List.mem_iff_getElem?]
    grind
  rw [h.registers, List.mem_append, List.mem_cons, List.mem_flatMap, hcontrols,
    List.mem_iff_getElem?]

theorem eq_of_role {r : Register} (hr : r ∈ plan.layout.registers) :
    (∀ d, r.role = .dimension d → plan.positions[d]? = some r) ∧
      ∀ j, r.role = .control j → ∃ c, plan.controls[j]? = some c ∧ c.register = some r := by
  rcases (mem_registers h).mp hr with ⟨d, hd⟩ | rfl | ⟨j, c, hc, hr⟩
  · rw [hp.positions d r hd]
    refine ⟨fun e he => ?_, by simp⟩
    rw [Role.dimension.injEq] at he
    rwa [← he]
  · rw [hp.coin]
    exact ⟨by simp, by simp⟩
  · obtain ⟨hregister, hancilla⟩ := hp.controls j c hc
    simp only [Installed.registers, List.mem_append, Option.mem_toList] at hr
    rcases hr with hr | hr
    · rw [hregister r hr]
      refine ⟨by simp, fun i hi => ?_⟩
      rw [Role.control.injEq] at hi
      exact ⟨c, hi ▸ hc, hr⟩
    · rw [hancilla r hr]
      exact ⟨by simp, by simp⟩

theorem dimension?_eq_some {d : ℕ} {r : Register} (hd : plan.positions[d]? = some r) :
    plan.layout.dimension? d = some r := by
  refine Layout.find?_eq_some ((mem_registers h).mpr (.inl ⟨d, hd⟩)) (hp.positions d r hd) ?_
  intro s hs hrole
  exact Option.some.inj (((hp.eq_of_role h hs).1 d hrole).symm.trans hd)

theorem control?_eq_some {j : ℕ} {c : Installed R} (hc : plan.controls[j]? = some c)
    {r : Register} (hr : c.register = some r) : plan.layout.find? (.control j) = some r := by
  have hmem : r ∈ c.registers := by simp [Installed.registers, hr]
  refine Layout.find?_eq_some ((mem_registers h).mpr (.inr (.inr ⟨j, c, hc, hmem⟩)))
    ((hp.controls j c hc).1 r hr) ?_
  intro s hs hrole
  obtain ⟨c', hc', hs'⟩ := (hp.eq_of_role h hs).2 j hrole
  obtain rfl := Option.some.inj (hc.symm.trans hc')
  exact Option.some.inj (hs'.symm.trans hr)

theorem ancilla?_eq_some {j : ℕ} {c : Installed R} (hc : plan.controls[j]? = some c)
    {a : Register} (ha : c.ancilla = some a) : plan.layout.find? (.ancilla j) = some a := by
  have hmem : a ∈ c.registers := by simp [Installed.registers, ha]
  refine Layout.find?_eq_some ((mem_registers h).mpr (.inr (.inr ⟨j, c, hc, hmem⟩)))
    ((hp.controls j c hc).2 a ha) ?_
  intro s hs hrole
  rcases (mem_registers h).mp hs with ⟨d, hd⟩ | rfl | ⟨k, c', hk, hs⟩
  · rw [hp.positions d s hd] at hrole
    cases hrole
  · rw [hp.coin] at hrole
    cases hrole
  · obtain ⟨hregister, hancilla⟩ := hp.controls k c' hk
    simp only [Installed.registers, List.mem_append, Option.mem_toList] at hs
    rcases hs with hs | hs
    · rw [hregister s hs] at hrole
      cases hrole
    · rw [hancilla s hs, Role.ancilla.injEq] at hrole
      obtain rfl := Option.some.inj (hc.symm.trans (hrole ▸ hk))
      exact Option.some.inj (hs.symm.trans ha)

/-! ### The order of the dimensions -/

omit [Scalar R] hp h in
theorem filterMap_dimensionOf {d : ℕ} {rs : List Register}
    (h : ∀ (i : ℕ) (r : Register), rs[i]? = some r → r.role = .dimension (d + i)) :
    (rs.filterMap fun r => (Layout.dimensionOf r).map fun d => (d, r)) =
      (rs.zipIdx d).map Prod.swap := by
  induction rs generalizing d with
  | nil => rfl
  | cons r rs ih =>
    have hr : Layout.dimensionOf r = some d := by rw [Layout.dimensionOf, h 0 r rfl]; rfl
    have hroles : ∀ (i : ℕ) (r : Register), rs[i]? = some r → r.role = .dimension (d + 1 + i) := by
      intro i r' hr'
      rw [h (i + 1) r' (by simpa using hr'), Nat.add_right_comm, Nat.add_assoc]
    have hrest := ih hroles
    rw [List.filterMap_cons, hr, List.zipIdx_cons, List.map_cons, hrest]
    rfl

/-- The position registers stand in order of their dimensions. -/
theorem dimensionRegisters_eq : plan.layout.dimensionRegisters = plan.positions := by
  have hcoin : Layout.dimensionOf plan.coinRegister = none := by
    rw [Layout.dimensionOf, hp.coin]
  have hcontrols : ((plan.controls.flatMap Installed.registers).filterMap fun r =>
      (Layout.dimensionOf r).map fun d => (d, r)) = [] := by
    refine List.filterMap_eq_nil_iff.mpr fun r hr => ?_
    obtain ⟨c, hc, hr⟩ := List.mem_flatMap.mp hr
    obtain ⟨j, hj⟩ := List.mem_iff_getElem?.mp hc
    obtain ⟨hregister, hancilla⟩ := hp.controls j c hj
    simp only [Installed.registers, List.mem_append, Option.mem_toList] at hr
    rcases hr with hr | hr
    · rw [Layout.dimensionOf, hregister r hr]
      rfl
    · rw [Layout.dimensionOf, hancilla r hr]
      rfl
  have hroles : ∀ (i : ℕ) (r : Register), plan.positions[i]? = some r →
      r.role = .dimension (0 + i) := fun i r hr => by rw [hp.positions i r hr, Nat.zero_add]
  have hpositions := filterMap_dimensionOf hroles
  have hsorted : ((plan.positions.zipIdx 0).map Prod.swap).Pairwise
      fun a b => decide (a.1 ≤ b.1) = true := by
    have hsnd : (List.range' 0 plan.positions.length).Pairwise (· < ·) := List.pairwise_lt_range'
    rw [← List.zipIdx_map_snd 0 plan.positions, List.pairwise_map] at hsnd
    refine List.pairwise_map.mpr (hsnd.imp fun hlt => ?_)
    simpa using hlt.le
  rw [Layout.dimensionRegisters, h.registers, List.filterMap_append, List.filterMap_cons, hcoin,
    hpositions, Option.map_none, hcontrols, List.append_nil, List.mergeSort_of_pairwise hsorted,
    List.map_map]
  exact List.zipIdx_map_fst 0 plan.positions

theorem map_ordered : plan.layout.ordered.map Prod.snd = plan.positions := by
  rw [Layout.map_ordered, hp.dimensionRegisters_eq h]
  refine List.filter_eq_self.mpr fun r hr => ?_
  have hmem : r.width ∈ spec.widths := by
    rw [← h.positions]
    exact List.mem_map_of_mem hr
  simpa using h.shape.widths _ hmem

end Plan.Placed

end LatticeWalk
