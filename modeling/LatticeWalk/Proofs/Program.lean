import LatticeWalk.Proofs.Wave
import LatticeWalk.Circuit

/-! # Programs

Operations are compiled into a program and executed by a simulation.

* `Operation.gatesOf`: the gates of operations in order. A simulation of operations without resets
  applies these and nothing else (`Simulation.run_gates`).
* `Operation.WellFormed`: an operation names all wires of its gates, and each of them once.
* `Simulation.Leads`: from which state to which, if no number is drawn.
* `Circuit.outcome_addAll`: operations on the wires of a layout are all added. -/

namespace LatticeWalk

variable {R : Type}

namespace Operation

/-- The gates of operations in order. -/
def gatesOf (ops : List (Operation R)) : List (Gate R) := ops.flatMap gates

@[simp] theorem gatesOf_nil : gatesOf ([] : List (Operation R)) = [] := rfl

@[simp] theorem gatesOf_cons (op : Operation R) (ops : List (Operation R)) :
    gatesOf (op :: ops) = op.gates ++ gatesOf ops := rfl

@[simp] theorem gatesOf_append (ops ops' : List (Operation R)) :
    gatesOf (ops ++ ops') = gatesOf ops ++ gatesOf ops' := by simp [gatesOf]

theorem gatesOf_map_gate {α : Type} (f : α → Gate R) (as : List α) :
    gatesOf (as.map fun a => .gate (f a)) = as.map f := by
  simp only [gatesOf, List.flatMap_map, gates]
  exact List.map_eq_flatMap.symm

theorem gatesOf_flatMap {α : Type} (f : α → List (Operation R)) (as : List α) :
    gatesOf (as.flatMap f) = as.flatMap fun a => gatesOf (f a) := by
  simp [gatesOf, List.flatMap_assoc]

/-- The operation names wires among the first `n` only, and so do its gates. -/
structure Within (n : ℕ) (op : Operation R) : Prop where
  wires : ∀ w ∈ op.wires, w < n
  gates : ∀ g ∈ op.gates, g.Fits n

theorem within_gate {n : ℕ} {g : Gate R} (h : g.Fits n) : (Operation.gate g).Within n :=
  ⟨(Gate.fits_iff.mp h).1, by simpa [Operation.gates] using h⟩

theorem within_barrier (n : ℕ) : (Operation.barrier : Operation R).Within n :=
  ⟨by simp [Operation.wires], by simp [Operation.gates]⟩

theorem fits_of_gatesOf {n : ℕ} {ops : List (Operation R)} (h : ∀ op ∈ ops, op.Within n)
    {g : Gate R} (hg : g ∈ gatesOf ops) : g.Fits n := by
  obtain ⟨op, hop, hg⟩ := List.mem_flatMap.mp hg
  exact (h op hop).gates g hg

/-- **An operation in order** on `n` wires: its gates fit these and have no other wires than those
that it names, each of them once. A reset may name a wire more than once. -/
structure WellFormed (n : ℕ) (op : Operation R) : Prop extends op.Within n where
  distinct : op.isReset = false → op.wires.Nodup
  listed : ∀ g ∈ op.gates, ∀ q ∈ g.wires, q ∈ op.wires

theorem wellFormed_gate {n : ℕ} {g : Gate R} (h : g.Fits n) : (Operation.gate g).WellFormed n where
  toWithin := within_gate h
  distinct _ := (Gate.fits_iff.mp h).2
  listed g' hg' := by
    rw [List.mem_singleton.mp hg']
    exact fun _ hq => hq

theorem wellFormed_plain {n q : ℕ} (h : q < n) (transform : Transform R) :
    (Operation.gate (.plain transform q)).WellFormed n :=
  wellFormed_gate (Gate.fits_iff.mpr (by simpa [Gate.plain, Gate.wires] using h))

theorem wellFormed_barrier (n : ℕ) : (Operation.barrier : Operation R).WellFormed n where
  toWithin := within_barrier n
  distinct _ := List.nodup_nil
  listed := nofun

theorem wellFormed_of_fits {n : ℕ} {op : Operation R} (hop : op = .barrier ∨ ∃ g, op = .gate g)
    (h : ∀ g ∈ op.gates, g.Fits n) : op.WellFormed n := by
  rcases hop with rfl | ⟨g, rfl⟩
  · exact wellFormed_barrier n
  · exact wellFormed_gate (h g (by simp [gates]))

theorem wellFormed_reset {n : ℕ} {targets : List ℕ} (h : ∀ q ∈ targets, q < n) :
    (Operation.reset targets : Operation R).WellFormed n where
  wires := h
  gates := nofun
  distinct := nofun
  listed := nofun

end Operation

namespace Circuit

variable [Scalar R]

/-- **Operations within the layout are all added.** -/
theorem outcome_addAll : ∀ {ops : List (Operation R)} {c : Circuit R},
    (∀ op ∈ ops, ∀ q ∈ op.wires, q < c.width) →
    (addAll ops).outcome c = (.ok (), { c with operations := c.operations ++ ops })
  | [], c, _ => by simp [addAll]
  | op :: ops, c, h => by
    have hop : c.check op = .ok () := by
      have hnone : (op.wires.find? fun w => c.width ≤ w) = none := by
        rw [List.find?_eq_none]
        intro w hw
        simpa using h op (by simp) w hw
      rw [check, hnone]
    have hrest : (addAll ops).outcome (c.push op) = _ :=
      outcome_addAll fun op' hop' => h op' (by simp [hop'])
    rw [addAll, Attempt.outcome_bind, outcome_add, hop]
    refine hrest.trans ?_
    simp [push]

theorem addAll_eq_ok : ∀ {ops : List (Operation R)} {c c' : Circuit R} {u : Unit},
    (addAll ops).outcome c = (.ok u, c') → c' = { c with operations := c.operations ++ ops }
  | [], c, c', _, h => by
    cases h
    simp
  | op :: ops, c, c', _, h => by
    rw [addAll, Attempt.outcome_bind, outcome_add] at h
    cases hop : c.check op with
    | error e =>
      rw [hop] at h
      cases h
    | ok u =>
      rw [hop] at h
      rw [addAll_eq_ok h]
      simp [push]

theorem outcome_append {op : Operator R} {wires : List ℕ} {operation : Operation R} {c : Circuit R}
    (hbind : op.bind wires = .ok operation) (h : ∀ q ∈ operation.wires, q < c.width) :
    (append op wires).outcome c =
      (.ok (), { c with operations := c.operations ++ [operation] }) := by
  have hadd : (addAll [operation]).outcome c = _ := outcome_addAll (by simpa using h)
  rw [append, Attempt.outcome_bind, Attempt.outcome_check, hbind]
  simpa [addAll, Attempt.outcome_bind, outcome_add] using hadd

end Circuit

namespace Simulation

variable [Scalar R]

theorem start_eq_ok {n : ℕ} (hpos : 0 < n) (h : n < 64) (draws : Draws R) :
    start n draws = .ok ⟨.basis n 0, draws⟩ := by
  rw [start, if_neg hpos.ne', StateVector.zeros_eq_basis h]
  rfl

theorem run_append (ops ops' : List (Operation R)) :
    run (ops ++ ops') = (run ops >>= fun _ => run ops') := by
  induction ops with
  | nil => simp [run]
  | cons op ops ih => simp [run, ih]

/-- **Operations without resets** succeed, apply their gates and draw no number. -/
theorem run_gates {ψ : Wave R} : ∀ {ops : List (Operation R)} {v : StateVector R}, v.Shows ψ →
    (∀ op ∈ ops, op.Within v.wires) → (∀ op ∈ ops, op.isReset = false) → ∀ draws : Draws R,
    ∃ v', (run ops).outcome ⟨v, draws⟩ = (.ok (), ⟨v', draws⟩) ∧ v'.wires = v.wires ∧
      v'.Shows (Gate.actAll (Operation.gatesOf ops) ψ)
  | [], v, hv, _, _, draws => ⟨v, rfl, rfl, hv⟩
  | op :: ops, v, hv, hw, hr, draws => by
    obtain ⟨v1, h1, hw1, hs1⟩ : ∃ v1, (apply op).outcome ⟨v, draws⟩ = (.ok (), ⟨v1, draws⟩) ∧
        v1.wires = v.wires ∧ v1.Shows (Gate.actAll op.gates ψ) := by
      have hfits := (hw op (by simp)).gates
      cases op with
      | gate g =>
        obtain ⟨v1, h1, hw1, hs1⟩ := hv.applyGate (hfits g (by simp [Operation.gates]))
        refine ⟨v1, ?_, hw1, hs1⟩
        simp only [apply, applyGate, Attempt.outcome_of, h1]
      | apply name label wires gates => exact hv.applyGates hfits draws
      | reset targets => exact absurd (hr (.reset targets) (by simp)) (by simp [Operation.isReset])
      | barrier => exact ⟨v, rfl, rfl, hv⟩
    obtain ⟨v2, h2, hw2, hs2⟩ := run_gates hs1
      (fun op' (hop' : op' ∈ ops) => hw1 ▸ hw op' (by simp [hop']))
      (fun op' hop' => hr op' (by simp [hop'])) draws
    refine ⟨v2, ?_, hw2.trans hw1, ?_⟩
    · rw [run, Attempt.outcome_bind, h1]
      exact h2
    · rwa [Operation.gatesOf_cons, Gate.actAll_append]

/-- Executed on `v`, the operations succeed, draw no number and leave `u`. -/
def Leads (ops : List (Operation R)) (v u : StateVector R) : Prop :=
  ∀ draws : Draws R, (run ops).outcome ⟨v, draws⟩ = (.ok (), ⟨u, draws⟩)

/-- Operations without resets lead to the same state, whatever numbers could be drawn. -/
theorem leads_of_shows {ψ : Wave R} {ops : List (Operation R)} {v : StateVector R} (hv : v.Shows ψ)
    (hops : ∀ op ∈ ops, op.Within v.wires ∧ op.isReset = false) :
    ∃ u, Leads ops v u ∧ u.wires = v.wires ∧
      u.Shows (Gate.actAll (Operation.gatesOf ops) ψ) := by
  have hw : ∀ op ∈ ops, op.Within v.wires := fun op hop => (hops op hop).1
  have hr : ∀ op ∈ ops, op.isReset = false := fun op hop => (hops op hop).2
  obtain ⟨u, -, hwires, hshows⟩ := run_gates hv hw hr ⟨fun _ => 0, 0⟩
  refine ⟨u, fun draws => ?_, hwires, hshows⟩
  obtain ⟨u', hrun, hwires', hshows'⟩ := run_gates hv hw hr draws
  rw [hrun, hshows'.eq hshows (hwires'.trans hwires.symm)]

end Simulation

end LatticeWalk
