import LatticeWalk.Proofs.Shots

/-! # What draws can bring about

A simulation reads numbers from a stream, one for every wire that may be found as one, and leaves
the rest alone. So two parts of a program may be given their numbers one after the other, and what
the whole can reach is what the second part can reach from where the first can.

* `Simulation.Reaches`: an attempt succeeds in a state, for some draws.
* `Draws.Deals`: the numbers that a stream gives in front of another.
* `Simulation.Reads`: an attempt that reads so many numbers and leaves the rest alone;
  `Simulation.reads_run` says that runs are such attempts.
* `Simulation.reaches_run_append`: programs in two parts. -/

namespace LatticeWalk

/-! ### Streams -/

/-- The stream gives the numbers, and goes on as the second. -/
def Draws.Deals {R : Type} : List R → Draws R → Draws R → Prop
  | [], d, d' => d' = d
  | u :: us, d, d' => d.next.1 = u ∧ Deals us d.next.2 d'

namespace Draws

variable {R : Type}

theorem deals_append : ∀ {us us' : List R} {d d' : Draws R},
    Deals (us ++ us') d d' ↔ ∃ d₁, Deals us d d₁ ∧ Deals us' d₁ d'
  | [], _, _, _ => by simp [Deals]
  | u :: us, us', d, d' => by
    rw [List.cons_append, Deals, deals_append]
    simp only [Deals, and_assoc, exists_and_left]

theorem deals_of_stream {stream : ℕ → R} : ∀ {us : List R} {used : ℕ},
    (∀ k u, us[k]? = some u → stream (used + k) = u) →
      Deals us ⟨stream, used⟩ ⟨stream, used + us.length⟩
  | [], _, _ => rfl
  | u :: us, used, h => by
    have hrest : Deals us ⟨stream, used + 1⟩ ⟨stream, used + 1 + us.length⟩ :=
      deals_of_stream fun k u' hk => by
        rw [Nat.add_assoc, Nat.add_comm 1]
        exact h (k + 1) u' hk
    refine ⟨h 0 u rfl, ?_⟩
    rwa [Nat.add_assoc, Nat.add_comm 1] at hrest

theorem exists_deals [Inhabited R] (us : List R) : ∃ d d' : Draws R, Deals us d d' :=
  ⟨⟨fun k => us[k]?.getD default, 0⟩, _, deals_of_stream fun k u hk => by
    rw [Nat.zero_add, hk, Option.getD_some]⟩

end Draws

namespace Simulation

variable {x y : Attempt (Simulation ℝ) Unit} {u v w : StateVector ℝ} {us us' : List ℝ}

/-! ### What can be reached -/

/-- The attempt succeeds for some draws, and arrives at the second state. -/
def Reaches (x : Attempt (Simulation ℝ) Unit) (v v' : StateVector ℝ) : Prop :=
  ∃ draws draws', x.outcome ⟨v, draws⟩ = (.ok (), ⟨v', draws'⟩)

/-- The attempt succeeds with these numbers whatever follows them, and leaves it alone. -/
def Brings (x : Attempt (Simulation ℝ) Unit) (us : List ℝ) (v v' : StateVector ℝ) : Prop :=
  ∀ draws draws', Draws.Deals us draws draws' → x.outcome ⟨v, draws⟩ = (.ok (), ⟨v', draws'⟩)

/-- What the attempt reaches, it reaches with so many numbers. -/
def Reads (x : Attempt (Simulation ℝ) Unit) : Prop :=
  ∀ v v', Reaches x v v' → ∃ us, Brings x us v v'

theorem Brings.reaches (h : Brings x us v w) : Reaches x v w := by
  obtain ⟨draws, draws', hdeals⟩ := Draws.exists_deals us
  exact ⟨draws, draws', h draws draws' hdeals⟩

theorem Brings.bind (hx : Brings x us u v) (hy : Brings y us' v w) :
    Brings (x >>= fun _ => y) (us ++ us') u w := by
  intro draws draws' hdeals
  obtain ⟨draws₁, hfirst, hrest⟩ := Draws.deals_append.mp hdeals
  rw [Attempt.outcome_bind_of_ok (hx draws draws₁ hfirst)]
  exact hy draws₁ draws' hrest

theorem Reaches.of_bind (h : Reaches (x >>= fun _ => y) u w) :
    ∃ v, Reaches x u v ∧ Reaches y v w := by
  obtain ⟨draws, draws', hrun⟩ := h
  obtain ⟨_, s, hfirst, hrest⟩ := Attempt.outcome_bind_eq_ok hrun
  exact ⟨s.vector, ⟨draws, s.draws, hfirst⟩, s.draws, draws', hrest⟩

theorem Reads.bind (hx : Reads x) (hy : Reads y) : Reads (x >>= fun _ => y) := by
  intro u w h
  obtain ⟨v, hfirst, hrest⟩ := h.of_bind
  obtain ⟨us, hus⟩ := hx u v hfirst
  obtain ⟨us', hus'⟩ := hy v w hrest
  exact ⟨us ++ us', hus.bind hus'⟩

/-- **The second of two attempts goes on wherever the first has arrived.** -/
theorem reaches_bind (hx : Reads x) (hy : Reads y) :
    Reaches (x >>= fun _ => y) u w ↔ ∃ v, Reaches x u v ∧ Reaches y v w := by
  refine ⟨Reaches.of_bind, fun ⟨v, hfirst, hrest⟩ => ?_⟩
  obtain ⟨us, hus⟩ := hx u v hfirst
  obtain ⟨us', hus'⟩ := hy v w hrest
  exact (hus.bind hus').reaches

/-! ### Runs -/

theorem Undrawn.reads (h : Undrawn x) : Reads x := by
  rintro v v' ⟨draws₀, draws₀', hrun⟩
  obtain ⟨result, w, hsame⟩ := h v
  rw [hsame draws₀] at hrun
  cases hrun
  refine ⟨[], fun draws draws' hdeals => ?_⟩
  cases hdeals
  exact hsame draws

/-- A reset reads one number if the wire may be one, and none if not. -/
theorem reads_resetWire (q : ℕ) : Reads (resetWire q) := by
  rintro v v' ⟨draws₀, draws₀', hrun⟩
  by_cases hq : q < v.wires
  swap
  · rw [outcome_resetWire_of_le (not_lt.mp hq)] at hrun
    cases hrun
  have hcases := fun draws : Draws ℝ => outcome_resetWire_real (s := ⟨v, draws⟩) hq
  rw [hcases draws₀] at hrun
  by_cases hp : v.oneProbability q ≤ negligible
  · simp only [if_pos hp] at hrun
    cases hrun
    refine ⟨[], fun draws draws' hdeals => ?_⟩
    cases hdeals
    simp only [hcases draws, if_pos hp]
  · simp only [if_neg hp] at hrun
    refine ⟨[draws₀.next.1], fun draws draws' hdeals => ?_⟩
    obtain ⟨hnext, rfl⟩ := hdeals
    simp only [hcases draws, if_neg hp, hnext]
    split_ifs at hrun ⊢ <;> cases hrun <;> rfl

theorem reads_resetWires : ∀ qs : List ℕ, Reads (resetWires qs)
  | [] => undrawn_pure.reads
  | q :: qs => (reads_resetWire q).bind (reads_resetWires qs)

theorem reads_apply (op : Operation ℝ) : Reads (apply op) := by
  rw [apply_eq]
  exact (undrawn_applyGates op.gates).reads.bind (reads_resetWires op.targets)

/-- **Runs read so many numbers**, and leave the rest of the stream alone. -/
theorem reads_run : ∀ ops : List (Operation ℝ), Reads (run ops)
  | [] => undrawn_pure.reads
  | op :: ops => (reads_apply op).bind (reads_run ops)

/-- **A program in two parts** reaches what the second part can reach from where the first can. -/
theorem reaches_run_append {ops ops' : List (Operation ℝ)} :
    Reaches (run (ops ++ ops')) u w ↔ ∃ v, Reaches (run ops) u v ∧ Reaches (run ops') v w := by
  rw [run_append]
  exact reaches_bind (reads_run ops) (reads_run ops')

theorem reaches_run_nil : Reaches (run []) v w ↔ w = v := by
  constructor
  · rintro ⟨draws, draws', hrun⟩
    cases hrun
    rfl
  · rintro rfl
    exact ⟨⟨0, 0⟩, _, rfl⟩

theorem reaches_run_singleton {op : Operation ℝ} :
    Reaches (run [op]) v w ↔ Reaches (apply op) v w := by
  have hbind : Reaches (run [op]) v w ↔ ∃ u, Reaches (apply op) v u ∧ Reaches (run []) u w :=
    reaches_bind (reads_apply op) (reads_run [])
  rw [hbind]
  simp only [reaches_run_nil, exists_eq_right']

end Simulation

end LatticeWalk
