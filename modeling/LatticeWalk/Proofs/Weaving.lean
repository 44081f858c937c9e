import LatticeWalk.Proofs.Renaming

/-! # Programs with a register more

A program that keeps a register of its own beside what another program does. The register carries
the same value on all its wires wherever there is amplitude, between its own gates and resets, and
the rest goes on as in the other program.

* `Register.wireAround`: the wires that are left when the register is dropped, in order.
* `Register.asks`: the controls that ask whether all wires of the register have a value.
* `Register.others`: the outcomes of resets, those of the register left out.
* `Unasked`: wires that are still to be reset, one after the other.
* `Operation.Weaves`: a program in which another is woven together with gates and resets of the
  register.
* `Operation.Weaves.evolve`, `Operation.Weaves.exists_outcomes`: where such a program leads. -/

namespace LatticeWalk

open Function (update)
open Operation (gatesOf targetsOf)
open Simulation (thenOutcomes thenOutcomes_of_lt thenOutcomes_add)

/-! ### Streams of outcomes -/

namespace Simulation

theorem thenOutcomes_self (n : ℕ) (o : ℕ → Bool) : thenOutcomes n o (fun k => o (k + n)) = o := by
  funext k
  unfold thenOutcomes
  split_ifs with hk
  · rfl
  · exact congrArg o (Nat.sub_add_cancel (not_lt.mp hk))

theorem thenOutcomes_succ (n : ℕ) (a b : ℕ → Bool) :
    (fun k => thenOutcomes (n + 1) a b (k + 1)) = thenOutcomes n (fun k => a (k + 1)) b := by
  funext k
  simp only [thenOutcomes, Nat.add_lt_add_iff_right, Nat.add_sub_add_right]

theorem thenOutcomes_one_thenOutcomes (n : ℕ) (a b c : ℕ → Bool) :
    thenOutcomes 1 a (thenOutcomes n b c) = thenOutcomes (n + 1) (thenOutcomes 1 a b) c := by
  funext k
  cases k with
  | zero => rfl
  | succ k =>
    simp only [thenOutcomes, Nat.add_lt_add_iff_right, Nat.add_sub_add_right, Nat.add_sub_cancel,
      Nat.lt_one_iff, Nat.succ_ne_zero, if_false]

end Simulation

namespace Operation

theorem evolve_congr {R : Type} [Scalar R] : ∀ {ops : List (Operation R)} {o o' : ℕ → Bool},
    (∀ k < (targetsOf ops).length, o k = o' k) → ∀ ψ : Wave R, evolve ops o ψ = evolve ops o' ψ
  | [], _, _, _, _ => rfl
  | op :: ops, o, o', h, ψ => by
    simp only [targetsOf_cons, List.length_append] at h
    rw [evolve, evolve, Wave.collapseAll_congr fun k hk => h k (by omega)]
    exact evolve_congr (fun k hk => h _ (by omega)) _

theorem evolve_thenOutcomes {R : Type} [Scalar R] (ops ops' : List (Operation R)) (o o' : ℕ → Bool)
    (ψ : Wave R) : evolve (ops ++ ops') (thenOutcomes (targetsOf ops).length o o') ψ =
      evolve ops' o' (evolve ops o ψ) := by
  rw [evolve_append, thenOutcomes_add]
  exact congrArg _ (evolve_congr (fun k hk => thenOutcomes_of_lt hk o o') ψ)

theorem evolve_zero (ops : List (Operation ℝ)) (o : ℕ → Bool) :
    evolve ops o (0 : Wave ℝ) = 0 := by
  have h := evolve_linear 0 0 ops o 0 0
  simpa only [zero_smul, add_zero] using h

theorem targetsOf_append {R : Type} (ops ops' : List (Operation R)) :
    targetsOf (ops ++ ops') = targetsOf ops ++ targetsOf ops' := List.flatMap_append

theorem Follows.targetsOf {R : Type} {f : ℕ → ℕ} {cs : List Control} {ops ops' : List (Operation R)}
    (h : ops.Forall₂ (Follows f cs) ops') :
    Operation.targetsOf ops' = (Operation.targetsOf ops).map f := by
  induction h with
  | nil => rfl
  | cons hop _ ih => rw [targetsOf_cons, targetsOf_cons, hop.targets, ih, List.map_append]

end Operation

/-! ### A register dropped -/

namespace Register

variable (r : Register)

/-- The wires that are left when the register is dropped, in order. -/
def wireAround (q : ℕ) : ℕ := if q < r.start then q else q + r.width

/-- The controls that ask whether all wires of the register have the value. -/
def asks (v : Bool) : List Control := r.wires.map fun q => ⟨q, v⟩

/-- The outcomes of resets of the given wires in order, those of the register left out. -/
def others : List ℕ → (ℕ → Bool) → ℕ → Bool
  | [], o => o
  | q :: qs, o =>
    if q ∈ r.wires then others qs fun k => o (k + 1)
    else thenOutcomes 1 o (others qs fun k => o (k + 1))

/-- The wires off the register. -/
def off (qs : List ℕ) : List ℕ := qs.filter (· ∉ r.wires)

variable {r}

theorem met_asks {v : Bool} {b : ℕ → Bool} : Met (r.asks v) b ↔ ∀ q ∈ r.wires, b q = v := by
  simp only [Met, asks, List.forall_mem_map]

theorem met_asks_false {b : ℕ → Bool} : Met (r.asks false) b ↔ r.read b = 0 := by
  rw [met_asks]
  refine ⟨read_eq_zero, fun h => ?_⟩
  have hzero : r.read b = r.read fun _ => false := h.trans (read_eq_zero fun _ _ => rfl).symm
  exact read_eq_iff.mp hzero

theorem wireAround_of_lt {q : ℕ} (h : q < r.start) : r.wireAround q = q := if_pos h

theorem wireAround_notMem (q : ℕ) : r.wireAround q ∉ r.wires := by
  rw [mem_wires, wireAround, stop]
  split_ifs <;> omega

theorem wireAround_injective : r.wireAround.Injective := by
  intro p q h
  unfold wireAround at h
  split_ifs at h <;> omega

theorem exists_wireAround_or (u : ℕ) : (∃ q, r.wireAround q = u) ∨ u ∈ r.wires := by
  by_cases hu : u ∈ r.wires
  · exact .inr hu
  · rw [mem_wires, stop] at hu
    by_cases hlt : u < r.start
    · exact .inl ⟨u, if_pos hlt⟩
    · refine .inl ⟨u - r.width, ?_⟩
      rw [wireAround, if_neg (by omega)]
      omega

/-- **The wires that are left, among all of a layout.** -/
theorem renaming_wireAround {n : ℕ} (h : r.start ≤ n) (v : Bool) :
    Renaming r.wireAround (r.asks v) n (n + r.width) where
  injective := wireAround_injective
  lt_iff q := by
    unfold wireAround
    split_ifs <;> omega
  apart c hc q hq := by
    obtain ⟨u, hu, rfl⟩ := List.mem_map.mp hc
    obtain rfl : u = r.wireAround q := hq
    exact wireAround_notMem q hu
  wire_lt c hc := by
    obtain ⟨u, hu, rfl⟩ := List.mem_map.mp hc
    have hlt := (mem_wires.mp hu).2
    rw [stop] at hlt
    show u < n + r.width
    omega
  covers u := by
    refine (exists_wireAround_or u).imp_right fun hu => ⟨⟨u, v⟩, List.mem_map_of_mem hu, rfl⟩
  met := ⟨fun _ => v, met_asks.mpr fun _ _ => rfl⟩

/-! ### The outcomes that are left -/

theorem others_thenOutcomes : ∀ (qs us : List ℕ) (a b : ℕ → Bool),
    r.others (qs ++ us) (thenOutcomes qs.length a b) =
      thenOutcomes (r.off qs).length (r.others qs a) (r.others us b)
  | [], _, _, _ => rfl
  | q :: qs, us, a, b => by
    have hfirst : ∀ rest, thenOutcomes 1 (thenOutcomes (qs.length + 1) a b) rest =
        thenOutcomes 1 a rest := fun rest => by
      funext k
      cases k <;> rfl
    rw [List.cons_append, others, others, List.length_cons, Simulation.thenOutcomes_succ,
      others_thenOutcomes qs us]
    by_cases hq : q ∈ r.wires
    · have hoff : r.off (q :: qs) = r.off qs :=
        List.filter_cons_of_neg fun h => of_decide_eq_true h hq
      rw [if_pos hq, if_pos hq, hoff]
    · have hoff : r.off (q :: qs) = q :: r.off qs := List.filter_cons_of_pos (decide_eq_true hq)
      rw [if_neg hq, if_neg hq, hfirst, Simulation.thenOutcomes_one_thenOutcomes, hoff,
        List.length_cons]

theorem others_of_disjoint : ∀ {qs : List ℕ}, (∀ q ∈ qs, q ∉ r.wires) → ∀ o, r.others qs o = o
  | [], _, _ => rfl
  | q :: qs, h, o => by
    rw [others, if_neg (h q (by simp)), others_of_disjoint fun q' hq' => h q' (by simp [hq'])]
    funext k
    cases k <;> rfl

theorem others_of_subset : ∀ {qs : List ℕ}, qs ⊆ r.wires → ∀ o,
    r.others qs o = fun k => o (k + qs.length)
  | [], _, _ => rfl
  | q :: qs, h, o => by
    rw [others, if_pos (h (by simp)), others_of_subset fun q' hq' => h (by simp [hq'])]
    rfl

end Register

/-! ### Resets of the register -/

namespace Wave

variable {f : ℕ → ℕ} {ψ : Wave ℝ} {v : Bool}

/-- A wire found with the value that it has is set to zero, and found with the other there is
nothing left. -/
theorem collapse_latched_of_ask {as bs : List Control} {q : ℕ} (hf : ∀ p, f p ≠ q)
    (hout : ∀ c ∈ as ++ bs, c.wire ≠ q) (one : Bool) :
    (ψ.latched f (as ++ ⟨q, v⟩ :: bs)).collapse q one =
      if one = v then ψ.latched f (as ++ ⟨q, false⟩ :: bs) else 0 := by
  have hmet : ∀ (u : Bool) (b : ℕ → Bool),
      Met (as ++ ⟨q, u⟩ :: bs) b ↔ Met (as ++ bs) b ∧ b q = u := by
    intro u b
    simp only [Met, List.forall_mem_append, List.forall_mem_cons]
    tauto
  have hupdate : ∀ b : ℕ → Bool, update b q one ∘ f = b ∘ f := fun b =>
    funext fun p => Function.update_of_ne (hf p) _ _
  have hother : ∀ b : ℕ → Bool, Met (as ++ bs) (update b q one) ↔ Met (as ++ bs) b :=
    fun b => met_update hout b one
  funext b
  simp only [collapse, latched, hmet, hother, hupdate, Function.update_self]
  by_cases hone : one = v
  · simp only [hone, if_true, latched, hmet]
    cases b q <;> simp
  · simp [hone]

theorem collapse_zero (q : ℕ) (one : Bool) : (0 : Wave ℝ).collapse q one = 0 := by
  funext b
  unfold collapse
  split_ifs <;> rfl

theorem collapseAll_zero : ∀ (qs : List ℕ) (o : ℕ → Bool), collapseAll qs o (0 : Wave ℝ) = 0
  | [], _ => rfl
  | q :: qs, o => by rw [collapseAll, collapse_zero, collapseAll_zero qs]

end Wave

/-- **Wires that are still to be reset**: all different, none of them one that is left, and none
asked for by the controls, which ask for those in front that have been reset already. -/
structure Unasked (f : ℕ → ℕ) (qs : List ℕ) (as : List Control) : Prop where
  nodup : qs.Nodup
  off : ∀ q ∈ qs, ∀ p, f p ≠ q
  apart : ∀ q ∈ qs, ∀ c ∈ as, c.wire ≠ q

theorem Register.unasked_wires (r : Register) : Unasked r.wireAround r.wires [] where
  nodup := nodup_wires r
  off _ hq p hp := wireAround_notMem p (hp ▸ hq)
  apart _ _ _ hc := by cases hc

namespace Unasked

variable {f : ℕ → ℕ} {q : ℕ} {qs : List ℕ} {as : List Control} (h : Unasked f (q :: qs) as)
include h

theorem rest : Unasked f qs (as ++ [⟨q, false⟩]) where
  nodup := (List.nodup_cons.mp h.nodup).2
  off q' hq' := h.off q' (by simp [hq'])
  apart q' hq' c hc := by
    rcases List.mem_append.mp hc with hc | hc
    · exact h.apart q' (by simp [hq']) c hc
    · rw [List.mem_singleton.mp hc]
      exact (ne_of_mem_of_not_mem hq' (List.nodup_cons.mp h.nodup).1).symm

theorem collapse_latched (ψ : Wave ℝ) (v one : Bool) :
    (ψ.latched f (as ++ (q :: qs).map fun q => ⟨q, v⟩)).collapse q one =
      if one = v then ψ.latched f ((as ++ [⟨q, false⟩]) ++ qs.map fun q => ⟨q, v⟩) else 0 := by
  have hout : ∀ c ∈ as ++ qs.map fun q => (⟨q, v⟩ : Control), c.wire ≠ q := by
    intro c hc
    rcases List.mem_append.mp hc with hc | hc
    · exact h.apart q (by simp) c hc
    · obtain ⟨u, hu, rfl⟩ := List.mem_map.mp hc
      exact ne_of_mem_of_not_mem hu (List.nodup_cons.mp h.nodup).1
  rw [List.map_cons, Wave.collapse_latched_of_ask (h.off q (by simp)) hout, List.append_cons]

end Unasked

namespace Wave

variable {f : ℕ → ℕ} {ψ : Wave ℝ} {v : Bool}

/-- Wires that are asked for are found with the value, and are zero then. -/
theorem collapseAll_latched_of_asks : ∀ {qs : List ℕ} {as : List Control} (o : ℕ → Bool),
    Unasked f qs as → collapseAll qs o (ψ.latched f (as ++ qs.map fun q => ⟨q, v⟩)) =
      if ∀ k < qs.length, o k = v then ψ.latched f (as ++ qs.map fun q => ⟨q, false⟩) else 0
  | [], _, _, _ => by simp [collapseAll]
  | q :: qs, as, o, h => by
    rw [collapseAll, h.collapse_latched]
    by_cases hfirst : o 0 = v
    · have hregroup := List.append_cons as ⟨q, false⟩ (qs.map fun q => ⟨q, false⟩)
      rw [if_pos hfirst, collapseAll_latched_of_asks _ h.rest, List.map_cons, hregroup]
      refine if_congr ⟨fun h k hk => ?_, fun h k hk => h (k + 1) (by simpa using hk)⟩ rfl rfl
      cases k with
      | zero => exact hfirst
      | succ k => exact h k (by simpa using hk)
    · rw [if_neg hfirst, collapseAll_zero, if_neg fun h => hfirst (h 0 (by simp))]

/-- **A register that is reset** is found with the value that it carries, and carries zero then. -/
theorem collapseAll_register (r : Register) (o : ℕ → Bool) :
    collapseAll r.wires o (ψ.latched r.wireAround (r.asks v)) =
      if ∀ k < r.width, o k = v then ψ.latched r.wireAround (r.asks false) else 0 := by
  have h := collapseAll_latched_of_asks (ψ := ψ) (v := v) o r.unasked_wires
  rwa [Register.length_wires] at h

end Wave

/-! ### Programs woven together -/

namespace Operation

/-- **One program woven into another** that has a register more. On all wires of the register there
is one value at the beginning and one at the end. Operations follow those of the first program, or
they are gates that change the value of the register and nothing else, or they reset it. -/
inductive Weaves (r : Register) : (v v' : Bool) → List (Operation ℝ) → List (Operation ℝ) → Prop
  | follow {v : Bool} {ops ops' : List (Operation ℝ)}
      (h : ops.Forall₂ (Follows r.wireAround (r.asks v)) ops') : Weaves r v v ops ops'
  | gates {v v' : Bool} {ops' : List (Operation ℝ)} (hreset : ∀ op ∈ ops', op.isReset = false)
      (h : ∀ ψ : Wave ℝ, Gate.actAll (gatesOf ops') (ψ.latched r.wireAround (r.asks v)) =
        ψ.latched r.wireAround (r.asks v')) : Weaves r v v' [] ops'
  | reset {v : Bool} : Weaves r v false [] [.reset r.wires]
  | append {v v' v'' : Bool} {ops₁ ops₂ ops₁' ops₂' : List (Operation ℝ)}
      (h₁ : Weaves r v v' ops₁ ops₁') (h₂ : Weaves r v' v'' ops₂ ops₂') :
      Weaves r v v'' (ops₁ ++ ops₂) (ops₁' ++ ops₂')

namespace Weaves

variable {r : Register} {v v' : Bool} {ops ops' : List (Operation ℝ)}

theorem resets : ∀ (n : ℕ) (v : Bool),
    Weaves r v false [] (List.replicate (n + 1) (.reset r.wires))
  | 0, _ => .reset
  | n + 1, _ => .append .reset (resets n false)

theorem flatMap_nil {α : Type} {f : α → List (Operation ℝ)} : ∀ {as : List α},
    (∀ a ∈ as, Weaves r v v [] (f a)) → Weaves r v v [] (as.flatMap f)
  | [], _ => .follow .nil
  | a :: as, h => .append (h a (by simp)) (flatMap_nil fun a' ha' => h a' (by simp [ha']))

theorem off_targetsOf (h : Weaves r v v' ops ops') :
    r.off (targetsOf ops') = (targetsOf ops).map r.wireAround := by
  induction h with
  | follow h =>
    rw [Follows.targetsOf h]
    refine List.filter_eq_self.mpr fun q hq => ?_
    obtain ⟨p, -, rfl⟩ := List.mem_map.mp hq
    exact decide_eq_true (Register.wireAround_notMem p)
  | gates hreset => rw [targetsOf_eq_nil hreset]; rfl
  | reset => simp [Register.off, targetsOf, targets]
  | append _ _ ih₁ ih₂ =>
    rw [targetsOf_append, targetsOf_append, List.map_append, ← ih₁, ← ih₂]
    exact List.filter_append _ _

theorem others_append {ops₁ ops₁' : List (Operation ℝ)} (h : Weaves r v v' ops₁ ops₁')
    (ops₂' : List (Operation ℝ)) (o₁ o₂ : ℕ → Bool) :
    r.others (targetsOf (ops₁' ++ ops₂')) (thenOutcomes (targetsOf ops₁').length o₁ o₂) =
      thenOutcomes (targetsOf ops₁).length (r.others (targetsOf ops₁') o₁)
        (r.others (targetsOf ops₂') o₂) := by
  rw [targetsOf_append, Register.others_thenOutcomes, h.off_targetsOf, List.length_map]

/-- Operations that follow others on the wires that are left reset these only. -/
theorem others_of_follows (h : ops.Forall₂ (Follows r.wireAround (r.asks v)) ops') (o : ℕ → Bool) :
    r.others (targetsOf ops') o = o := by
  refine Register.others_of_disjoint (fun q hq => ?_) o
  rw [Follows.targetsOf h] at hq
  obtain ⟨p, -, rfl⟩ := List.mem_map.mp hq
  exact Register.wireAround_notMem p

variable {n : ℕ} (hn : r.start ≤ n)
include hn

/-- **The woven program leads where the first does**, with the register set in, under the outcomes
of the other resets, or the outcomes are impossible. -/
theorem evolve (h : Weaves r v v' ops ops') : ∀ (o : ℕ → Bool) (ψ : Wave ℝ),
    Operation.evolve ops' o (ψ.latched r.wireAround (r.asks v)) =
        (Operation.evolve ops (r.others (targetsOf ops') o) ψ).latched r.wireAround (r.asks v') ∨
      Operation.evolve ops' o (ψ.latched r.wireAround (r.asks v)) = 0 := by
  induction h with
  | @follow v ops ops' h =>
    intro o ψ
    left
    rw [others_of_follows h, evolve_latched (Register.renaming_wireAround hn v) h]
  | gates hreset h =>
    intro o ψ
    left
    rw [evolve_of_gates hreset, h]
    rfl
  | @reset v =>
    intro o ψ
    have hcollapse : Operation.evolve [.reset r.wires] o (ψ.latched r.wireAround (r.asks v)) =
        Wave.collapseAll r.wires o (ψ.latched r.wireAround (r.asks v)) := rfl
    rw [hcollapse, Wave.collapseAll_register]
    by_cases ho : ∀ k < r.width, o k = v
    · exact .inl (if_pos ho)
    · exact .inr (if_neg ho)
  | @append v v' v'' ops₁ ops₂ ops₁' ops₂' h₁ _ ih₁ ih₂ =>
    intro o ψ
    rw [← Simulation.thenOutcomes_self (targetsOf ops₁').length o, h₁.others_append,
      evolve_thenOutcomes, evolve_thenOutcomes]
    rcases ih₁ o ψ with hfirst | hfirst
    · rw [hfirst]
      exact ih₂ _ _
    · rw [hfirst]
      exact .inr (evolve_zero _ _)

/-- **No outcomes of the first program are left out.** -/
theorem exists_outcomes (h : Weaves r v v' ops ops') : ∀ o : ℕ → Bool, ∃ o',
    r.others (targetsOf ops') o' = o ∧ ∀ ψ : Wave ℝ,
      Operation.evolve ops' o' (ψ.latched r.wireAround (r.asks v)) =
        (Operation.evolve ops o ψ).latched r.wireAround (r.asks v') := by
  induction h with
  | @follow v ops ops' h =>
    intro o
    exact ⟨o, others_of_follows h o, evolve_latched (Register.renaming_wireAround hn v) h o⟩
  | gates hreset h =>
    intro o
    refine ⟨o, by rw [targetsOf_eq_nil hreset]; rfl, fun ψ => ?_⟩
    rw [evolve_of_gates hreset, h]
    rfl
  | @reset v =>
    intro o
    refine ⟨thenOutcomes r.width (fun _ => v) o, ?_, fun ψ => ?_⟩
    · have hwires : targetsOf [(.reset r.wires : Operation ℝ)] = r.wires := List.append_nil _
      rw [hwires, Register.others_of_subset (List.Subset.refl _), Register.length_wires,
        thenOutcomes_add]
    · have hcollapse : ∀ o,
          Operation.evolve [.reset r.wires] o (ψ.latched r.wireAround (r.asks v)) =
            Wave.collapseAll r.wires o (ψ.latched r.wireAround (r.asks v)) := fun _ => rfl
      rw [hcollapse, Wave.collapseAll_register, if_pos fun k hk => thenOutcomes_of_lt hk _ _]
      rfl
  | @append v v' v'' ops₁ ops₂ ops₁' ops₂' h₁ _ ih₁ ih₂ =>
    intro o
    obtain ⟨o₁, ho₁, hfirst⟩ := ih₁ o
    obtain ⟨o₂, ho₂, hrest⟩ := ih₂ fun k => o (k + (targetsOf ops₁).length)
    refine ⟨thenOutcomes (targetsOf ops₁').length o₁ o₂, ?_, fun ψ => ?_⟩
    · rw [h₁.others_append, ho₁, ho₂, Simulation.thenOutcomes_self]
    · rw [evolve_thenOutcomes, hfirst, hrest, evolve_append]

end Weaves

end Operation

end LatticeWalk
