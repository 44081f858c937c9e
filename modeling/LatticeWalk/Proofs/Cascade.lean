import LatticeWalk.Proofs.Flip

/-! # Cascades

The flips of a register's wires, each under the wires below it, at every width:

* `Register.sendAll_borrow`: from the bottom wire up they subtract one, cyclically.
* `Register.sendAll_carry`: from the top wire down they add one. -/

namespace LatticeWalk

open Function (update)

variable {R : Type}

namespace Register

/-- The flip of wire `i` under the wires below it. -/
def borrowGate (r : Register) (i : ℕ) : Gate R :=
  .controlled .flip ((List.range i).map r.wire) (r.wire i)

/-- Each wire is flipped under the wires below it, from the bottom up. -/
def borrowGates (r : Register) : List (Gate R) := (List.range r.width).map r.borrowGate

theorem target_mem_of_borrowGates {r : Register} {g : Gate R} (h : g ∈ r.borrowGates) :
    g.target ∈ r.wires := by
  obtain ⟨i, hi, rfl⟩ := List.mem_map.mp h
  exact List.mem_map_of_mem hi

theorem isFlip_borrowGates {r : Register} {g : Gate R} (h : g ∈ r.borrowGates) : g.IsFlip := by
  obtain ⟨i, -, rfl⟩ := List.mem_map.mp h
  refine ⟨rfl, fun c hc => ?_⟩
  simp only [borrowGate, Gate.controlled, List.mem_map, List.mem_range] at hc
  obtain ⟨_, ⟨j, hj, rfl⟩, rfl⟩ := hc
  simp only [borrowGate, Gate.controlled, wire]
  omega

theorem wires_subset_of_borrowGates {r : Register} {g : Gate R} (h : g ∈ r.borrowGates) {w : ℕ}
    (hw : w ∈ g.wires) : w ∈ r.wires := by
  obtain ⟨i, hi, rfl⟩ := List.mem_map.mp h
  rw [List.mem_range] at hi
  simp only [Gate.wires, borrowGate, Gate.controlled, List.mem_append, List.mem_map, List.mem_range,
    List.mem_singleton] at hw
  rcases hw with ⟨_, ⟨_, ⟨j, hj, rfl⟩, rfl⟩, rfl⟩ | rfl
  · exact wire_mem (hj.trans hi)
  · exact wire_mem hi

theorem send_borrowGate (r : Register) (i : ℕ) (b : ℕ → Bool) :
    (r.borrowGate i : Gate R).send b =
      if index i (fun q => b (r.wire q)) = 2 ^ i - 1 then update b (r.wire i) (!b (r.wire i))
      else b := by
  have hmet : Met (r.borrowGate i : Gate R).controls b ↔
      index i (fun q => b (r.wire q)) = 2 ^ i - 1 := by
    rw [index_eq_max]
    simp [borrowGate, Met, Gate.controlled]
  exact if_congr hmet rfl rfl

theorem pred_eq_max {p v : ℕ} (hp : 0 < p) (hv : v < p) : (v + p - 1) % p = p - 1 ↔ v = 0 := by
  rcases Nat.eq_zero_or_pos v with rfl | h
  · simp [Nat.mod_eq_of_lt (show p - 1 < p by omega)]
  · rw [show v + p - 1 = v - 1 + p by omega, Nat.add_mod_right, Nat.mod_eq_of_lt (by omega)]
    omega

/-- One digit more of a number from which one is subtracted: it changes if the digits below are all
zero. -/
theorem pred_digit {p v : ℕ} (hp : 0 < p) (hv : v < p) (bit : Bool) :
    p * (if v = 0 then !bit else bit).toNat + (v + p - 1) % p =
      (p * bit.toNat + v + p * 2 - 1) % (p * 2) := by
  rcases Nat.eq_zero_or_pos v with rfl | h
  · rw [if_pos rfl, Nat.zero_add, Nat.mod_eq_of_lt (by omega)]
    cases bit
    · rw [Bool.not_false, Bool.toNat_true, Bool.toNat_false, Nat.mod_eq_of_lt (by omega)]
      omega
    · rw [Bool.not_true, Bool.toNat_true, Bool.toNat_false,
        show p * 1 + 0 + p * 2 - 1 = p - 1 + p * 2 by omega, Nat.add_mod_right,
        Nat.mod_eq_of_lt (by omega)]
      omega
  · rw [if_neg (by omega), show v + p - 1 = v - 1 + p by omega, Nat.add_mod_right,
      Nat.mod_eq_of_lt (by omega),
      show p * bit.toNat + v + p * 2 - 1 = p * bit.toNat + (v - 1) + p * 2 by omega,
      Nat.add_mod_right, Nat.mod_eq_of_lt]
    cases bit
    · simp only [Bool.toNat_false]; omega
    · simp only [Bool.toNat_true]; omega

/-- What the first `n` wires carry after the cascade has reached them. -/
theorem index_sendAll_borrow (r : Register) (b : ℕ → Bool) (n : ℕ) :
    index n (fun q => Gate.sendAll ((List.range n).map (r.borrowGate : ℕ → Gate R)) b (r.wire q)) =
      (index n (fun q => b (r.wire q)) + 2 ^ n - 1) % 2 ^ n := by
  induction n with
  | zero => rfl
  | succ n ih =>
    set v := index n fun q => b (r.wire q) with hv
    set c := Gate.sendAll ((List.range n).map (r.borrowGate : ℕ → Gate R)) b with hc
    have hpos : 0 < 2 ^ n := by positivity
    have hlast : Gate.sendAll ((List.range (n + 1)).map (r.borrowGate : ℕ → Gate R)) b =
        (r.borrowGate n : Gate R).send c := by
      rw [List.range_succ, List.map_append, Gate.sendAll_append]
      rfl
    -- the wires above those that the cascade has reached are still as they were
    have htop : c (r.wire n) = b (r.wire n) := by
      refine Gate.sendAll_of_ne (fun g hg => ?_) b
      obtain ⟨i, hi, rfl⟩ := List.mem_map.mp hg
      rw [List.mem_range] at hi
      simp only [borrowGate, Gate.controlled, wire]
      omega
    have hlow : index n (fun q => (r.borrowGate n : Gate R).send c (r.wire q)) =
        index n (fun q => c (r.wire q)) := by
      refine index_congr fun q hq => Gate.send_of_ne ?_ _
      simp only [borrowGate, Gate.controlled, wire]
      omega
    have hbit : (r.borrowGate n : Gate R).send c (r.wire n) =
        if v = 0 then !b (r.wire n) else b (r.wire n) := by
      rw [send_borrowGate, ih]
      by_cases h : v = 0
      · rw [if_pos ((pred_eq_max hpos (index_lt _ _)).mpr h), if_pos h, Function.update_self, htop]
      · rw [if_neg (mt (pred_eq_max hpos (index_lt _ _)).mp h), if_neg h, htop]
    rw [hlast, index_succ, hlow, ih, hbit, index_succ, pow_succ]
    exact pred_digit hpos (index_lt _ _) _

/-- **The cascade from the bottom up subtracts one.** -/
theorem sendAll_borrow (r : Register) (b : ℕ → Bool) :
    Gate.sendAll (r.borrowGates : List (Gate R)) b = r.put b (r.read b + 2 ^ r.width - 1) := by
  refine eq_put (fun q hq => Gate.sendAll_of_ne (fun g hg => ?_) b)
    (index_sendAll_borrow r b r.width)
  exact ne_of_mem_of_not_mem (target_mem_of_borrowGates hg) hq

/-- **The cascade from the top down adds one.** -/
theorem sendAll_carry (r : Register) (b : ℕ → Bool) :
    Gate.sendAll (r.borrowGates : List (Gate R)).reverse b = r.put b (r.read b + 1) := by
  have hundo : Gate.sendAll (r.borrowGates : List (Gate R)) (r.put b (r.read b + 1)) = b := by
    rw [sendAll_borrow, put_put, read_put]
    refine (eq_put (fun q _ => rfl) ?_).symm
    have hlt := r.read_lt b
    have hmod : (r.read b + 1) % 2 ^ r.width + 2 ^ r.width - 1 =
        (r.read b + 1) % 2 ^ r.width + (2 ^ r.width - 1) := by omega
    rw [hmod, Nat.mod_add_mod, show r.read b + 1 + (2 ^ r.width - 1) = r.read b + 2 ^ r.width by
      omega, Nat.add_mod_right, Nat.mod_eq_of_lt hlt]
  have e := Gate.sendAll_reverse (R := R)
    (fun g (hg : g ∈ r.borrowGates) => isFlip_borrowGates hg) (r.put b (r.read b + 1))
  rwa [hundo] at e

theorem fits_borrowGates {r : Register} {g : Gate R} (h : g ∈ r.borrowGates) {n : ℕ}
    (hn : r.stop ≤ n) : g.Fits n := by
  have hflip := isFlip_borrowGates h
  obtain ⟨i, hi, rfl⟩ := List.mem_map.mp h
  rw [List.mem_range] at hi
  have hlt : ∀ j ≤ i, r.wire j < n := by
    intro j hj
    unfold stop at hn
    unfold wire
    omega
  refine ⟨hlt i le_rfl, fun c hc => ?_, hflip.apart, ?_⟩
  · simp only [borrowGate, Gate.controlled, List.mem_map, List.mem_range] at hc
    obtain ⟨_, ⟨j, hj, rfl⟩, rfl⟩ := hc
    exact hlt j hj.le
  · simp only [borrowGate, Gate.controlled, List.map_map, Function.comp_def]
    exact List.nodup_range.map fun _ _ e => Nat.add_left_cancel e

end Register

end LatticeWalk
