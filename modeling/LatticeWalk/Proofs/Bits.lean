import Mathlib
import LatticeWalk.Register

/-! # Bits, patterns and registers

Wires carry bits `b : ℕ → Bool`. Three things are read off them as numbers: the index of a basis
state, the value of a register and the value of a pattern.

* `index`: the number whose bits are those of the first wires.
* `Register.read`, `Register.put`: the value of a register, and the bits with another value in it.
* `IsPattern`: what `Pattern.checkWidth` accepts (`checkWidth_eq_ok`); `Pattern.value` is the number
  that a pattern spells, and `index_wireBits` reads it off the wires. -/

namespace LatticeWalk

open Function (update)

/-! ### The number of some bits -/

/-- The number with the bits of the first `n` wires. -/
def index (n : ℕ) (b : ℕ → Bool) : ℕ := Nat.ofBits fun q : Fin n => b q

theorem testBit_index (n : ℕ) (b : ℕ → Bool) (q : ℕ) :
    (index n b).testBit q = (decide (q < n) && b q) := by
  rw [index, Nat.testBit_ofBits]
  by_cases h : q < n <;> simp [h]

theorem index_lt (n : ℕ) (b : ℕ → Bool) : index n b < 2 ^ n := Nat.ofBits_lt_two_pow _

theorem index_testBit (n i : ℕ) : index n i.testBit = i % 2 ^ n := Nat.ofBits_testBit i n

/-- Bits that are zero beyond the first `n` are those of their number. -/
theorem testBit_index_of_high {n : ℕ} {b : ℕ → Bool} (h : ∀ q, n ≤ q → b q = false) :
    (index n b).testBit = b := by
  funext q
  rw [testBit_index]
  by_cases hq : q < n
  · simp [hq]
  · simp [hq, h q (by omega)]

theorem index_congr {n : ℕ} {b c : ℕ → Bool} (h : ∀ q < n, b q = c q) : index n b = index n c := by
  refine Nat.eq_of_testBit_eq fun q => ?_
  rw [testBit_index, testBit_index]
  by_cases hq : q < n
  · rw [h q hq]
  · simp [hq]

theorem index_inj {n : ℕ} {b c : ℕ → Bool} : index n b = index n c ↔ ∀ q < n, b q = c q := by
  refine ⟨fun h q hq => ?_, index_congr⟩
  have e := congrArg (Nat.testBit · q) h
  simpa [testBit_index, hq] using e

theorem index_succ (n : ℕ) (b : ℕ → Bool) : index (n + 1) b = 2 ^ n * (b n).toNat + index n b := by
  refine Nat.eq_of_testBit_eq fun q => ?_
  rw [testBit_index, Nat.testBit_two_pow_mul_add _ (index_lt n b), testBit_index]
  rcases Nat.lt_trichotomy q n with h | h | h
  · simp [h, Nat.lt_succ_of_lt h]
  · subst h; cases b q <;> simp
  · have h1 : ¬ q < n + 1 := by omega
    have h2 : ¬ q < n := by omega
    obtain ⟨d, rfl⟩ : ∃ d, q = n + 1 + d := ⟨q - (n + 1), by omega⟩
    rw [if_neg h2, show n + 1 + d - n = d + 1 by omega, decide_eq_false h1]
    cases b n <;> simp [Nat.testBit_succ]

/-- All bits are one if and only if the number is the greatest. -/
theorem index_eq_max {n : ℕ} {b : ℕ → Bool} : index n b = 2 ^ n - 1 ↔ ∀ q < n, b q = true := by
  have h : index n (fun _ => true) = 2 ^ n - 1 := by
    refine Nat.eq_of_testBit_eq fun q => ?_
    rw [testBit_index, Nat.testBit_two_pow_sub_one, Bool.and_true]
  rw [← h]
  exact index_inj

theorem index_extend {n k : ℕ} {i j : ℕ} (hj : j < 2 ^ n) :
    index (n + k) (Function.extend (· + k) j.testBit i.testBit) = 2 ^ k * j + i % 2 ^ k := by
  have hk : i % 2 ^ k < 2 ^ k := Nat.mod_lt _ (by positivity)
  refine Nat.eq_of_testBit_eq fun q => ?_
  rw [testBit_index, Nat.testBit_two_pow_mul_add _ hk]
  by_cases h : q < k
  · have hne : ¬ ∃ a, a + k = q := by omega
    rw [if_pos h, Function.extend_apply' _ _ _ hne, Nat.testBit_mod_two_pow]
    simp [h, show q < n + k by omega]
  · obtain ⟨d, rfl⟩ : ∃ d, q = d + k := ⟨q - k, by omega⟩
    rw [if_neg h, (add_left_injective k).extend_apply, Nat.add_sub_cancel]
    by_cases hd : d < n
    · simp [hd]
    · have hbit : j.testBit d = false :=
        Nat.testBit_lt_two_pow (hj.trans_le (Nat.pow_le_pow_right (by norm_num) (by omega)))
      simp [hd, hbit]

/-- The bits of a number are those of its remainder and of its quotient. -/
theorem extend_testBit_div (i k : ℕ) :
    Function.extend (· + k) (i / 2 ^ k).testBit i.testBit = i.testBit := by
  funext q
  by_cases h : q < k
  · exact Function.extend_apply' _ _ _ (by omega)
  · obtain ⟨d, rfl⟩ : ∃ d, q = d + k := ⟨q - k, by omega⟩
    rw [(add_left_injective k).extend_apply, Nat.testBit_div_two_pow]

/-! ### Registers -/

namespace Register

/-- The value that the wires of a register carry, wire 0 least significant. -/
def read (r : Register) (b : ℕ → Bool) : ℕ := index r.width fun q => b (r.start + q)

/-- The bits with the value `v` in a register. -/
def put (r : Register) (b : ℕ → Bool) (v : ℕ) : ℕ → Bool := fun q =>
  if r.start ≤ q ∧ q < r.stop then v.testBit (q - r.start) else b q

variable {r s : Register} {b c : ℕ → Bool}

theorem read_lt (r : Register) (b : ℕ → Bool) : r.read b < 2 ^ r.width := index_lt _ _

theorem nodup_wires (r : Register) : r.wires.Nodup :=
  List.nodup_range.map fun _ _ e => Nat.add_left_cancel e

theorem wire_mem {k : ℕ} (hk : k < r.width) : r.wire k ∈ r.wires :=
  List.mem_map_of_mem (List.mem_range.mpr hk)

/-- The value of a register in a basis state. -/
def valueIn (r : Register) (i : ℕ) : ℕ := (i >>> r.start) % 2 ^ r.width

theorem read_testBit (r : Register) (i : ℕ) : r.read i.testBit = r.valueIn i := by
  rw [read, valueIn, ← index_testBit]
  congr 1
  funext q
  rw [Nat.testBit_shiftRight]

theorem valueIn_index {n : ℕ} (h : r.stop ≤ n) (b : ℕ → Bool) :
    r.valueIn (index n b) = r.read b := by
  rw [← read_testBit, read, read]
  refine index_congr fun q hq => ?_
  have hlt : r.start + q < n := by
    unfold stop at h
    omega
  rw [testBit_index, decide_eq_true hlt, Bool.true_and]

theorem read_eq_iff : r.read b = r.read c ↔ ∀ q ∈ r.wires, b q = c q := by
  rw [read, read, index_inj]
  constructor
  · intro h q hq
    obtain ⟨h1, h2⟩ := mem_wires.mp hq
    have e := h (q - r.start) (by unfold stop at h2; omega)
    rwa [show r.start + (q - r.start) = q by omega] at e
  · intro h q hq
    exact h _ (mem_wires.mpr ⟨by omega, by unfold stop; omega⟩)

theorem read_congr (h : ∀ q ∈ r.wires, b q = c q) : r.read b = r.read c := read_eq_iff.mpr h

theorem read_update {t : ℕ} (h : t ∉ r.wires) (b : ℕ → Bool) (v : Bool) :
    r.read (update b t v) = r.read b :=
  read_congr fun _ hq => Function.update_of_ne (ne_of_mem_of_not_mem hq h) _ _

theorem testBit_read {k : ℕ} (hk : k < r.width) (b : ℕ → Bool) :
    (r.read b).testBit k = b (r.wire k) := by
  rw [read, testBit_index, decide_eq_true hk, Bool.true_and]
  rfl

theorem testBit_read_update {k : ℕ} (hk : k < r.width) (b : ℕ → Bool) (v : Bool) (q : ℕ) :
    (r.read (update b (r.wire k) v)).testBit q = if q = k then v else (r.read b).testBit q := by
  split_ifs with hq
  · subst hq
    rw [testBit_read hk, Function.update_self]
  · have hne : r.start + q ≠ r.wire k := by
      unfold wire
      omega
    rw [read, read, testBit_index, testBit_index, Function.update_of_ne hne]

theorem read_eq_zero (h : ∀ q ∈ r.wires, b q = false) : r.read b = 0 := by
  have hzero : r.read b = r.read (0 : ℕ).testBit :=
    read_congr fun q hq => (h q hq).trans (Nat.zero_testBit q).symm
  rw [hzero, read_testBit]
  simp [valueIn]

theorem read_put (r : Register) (b : ℕ → Bool) (v : ℕ) : r.read (r.put b v) = v % 2 ^ r.width := by
  rw [← index_testBit, read]
  refine index_congr fun q hq => ?_
  rw [put, if_pos ⟨by omega, by unfold stop; omega⟩]
  congr 1
  omega

theorem put_of_notMem {q : ℕ} (h : q ∉ r.wires) (b : ℕ → Bool) (v : ℕ) : r.put b v q = b q :=
  if_neg fun hq => h (mem_wires.mpr hq)

theorem eq_of_read_eq (hout : ∀ q ∉ r.wires, b q = c q) (h : r.read b = r.read c) : b = c := by
  funext q
  by_cases hq : q ∈ r.wires
  · exact read_eq_iff.mp h q hq
  · exact hout q hq

theorem put_put (r : Register) (b : ℕ → Bool) (u v : ℕ) : r.put (r.put b u) v = r.put b v := by
  refine eq_of_read_eq (r := r) (fun q hq => ?_) (by rw [read_put, read_put])
  rw [put_of_notMem hq, put_of_notMem hq, put_of_notMem hq]

/-- The bits with another value in a register are the only ones that carry it and agree outside. -/
theorem eq_put (hout : ∀ q ∉ r.wires, c q = b q) {v : ℕ} (h : r.read c = v % 2 ^ r.width) :
    c = r.put b v :=
  eq_of_read_eq (fun q hq => by rw [hout q hq, put_of_notMem hq]) (by rw [h, read_put])

end Register

/-! ### Patterns -/

/-- The text has `n` characters, all of them zeros and ones. -/
structure IsPattern (s : String) (n : ℕ) : Prop where
  bits : ∀ c ∈ s.toList, Pattern.isBit c = true
  length : s.length = n

namespace Pattern

theorem check_eq_ok {s : String} : check s = .ok () ↔ ∀ c ∈ s.toList, isBit c = true := by
  unfold check
  cases h : s.toList.find? fun c => !isBit c with
  | none => simpa using h
  | some bad =>
    have hbad := List.find?_some h
    have hmem := List.mem_of_find?_eq_some h
    simp only [refuse, reduceCtorEq, false_iff, not_forall]
    exact ⟨bad, hmem, by simpa using hbad⟩

theorem checkWidth_eq_ok {s what : String} {n : ℕ} :
    checkWidth s n what = .ok () ↔ IsPattern s n := by
  unfold checkWidth
  cases h : check s with
  | error e =>
    refine ⟨nofun, fun hp => ?_⟩
    rw [check_eq_ok.mpr hp.bits] at h
    cases h
  | ok u =>
    have hbits := check_eq_ok.mp h
    by_cases hl : s.length = n
    · have hp : IsPattern s n := ⟨hbits, hl⟩
      simp [bind, Except.bind, hl, hp]
    · have hp : ¬ IsPattern s n := fun hp => hl hp.length
      simp [bind, Except.bind, hl, refuse, hp]

/-- The number that a pattern spells. -/
def value (s : String) : ℕ := valueFrom 0 s.toList

theorem length_wireBits_of {s : String} {n : ℕ} (h : IsPattern s n) : (wireBits s).length = n := by
  rw [length_wireBits, h.length]

theorem wireBits_append (s t : String) : wireBits (s ++ t) = wireBits t ++ wireBits s := by
  simp [wireBits]

theorem index_wireBits (s : String) :
    index s.length (fun q => (wireBits s).getD q false) = value s := by
  rw [value, wireBits, ← String.length_toList]
  generalize s.toList = cs
  induction cs with
  | nil => rfl
  | cons c cs ih =>
    have hfront : index cs.length (fun q =>
        (((c :: cs).reverse.map (· == '1')).getD q false)) = valueFrom 0 cs := by
      rw [← ih]
      refine index_congr fun q hq => ?_
      have hq' : q < (cs.reverse.map (· == '1')).length := by simpa using hq
      simp only [List.reverse_cons, List.map_append]
      rw [List.getD_append _ _ _ _ hq']
    have hlast : (((c :: cs).reverse.map (· == '1')).getD cs.length false) = (c == '1') := by
      simp only [List.reverse_cons, List.map_append]
      rw [List.getD_append_right _ _ _ _ (by simp)]
      simp
    rw [List.length_cons, index_succ, hfront, hlast, valueFrom, valueFrom_eq (2 * 0 + _) cs]
    by_cases h : c == '1' <;> simp [h]

theorem value_lt (s : String) : value s < 2 ^ s.length := by
  rw [← index_wireBits]; exact index_lt _ _

theorem value_lt_of {s : String} {n : ℕ} (h : IsPattern s n) : value s < 2 ^ n :=
  h.length ▸ value_lt s

theorem isPattern_ones (n : ℕ) : IsPattern (ones n) n := by
  refine ⟨fun c hc => ?_, by simp [ones, Text.replicate]⟩
  simp only [ones, Text.replicate, String.toList_ofList, List.mem_replicate] at hc
  rw [hc.2]; rfl

theorem isPattern_append {s t : String} {n m : ℕ} (hs : IsPattern s n) (ht : IsPattern t m) :
    IsPattern (s ++ t) (n + m) := by
  refine ⟨fun c hc => ?_, by rw [String.length_append, hs.length, ht.length]⟩
  rw [String.toList_append, List.mem_append] at hc
  exact hc.elim (hs.bits c) (ht.bits c)

theorem isPattern_of_append {s t : String} {n m : ℕ} (hs : IsPattern s n)
    (h : IsPattern (s ++ t) (n + m)) : IsPattern t m := by
  refine ⟨fun c hc => h.bits c ?_, ?_⟩
  · rw [String.toList_append]
    exact List.mem_append_right _ hc
  · have hlen := h.length
    rw [String.length_append, hs.length] at hlen
    omega

theorem isPattern_ofValue (v n : ℕ) : IsPattern (ofValue v n) n := by
  refine ⟨fun c hc => ?_, by simp [ofValue, length_bitsOf]⟩
  simp only [ofValue, String.toList_ofList, bitsOf, List.mem_map] at hc
  obtain ⟨i, -, rfl⟩ := hc
  unfold bitChar
  split <;> rfl

theorem wireBits_ofValue (v n : ℕ) : wireBits (ofValue v n) = (List.range n).map v.testBit := by
  simp only [wireBits, ofValue, String.toList_ofList, bitsOf, List.map_reverse,
    List.reverse_reverse, List.map_map]
  refine List.map_congr_left fun i _ => ?_
  simp only [Function.comp_apply, bitChar]
  cases v.testBit i <;> rfl

theorem read_eq_value {r : Register} {s : String} (h : IsPattern s r.width) {b : ℕ → Bool} :
    r.read b = value s ↔ ∀ q < r.width, b (r.wire q) = (wireBits s).getD q false := by
  rw [← index_wireBits, h.length, Register.read, index_inj]
  rfl

theorem mem_wires {v : Bool} {s : String} {q : ℕ} :
    q ∈ wires v s ↔ q < s.length ∧ (wireBits s).getD q false = v := by
  simp only [wires, List.mem_map, List.mem_filter, List.mem_zipIdx_iff_getElem?, Prod.exists,
    beq_iff_eq]
  constructor
  · rintro ⟨u, _, ⟨hq, rfl⟩, rfl⟩
    obtain ⟨hlt, hu⟩ := List.getElem?_eq_some_iff.mp hq
    rw [length_wireBits] at hlt
    exact ⟨hlt, by rw [List.getD_eq_getElem?_getD, hq]; rfl⟩
  · rintro ⟨hlt, hv⟩
    have hlt' : q < (wireBits s).length := by rwa [length_wireBits]
    rw [List.getD_eq_getElem _ _ hlt'] at hv
    exact ⟨v, q, ⟨by rw [List.getElem?_eq_getElem hlt', hv], rfl⟩, rfl⟩

theorem nodup_wires (v : Bool) (s : String) : (wires v s).Nodup := by
  refine List.Nodup.sublist (List.Sublist.map Prod.snd List.filter_sublist) ?_
  rw [List.zipIdx_eq_zip_range', List.map_snd_zip (by simp)]
  exact List.nodup_range'

theorem toList_eq {s : String} {n : ℕ} (h : IsPattern s n) :
    s.toList = (wireBits s).reverse.map bitChar := by
  rw [wireBits, ← List.map_reverse, List.reverse_reverse, List.map_map]
  refine (List.map_id s.toList).symm.trans (List.map_congr_left fun c hc => ?_)
  have hc' := h.bits c hc
  simp only [isBit, Bool.or_eq_true, beq_iff_eq] at hc'
  rcases hc' with rfl | rfl <;> rfl

/-- The first wires spell a pattern if they carry its bits. -/
theorem ofValue_eq_iff {s : String} {n : ℕ} (h : IsPattern s n) (v : ℕ) :
    ofValue v n = s ↔ (List.range n).map v.testBit = wireBits s := by
  rw [← wireBits_ofValue]
  constructor
  · rintro rfl; rfl
  · intro e
    rw [← String.toList_inj, toList_eq (isPattern_ofValue v n), toList_eq h, e]

theorem value_ofValue (v n : ℕ) : value (ofValue v n) = v % 2 ^ n := by
  rw [← index_wireBits, (isPattern_ofValue v n).length, wireBits_ofValue, ← index_testBit]
  refine index_congr fun q hq => ?_
  rw [List.getD_eq_getElem _ _ (by simpa using hq)]
  simp

theorem wireBits_ones (n : ℕ) : wireBits (ones n) = List.replicate n true := by
  simp [wireBits, ones, Text.replicate]

theorem wireBits_zeros (n : ℕ) : wireBits (zeros n) = List.replicate n false := by
  simp [wireBits, zeros, Text.replicate]

theorem value_ones (n : ℕ) : value (ones n) = 2 ^ n - 1 := by
  rw [← index_wireBits, (isPattern_ones n).length, index_eq_max]
  intro q hq
  simp [wireBits_ones, hq]

end Pattern

end LatticeWalk
