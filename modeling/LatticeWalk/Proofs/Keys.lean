import LatticeWalk.Proofs.Exact
import LatticeWalk.Proofs.Layout
import LatticeWalk.Displacement.Decoder

/-! # Keys

A key writes a basis state down register by register, each from its highest wire down. The decoder
cuts the position registers out again, sorted by their dimensions, and reads each as a number. The
two agree on every layout (`Layout.decode_key`).

* `Register.slice_written`: what a key holds between the offsets of a register.
* `filter_mergeSort`: elements may be dropped before or after sorting.
* `Layout.pointOf`: the values of the position registers in order of their dimensions.
* `Layout.decode_single`: a histogram whose only outcome is the key of a basis state. -/

namespace LatticeWalk

/-! ### Slices of a key -/

namespace Register

/-- What a key holds of a register. -/
def written (i : ℕ) (r : Register) : List Char := Pattern.bitsOf (i >>> r.start) r.width

theorem length_written (i : ℕ) (r : Register) : (r.written i).length = r.width :=
  Pattern.length_bitsOf _ _

theorem slice_written {s : ℕ} {rs : List Register} (h : PackedFrom s rs) {r : Register}
    (hr : r ∈ rs) (i : ℕ) :
    ((rs.flatMap (written i)).take (r.stop - s)).drop (r.start - s) = r.written i := by
  induction rs generalizing s with
  | nil => cases hr
  | cons r' rs ih =>
    obtain ⟨hr', hrs⟩ := h
    rw [List.flatMap_cons]
    rcases List.mem_cons.mp hr with rfl | hr
    · rw [hr', Nat.sub_self, List.drop_zero]
      refine List.take_left' ?_
      rw [length_written, stop, hr']
      omega
    · obtain ⟨hlow, -⟩ := hrs.bounds hr
      have hlen := length_written i r'
      have hstop : r'.stop = s + r'.width := by rw [stop, hr']
      have hle : r'.width ≤ r.stop - s := by rw [stop]; omega
      rw [List.take_append, List.take_of_length_le (hlen.trans_le hle), List.drop_append,
        List.drop_eq_nil_of_le (by omega), List.nil_append, hlen, Nat.sub_sub, Nat.sub_sub, ← hstop]
      exact ih hrs hr

theorem value_written (i : ℕ) (r : Register) :
    Pattern.value (String.ofList (r.written i)) = r.valueIn i :=
  Pattern.value_ofValue _ _

end Register

/-! ### Layouts -/

namespace Layout

theorem toList_key (l : Layout) (i : ℕ) :
    (l.key i).toList = l.registers.flatMap (Register.written i) :=
  String.toList_ofList

theorem isPattern_key (l : Layout) (i : ℕ) : IsPattern (l.key i) l.width := by
  refine ⟨fun c hc => ?_, l.length_key i⟩
  rw [toList_key] at hc
  obtain ⟨r, -, hc⟩ := List.mem_flatMap.mp hc
  exact (Pattern.isPattern_ofValue (i >>> r.start) r.width).bits c
    (by rwa [Pattern.ofValue, String.toList_ofList])

variable {l : Layout}

theorem slice_key {r : Register} (hr : r ∈ l.registers) (i : ℕ) :
    ((l.key i).toList.take r.stop).drop r.start = r.written i := by
  rw [toList_key]
  exact Register.slice_written l.packed hr i

/-- Different basis states have different values in some register. -/
theorem eq_of_valueIn {i j : ℕ} (hi : i < 2 ^ l.width) (hj : j < 2 ^ l.width)
    (hvalue : ∀ r ∈ l.registers, r.valueIn i = r.valueIn j) : i = j := by
  refine Nat.eq_of_testBit_eq fun q => ?_
  by_cases hq : q < l.width
  · rw [width_eq] at hq
    obtain ⟨r, hr, hqr⟩ := l.packed.exists_mem (Nat.zero_le q) (hq.trans_eq (Nat.zero_add _).symm)
    have hread := hvalue r hr
    rw [← Register.read_testBit, ← Register.read_testBit] at hread
    exact Register.read_eq_iff.mp hread q hqr
  · have hpow : 2 ^ l.width ≤ 2 ^ q := Nat.pow_le_pow_right (by norm_num) (by omega)
    rw [Nat.testBit_lt_two_pow (hi.trans_le hpow), Nat.testBit_lt_two_pow (hj.trans_le hpow)]

/-- **Different basis states have different keys.** -/
theorem key_injOn {i j : ℕ} (hi : i < 2 ^ l.width) (hj : j < 2 ^ l.width)
    (hkey : l.key i = l.key j) : i = j := by
  refine eq_of_valueIn hi hj fun r hr => ?_
  rw [← Register.value_written, ← Register.value_written, ← slice_key hr, ← slice_key hr, hkey]

end Layout

/-! ### Sorting by dimension -/

section sort

variable {α : Type} {le : α → α → Bool}

/-- Two ways to cut a list where a property ends are the same. -/
theorem append_inj_of_forall {p : α → Bool} {as bs as' bs' : List α} (ha : ∀ x ∈ as, p x = true)
    (hb : ∀ x ∈ bs, p x = false) (ha' : ∀ x ∈ as', p x = true) (hb' : ∀ x ∈ bs', p x = false)
    (h : as ++ bs = as' ++ bs') : as = as' ∧ bs = bs' := by
  have hcut : ∀ {xs ys : List α}, (∀ x ∈ xs, p x = true) → (∀ x ∈ ys, p x = false) →
      (xs ++ ys).filter p = xs := by
    intro xs ys hx hy
    rw [List.filter_append, List.filter_eq_self.mpr hx,
      List.filter_eq_nil_iff.mpr (by simpa using hy), List.append_nil]
  have has : as = as' := by rw [← hcut ha hb, h, hcut ha' hb']
  subst has
  exact ⟨rfl, List.append_cancel_left h⟩

theorem filter_mergeSort (htrans : ∀ a b c, le a b = true → le b c = true → le a c = true)
    (htotal : ∀ a b, (le a b || le b a) = true) (p : α → Bool) (as : List α) :
    (as.mergeSort le).filter p = (as.filter p).mergeSort le := by
  induction as with
  | nil => simp
  | cons a as ih =>
    obtain ⟨low, high, hsort, hrest, hlow⟩ := List.mergeSort_cons htrans htotal a as
    have hsorted := List.pairwise_mergeSort htrans htotal (a :: as)
    rw [hsort] at hsorted
    have hhigh := (List.pairwise_cons.mp (List.pairwise_append.mp hsorted).2.1).1
    rw [hrest, List.filter_append] at ih
    rw [hsort, List.filter_append]
    by_cases hp : p a = true
    · obtain ⟨low', high', hsort', hrest', hlow'⟩ :=
        List.mergeSort_cons htrans htotal a (as.filter p)
      have hsorted' := List.pairwise_mergeSort htrans htotal (a :: as.filter p)
      rw [hsort'] at hsorted'
      have hhigh' := (List.pairwise_cons.mp (List.pairwise_append.mp hsorted').2.1).1
      -- both sorts put `a` before the first element that is not smaller
      obtain ⟨h1, h2⟩ := append_inj_of_forall (p := fun b => !le a b)
        (fun b hb => hlow b (List.mem_filter.mp hb).1)
        (fun b hb => by simp [hhigh b (List.mem_filter.mp hb).1]) hlow'
        (fun b hb => by simp [hhigh' b hb]) (ih.trans hrest')
      rw [List.filter_cons_of_pos hp, List.filter_cons_of_pos hp, h1, h2, hsort']
    · rw [List.filter_cons_of_neg hp, List.filter_cons_of_neg hp, ih]

end sort

namespace Layout

/-- The values of the position registers that have wires, in order of their dimensions. -/
def pointOf (l : Layout) (i : ℕ) : List ℕ :=
  (l.dimensionRegisters.filter fun r => r.width ≠ 0).map (·.valueIn i)

/-- The position registers that have wires, each with its dimension, in order of these. -/
def ordered (l : Layout) : List (ℕ × Register) :=
  ((l.registers.filterMap fun r => (dimensionOf r).map fun d => (d, r)).mergeSort
    fun a b => a.1 ≤ b.1).filter fun p => p.2.width ≠ 0

theorem map_ordered (l : Layout) :
    l.ordered.map Prod.snd = l.dimensionRegisters.filter fun r => r.width ≠ 0 := by
  rw [dimensionRegisters, List.filter_map]
  rfl

theorem pointOf_eq (l : Layout) (i : ℕ) : l.pointOf i = l.ordered.map (·.2.valueIn i) := by
  rw [pointOf, ← map_ordered, List.map_map]
  rfl

theorem stateSpans_eq (l : Layout) : l.stateSpans =
    l.ordered.map fun p => ⟨p.1, p.2.start, p.2.start + p.2.width - 1⟩ := by
  have hspans : l.registers.filterMap spanOf =
      ((l.registers.filterMap fun r => (dimensionOf r).map fun d => (d, r)).filter
        fun p => p.2.width ≠ 0).map fun p => ⟨p.1, p.2.start, p.2.start + p.2.width - 1⟩ := by
    induction l.registers with
    | nil => rfl
    | cons r rs ih =>
      cases hd : dimensionOf r <;> by_cases hw : r.width = 0 <;>
        simp [spanOf, hd, hw, ih]
  rw [stateSpans, hspans, ordered, filter_mergeSort (by simp; omega) (by simp; omega)]
  exact (List.map_mergeSort (by simp)).symm

theorem mem_ordered {l : Layout} {p : ℕ × Register} (hp : p ∈ l.ordered) :
    p.2 ∈ l.registers ∧ p.2.width ≠ 0 := by
  obtain ⟨hmem, hw⟩ := List.mem_filter.mp hp
  obtain ⟨r, hr, hd⟩ := List.mem_filterMap.mp (List.mem_mergeSort.mp hmem)
  obtain ⟨d, -, rfl⟩ := Option.map_eq_some_iff.mp hd
  exact ⟨hr, by simpa using hw⟩

end Layout

/-! ### Decoding -/

theorem Pattern.toValue_eq_ok {s : String} {n : ℕ} (h : IsPattern s n) (hn : n ≤ 64) :
    toValue s = .ok (value s) := by
  have hlimit : value s < Word.limit :=
    (value_lt_of h).trans_le (Nat.pow_le_pow_right (by norm_num) hn)
  rw [toValue, check_eq_ok.mpr h.bits]
  exact if_pos hlimit

theorem Pattern.eq_value_of_toValue {s : String} {v : ℕ} (h : toValue s = .ok v) : v = value s := by
  obtain ⟨_, -, h⟩ := Except.bind_eq_ok.mp h
  by_cases hlimit : valueFrom 0 s.toList < Word.limit
  · simp only [hlimit, if_true] at h
    exact (Except.ok.inj h).symm
  · simp only [hlimit, if_false] at h
    cases h

theorem Histogram.toList_record_empty (shots : ℕ) (key : String) (count : ℕ) :
    ((empty shots).record key count).toList = [(key, count)] := by
  simp [toList, record, empty, OrderedMap.alter, OrderedMap.empty, OrderedMap.alterEntries]

namespace Layout

theorem last_lt_stateBits {l : Layout} {span : Span} (h : span ∈ l.stateSpans) :
    span.last < (Decoder.ofLayout l).stateBits := by
  have hmem : span.last ∈ l.stateSpans.map Span.last := List.mem_map_of_mem h
  unfold Decoder.ofLayout lastStateBit?
  cases hmax : (l.stateSpans.map Span.last).max? with
  | none => rw [List.max?_eq_none_iff.mp hmax] at hmem; cases hmem
  | some last => exact Nat.lt_succ_of_le ((List.max?_eq_some_iff.mp hmax).2 _ hmem)

variable {l : Layout}

theorem stateBits_le : (Decoder.ofLayout l).stateBits ≤ l.width := by
  unfold Decoder.ofLayout lastStateBit?
  cases hmax : (l.stateSpans.map Span.last).max? with
  | none => exact Nat.zero_le _
  | some last =>
    obtain ⟨span, hspan, rfl⟩ := List.mem_map.mp (List.max?_eq_some_iff.mp hmax).1
    rw [stateSpans_eq] at hspan
    obtain ⟨p, hp, rfl⟩ := List.mem_map.mp hspan
    obtain ⟨hr, hw⟩ := mem_ordered hp
    have hstop := l.stop_le hr
    rw [Register.stop] at hstop
    show p.2.start + p.2.width - 1 + 1 ≤ l.width
    omega

theorem cutKey_key (i : ℕ) : (Decoder.ofLayout l).cutKey (l.key i) =
    .ok (String.ofList ((l.key i).toList.take (Decoder.ofLayout l).stateBits)) := by
  have hlen : ¬ (l.key i).length < (Decoder.ofLayout l).stateBits := by
    rw [(l.isPattern_key i).length]
    exact Nat.not_lt.mpr stateBits_le
  rw [Decoder.cutKey, Pattern.check_eq_ok.mpr (l.isPattern_key i).bits]
  exact if_neg hlen

/-- A cut key holds the value of every position register at its span. -/
theorem mapM_coordinate (hwidth : ∀ r ∈ l.registers, r.width ≤ 64) (i : ℕ) :
    (Decoder.ofLayout l).spans.mapM (Decoder.coordinate
        (String.ofList ((l.key i).toList.take (Decoder.ofLayout l).stateBits))) =
      .ok (l.pointOf i) := by
  have hspans : (Decoder.ofLayout l).spans =
      l.ordered.map fun p => ⟨p.1, p.2.start, p.2.start + p.2.width - 1⟩ := l.stateSpans_eq
  rw [hspans, pointOf_eq]
  refine Except.mapM_map_eq_ok fun p hp => ?_
  obtain ⟨hr, hw⟩ := mem_ordered hp
  have hlast : p.2.start + p.2.width - 1 < (Decoder.ofLayout l).stateBits :=
    last_lt_stateBits (by rw [stateSpans_eq]; exact List.mem_map_of_mem hp)
  have hstop : p.2.start + p.2.width - 1 + 1 = p.2.stop := by rw [Register.stop]; omega
  have hlen : (String.ofList ((l.key i).toList.take (Decoder.ofLayout l).stateBits)).length =
      (Decoder.ofLayout l).stateBits := by
    rw [String.length_ofList, List.length_take, String.length_toList, length_key]
    exact Nat.min_eq_left stateBits_le
  rw [Decoder.coordinate, hlen, if_pos hlast, String.toList_ofList, List.take_take, hstop,
    Nat.min_eq_left (by omega), slice_key hr, ← Register.value_written]
  exact Pattern.toValue_eq_ok (Pattern.isPattern_ofValue _ _) (hwidth _ hr)

/-- A histogram whose only outcome is the key of a basis state stands for one point. -/
theorem decode_single {R : Type} [Scalar R] (hwidth : ∀ r ∈ l.registers, r.width ≤ 64)
    {i count shots : ℕ} {hist : Histogram} (hlist : hist.toList = [(l.key i, count)])
    (htotal : hist.shots = count) (hshots : 0 < shots) :
    (Decoder.ofLayout l).decode hist shots = .ok (⟨(l.pointOf i).length,
      [⟨l.pointOf i, (count : R) / (shots : R)⟩], shots⟩ : Displacement R) := by
  set short := String.ofList ((l.key i).toList.take (Decoder.ofLayout l).stateBits) with hshort
  have hmerge : (Decoder.ofLayout l).merge hist =
      .ok ((Histogram.empty hist.shots).record short count) := by
    rw [Decoder.merge, hlist, Decoder.mergeInto, cutKey_key]
    rfl
  have hraw : hist.total = count := by
    have hvalues : hist.counts.values = [count] := congrArg (List.map Prod.snd) hlist
    rw [Histogram.total, hvalues]
    rfl
  have hmerged : ((Histogram.empty hist.shots).record short count).total = count := by
    rw [Histogram.total_record]
    exact Nat.zero_add _
  have hconserved : hist.checkConserved ((Histogram.empty hist.shots).record short count) =
      .ok () := by
    simp only [Histogram.checkConserved, hraw, hmerged]
    simp [htotal]
  have hlen : (Decoder.ofLayout l).spans.length = (l.pointOf i).length := by
    rw [pointOf_eq, List.length_map]
    exact (congrArg List.length l.stateSpans_eq).trans (List.length_map _)
  have hrow : (Decoder.ofLayout l).row shots (short, count) =
      .ok (⟨l.pointOf i, (count : R) / (shots : R)⟩ : DensityRow R) := by
    rw [Decoder.row, hshort, mapM_coordinate hwidth]
    rfl
  rw [Decoder.decode, if_neg hshots.ne', hmerge]
  simp only [bind, Except.bind, hconserved, Histogram.toList_record_empty, List.mapM_cons,
    List.mapM_nil, hrow, hlen]
  rfl

/-- **Decoding undoes keys.** In every layout of at most 64 wires, a basis state is written down as
a pattern of as many characters, no two basis states alike, and a histogram of that one outcome is
decoded to one row, which holds the value of each position register that has wires, in order of
their dimensions. -/
theorem decode_key {R : Type} [Scalar R] (requests : List (String × Role × ℕ))
    (hwidth : (after requests).width ≤ 64) {i : ℕ} (hi : i < 2 ^ (after requests).width) :
    IsPattern ((after requests).key i) (after requests).width ∧
      (∀ j < 2 ^ (after requests).width, (after requests).key j = (after requests).key i → j = i) ∧
      ∀ count > 0, ∀ shots > 0,
        let position := ((after requests).dimensionRegisters.filter fun r => r.width ≠ 0).map
          fun r => (i >>> r.start) % 2 ^ r.width
        (Decoder.ofLayout (after requests)).decode
            (.ofCounts [((after requests).key i, count)]) shots =
          .ok (⟨position.length, [⟨position, (count : R) / (shots : R)⟩], shots⟩ :
            Displacement R) := by
  refine ⟨isPattern_key _ i, fun j hj hkey => key_injOn hj hi hkey, ?_⟩
  intro count _ shots hshots
  have hwidths : ∀ r ∈ (after requests).registers, r.width ≤ 64 := by
    intro r hr
    have hstop := (after requests).stop_le hr
    rw [Register.stop] at hstop
    omega
  exact decode_single hwidths (Histogram.toList_record_empty _ _ _)
    (Nat.add_zero count) hshots

/-- A layout in which position registers stand in any order among others, some without wires. -/
theorem decode_key_interleaved : ∃ l : Layout,
    l = after [("coin", .coin, 2), ("y", .dimension 1, 3), ("spare", .dimension 2, 0),
      ("latch", .control 0, 1), ("x", .dimension 0, 2), ("y", .coin, 5)] ∧
    l.width = 8 ∧ l.key 0b10111001 = "01110110" ∧
    (Decoder.ofLayout l).decode (.ofCounts [(l.key 0b10111001, 3)]) 4 =
      .ok (⟨2, [⟨[2, 6], ((3 : ℕ) : ℝ) / ((4 : ℕ) : ℝ)⟩], 4⟩ : Displacement ℝ) := by
  obtain ⟨-, -, hdecode⟩ := decode_key (R := ℝ) [("coin", .coin, 2), ("y", .dimension 1, 3),
    ("spare", .dimension 2, 0), ("latch", .control 0, 1), ("x", .dimension 0, 2), ("y", .coin, 5)]
    (by decide) (i := 0b10111001) (by decide)
  have hposition : (((after [("coin", .coin, 2), ("y", .dimension 1, 3), ("spare", .dimension 2, 0),
      ("latch", .control 0, 1), ("x", .dimension 0, 2), ("y", .coin, 5)]).dimensionRegisters.filter
        fun r => r.width ≠ 0).map fun r => (0b10111001 >>> r.start) % 2 ^ r.width) = [2, 6] := by
    cbv
  refine ⟨_, rfl, by decide, by decide, ?_⟩
  have h := hdecode 3 (by decide) 4 (by decide)
  rw [hposition] at h
  exact h

end Layout

end LatticeWalk
