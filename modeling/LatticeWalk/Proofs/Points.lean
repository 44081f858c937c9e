import LatticeWalk.Proofs.Merging
import LatticeWalk.Proofs.Placement
import LatticeWalk.Walk.Results

/-! # The points that keys spell

The position registers of a walk stand in front of all others, in order of their dimensions. So a
key begins with one slice for each dimension, and the numbers that these slices spell are the point
that the decoder reads off.

* `Pattern.spelled`: the numbers that consecutive slices spell; `Pattern.spelled_inj` says that no
  other bits spell them.
* `Decoder.Cuts`: a decoder that reads the slices of given widths and nothing else, as far as their
  numbers fit a word; `Decoder.Splits`: it reads all of them.
* `Layout.cuts_ofLayout`, `Layout.splits_ofLayout`: the decoder of packed position registers does.
* `Walk.cuts_of_build`, `Walk.splits_of_build`: so does the decoder of a walk. -/

namespace LatticeWalk

/-! ### Slices of fixed widths -/

namespace Pattern

theorem value_inj {s t : String} {n : ℕ} (hs : IsPattern s n) (ht : IsPattern t n) :
    value s = value t ↔ s = t := by
  refine ⟨fun h => ?_, congrArg value⟩
  rw [← index_wireBits, ← index_wireBits, hs.length, ht.length, index_inj] at h
  have hbits : wireBits s = wireBits t := by
    refine List.ext_getElem ?_ fun q hq hq' => ?_
    · rw [length_wireBits_of hs, length_wireBits_of ht]
    · have hbit := h q (hq.trans_eq (length_wireBits_of hs))
      rwa [List.getD_eq_getElem _ _ hq, List.getD_eq_getElem _ _ hq'] at hbit
  rw [← String.toList_inj, toList_eq hs, toList_eq ht, hbits]

/-- The numbers that consecutive slices of a text spell. -/
def spelled : List ℕ → List Char → List ℕ
  | [], _ => []
  | width :: widths, cs => valueFrom 0 (cs.take width) :: spelled widths (cs.drop width)

theorem length_spelled (widths : List ℕ) (cs : List Char) :
    (spelled widths cs).length = widths.length := by
  induction widths generalizing cs with
  | nil => rfl
  | cons width widths ih => rw [spelled, List.length_cons, ih, List.length_cons]

/-- What follows the slices does not matter. -/
theorem spelled_take {widths : List ℕ} {n : ℕ} (h : widths.sum ≤ n) (cs : List Char) :
    spelled widths (cs.take n) = spelled widths cs := by
  induction widths generalizing n cs with
  | nil => rfl
  | cons width widths ih =>
    rw [List.sum_cons] at h
    rw [spelled, List.take_take, Nat.min_eq_left (by omega), List.drop_take, ih (by omega), spelled]

theorem spelled_lt {widths : List ℕ} {cs : List Char} {d width x : ℕ}
    (hwidth : widths[d]? = some width) (hx : (spelled widths cs)[d]? = some x) : x < 2 ^ width := by
  induction widths generalizing cs d with
  | nil => cases hwidth
  | cons _ widths ih =>
    cases d with
    | zero =>
      cases hwidth
      cases hx
      have hvalue := value_lt (String.ofList (cs.take width))
      rw [value, String.toList_ofList, String.length_ofList, List.length_take] at hvalue
      exact hvalue.trans_le (Nat.pow_le_pow_right (by norm_num) (Nat.min_le_left _ _))
    | succ d => exact ih (by simpa using hwidth) (by simpa [spelled] using hx)

/-- **Slices spell the same numbers if and only if they are the same bits.** -/
theorem spelled_inj {widths : List ℕ} {cs cs' : List Char} (hbits : ∀ c ∈ cs, isBit c = true)
    (hbits' : ∀ c ∈ cs', isBit c = true) (hlen : widths.sum ≤ cs.length)
    (hlen' : widths.sum ≤ cs'.length) :
    spelled widths cs = spelled widths cs' ↔ cs.take widths.sum = cs'.take widths.sum := by
  induction widths generalizing cs cs' with
  | nil => simp [spelled]
  | cons width widths ih =>
    rw [List.sum_cons] at hlen hlen' ⊢
    have hslice : ∀ {ds : List Char}, (∀ c ∈ ds, isBit c = true) → width ≤ ds.length →
        IsPattern (String.ofList (ds.take width)) width := by
      intro ds hds hwidth
      refine ⟨fun c hc => hds c (List.mem_of_mem_take (String.toList_ofList ▸ hc)), ?_⟩
      rw [String.length_ofList, List.length_take, Nat.min_eq_left hwidth]
    have hhead := value_inj (hslice hbits (by omega)) (hslice hbits' (by omega))
    rw [value, value, String.toList_ofList, String.toList_ofList, String.ofList_inj] at hhead
    have hrest : ∀ {ds : List Char}, width + widths.sum ≤ ds.length →
        widths.sum ≤ (ds.drop width).length := by
      intro ds hds
      rw [List.length_drop]
      omega
    have htail := ih (fun c hc => hbits c (List.mem_of_mem_drop hc))
      (fun c hc => hbits' c (List.mem_of_mem_drop hc)) (hrest hlen) (hrest hlen')
    have hheads : (cs.take width).length = (cs'.take width).length := by
      rw [List.length_take, List.length_take]
      omega
    rw [spelled, spelled, List.cons.injEq, hhead, htail, List.take_add, List.take_add]
    constructor
    · rintro ⟨h1, h2⟩
      rw [h1, h2]
    · exact fun h => List.append_inj h hheads

end Pattern

/-! ### Decoders that read slices -/

/-- The decoder reads consecutive slices of these widths from the front of a key. It may refuse
numbers. -/
structure Decoder.Cuts (d : Decoder) (widths : List ℕ) : Prop where
  stateBits : d.stateBits = widths.sum
  spans : d.spans.length = widths.length
  spelled : ∀ key, IsPattern key widths.sum → ∀ point,
    d.spans.mapM (Decoder.coordinate key) = .ok point → point = Pattern.spelled widths key.toList

/-- The decoder reads consecutive slices of these widths from the front of a key. -/
structure Decoder.Splits (d : Decoder) (widths : List ℕ) : Prop extends d.Cuts widths where
  coordinates : ∀ key, IsPattern key widths.sum →
    d.spans.mapM (Decoder.coordinate key) = .ok (Pattern.spelled widths key.toList)

theorem Register.PackedFrom.spelled_eq {s : ℕ} {rs : List Register} (h : PackedFrom s rs)
    (cs : List Char) : Pattern.spelled (rs.map width) (cs.drop s) =
      rs.map fun r => Pattern.valueFrom 0 ((cs.take r.stop).drop r.start) := by
  induction rs generalizing s with
  | nil => rfl
  | cons r rs ih =>
    obtain ⟨hr, hrs⟩ := h
    have hstop : r.stop - r.start = r.width := by rw [stop, Nat.add_sub_cancel_left]
    rw [List.map_cons, List.map_cons, Pattern.spelled, List.drop_take, hstop, hr, List.drop_drop,
      ← ih hrs, stop, hr]

namespace Layout

variable {l : Layout} (h : Register.PackedFrom 0 (l.ordered.map Prod.snd))
include h

theorem stateBits_ofLayout :
    (Decoder.ofLayout l).stateBits = ((l.ordered.map Prod.snd).map Register.width).sum := by
  apply le_antisymm
  · unfold Decoder.ofLayout lastStateBit?
    cases hmax : (l.stateSpans.map Span.last).max? with
    | none => exact Nat.zero_le _
    | some last =>
      obtain ⟨span, hspan, rfl⟩ := List.mem_map.mp (List.max?_eq_some_iff.mp hmax).1
      rw [stateSpans_eq] at hspan
      obtain ⟨p, hp, rfl⟩ := List.mem_map.mp hspan
      have hstop := (h.bounds (List.mem_map_of_mem hp)).2
      have hw := (mem_ordered hp).2
      rw [Register.stop] at hstop
      show p.2.start + p.2.width - 1 + 1 ≤ _
      omega
  · rcases Nat.eq_zero_or_pos ((l.ordered.map Prod.snd).map Register.width).sum with hzero | hpos
    · exact hzero.trans_le (Nat.zero_le _)
    · obtain ⟨r, hr, hlast⟩ := h.exists_mem (Nat.zero_le _)
        (show ((l.ordered.map Prod.snd).map Register.width).sum - 1 < 0 + _ by omega)
      obtain ⟨p, hp, rfl⟩ := List.mem_map.mp hr
      have hspan : p.2.start + p.2.width - 1 < (Decoder.ofLayout l).stateBits :=
        last_lt_stateBits (by rw [stateSpans_eq]; exact List.mem_map_of_mem hp)
      have hlt := (Register.mem_wires.mp hlast).2
      rw [Register.stop] at hlt
      omega

/-- The slice of a key that belongs to a register. -/
def slice (r : Register) (key : String) : String :=
  String.ofList ((key.toList.take r.stop).drop r.start)

/-- The place of a register in a key. -/
def span (p : ℕ × Register) : Span := ⟨p.1, p.2.start, p.2.start + p.2.width - 1⟩

theorem coordinate_span {p : ℕ × Register} (hp : p ∈ l.ordered) {key : String}
    (hkey : IsPattern key ((l.ordered.map Prod.snd).map Register.width).sum) :
    Decoder.coordinate key (span p) = Pattern.toValue (slice p.2 key) ∧
      IsPattern (slice p.2 key) p.2.width := by
  have hw := (mem_ordered hp).2
  have hstop : p.2.stop ≤ key.length :=
    ((h.bounds (List.mem_map_of_mem hp)).2.trans_eq (Nat.zero_add _)).trans_eq hkey.length.symm
  have hlast : p.2.start + p.2.width - 1 + 1 = p.2.stop := by rw [Register.stop]; omega
  have hcovered : p.2.start + p.2.width - 1 < key.length := by omega
  refine ⟨?_, fun c hc => ?_, ?_⟩
  · rw [Decoder.coordinate, span, if_pos hcovered, hlast]
    rfl
  · rw [slice, String.toList_ofList] at hc
    exact hkey.bits c (List.mem_of_mem_take (List.mem_of_mem_drop hc))
  · rw [slice, String.length_ofList, List.length_drop, List.length_take, String.length_toList,
      Nat.min_eq_left hstop, Register.stop, Nat.add_sub_cancel_left]

/-- The slices of all position registers spell the point. -/
theorem spelled_eq_slices (key : String) :
    Pattern.spelled ((l.ordered.map Prod.snd).map Register.width) key.toList =
      l.ordered.map fun p => Pattern.value (slice p.2 key) := by
  have hspelled := h.spelled_eq key.toList
  rw [List.drop_zero, List.map_map (g := fun r => Pattern.valueFrom 0 _)] at hspelled
  rw [hspelled]
  refine List.map_congr_left fun p _ => ?_
  rw [slice, Pattern.value, String.toList_ofList]
  rfl

/-- **The decoder of packed position registers reads one slice for each of them**, as far as they
fit a word. -/
theorem cuts_ofLayout :
    (Decoder.ofLayout l).Cuts ((l.ordered.map Prod.snd).map Register.width) where
  stateBits := stateBits_ofLayout h
  spans := by
    rw [List.length_map, List.length_map]
    exact (congrArg List.length l.stateSpans_eq).trans (List.length_map _)
  spelled key hkey point hpoint := by
    have hspans : (Decoder.ofLayout l).spans = l.ordered.map span := l.stateSpans_eq
    rw [hspans, List.mapM_map] at hpoint
    rw [spelled_eq_slices h]
    refine Except.eq_map_of_mapM hpoint fun p hp x hx => ?_
    rw [Function.comp_apply, (coordinate_span h hp hkey).1] at hx
    exact Pattern.eq_value_of_toValue hx

/-- **It reads all of them** if the registers fit a word. -/
theorem splits_ofLayout (hnarrow : ∀ p ∈ l.ordered, p.2.width ≤ 64) :
    (Decoder.ofLayout l).Splits ((l.ordered.map Prod.snd).map Register.width) where
  toCuts := cuts_ofLayout h
  coordinates key hkey := by
    have hspans : (Decoder.ofLayout l).spans = l.ordered.map span := l.stateSpans_eq
    rw [hspans, spelled_eq_slices h]
    refine Except.mapM_map_eq_ok fun p hp => ?_
    obtain ⟨hcoordinate, hslice⟩ := coordinate_span h hp hkey
    rw [hcoordinate, Pattern.toValue_eq_ok hslice (hnarrow p hp)]

end Layout

/-! ### Walks -/

section
variable {R : Type} [Scalar R] {spec : WalkSpec R} {w : Walk R} (hbuild : Walk.build spec = .ok w)
include hbuild

theorem Walk.ordered_of_build : w.plan.layout.ordered.map Prod.snd = w.plan.positions ∧
    Register.PackedFrom 0 (w.plan.layout.ordered.map Prod.snd) ∧
    (w.plan.layout.ordered.map Prod.snd).map Register.width = spec.widths := by
  have h := (build_eq_ok hbuild).1.plan
  have hp := WalkSpec.plan_placed (plan_of_build hbuild)
  have hordered := hp.map_ordered h
  have hall := w.plan.layout.packed
  rw [h.registers, Register.packedFrom_append] at hall
  exact ⟨hordered, hordered ▸ hall.1, by rw [hordered, h.positions]⟩

/-- **The decoder of a walk reads one slice for each dimension**, as far as they fit a word. -/
theorem Walk.cuts_of_build : w.decoder.Cuts spec.widths := by
  obtain ⟨-, hpacked, hwidths⟩ := ordered_of_build hbuild
  exact hwidths ▸ Layout.cuts_ofLayout hpacked

/-- **It reads all of them** if the registers fit a word. -/
theorem Walk.splits_of_build (hnarrow : ∀ width ∈ spec.widths, width ≤ 64) :
    w.decoder.Splits spec.widths := by
  obtain ⟨hordered, hpacked, hwidths⟩ := ordered_of_build hbuild
  have hsplits := Layout.splits_ofLayout hpacked fun p hmem =>
    hnarrow _ (hwidths ▸ List.mem_map_of_mem (List.mem_map_of_mem hmem))
  rwa [hwidths] at hsplits

end

end LatticeWalk
