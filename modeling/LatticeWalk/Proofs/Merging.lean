import LatticeWalk.Proofs.Layout
import LatticeWalk.Proofs.Lookup
import LatticeWalk.Displacement.Decoder

/-! # Merging

Cutting the keys of a histogram adds up the counts of keys that become equal, and nothing else.

* `Histogram.find?_recordAll`, `Histogram.total_recordAll`: what recording outcomes does to counts.
* `Decoder.Reads`, `Decoder.short`: the keys that can be cut, and what is left of them.
* `Decoder.merge_eq_ok`: which histograms can be merged, and the result.
* `Decoder.mem_merged`: a merged histogram counts each cut key as often as all keys that are cut to
  it.
* `Decoder.merge_merged`: a second time changes nothing.
* `Decoder.merge_adds_up`: all of this in terms of the keys that begin with a position. -/

namespace LatticeWalk

/-! ### Recording -/

namespace Histogram

/-- How often an outcome stands in a list of counts. -/
def tally (counts : List (String × ℕ)) (key : String) : ℕ :=
  ((counts.filter fun c => c.1 = key).map Prod.snd).sum

theorem tally_cons (c : String × ℕ) (counts : List (String × ℕ)) (key : String) :
    tally (c :: counts) key = (if c.1 = key then c.2 else 0) + tally counts key := by
  unfold tally
  by_cases h : c.1 = key <;> simp [h]

theorem find?_empty (shots : ℕ) (key : String) : (empty shots).find? key = none :=
  OrderedMap.find?_empty key

theorem find?_record (h : Histogram) (key key' : String) (count : ℕ) :
    (h.record key count).find? key' =
      if key' = key then some ((h.find? key).getD 0 + count) else h.find? key' :=
  OrderedMap.find?_alter _ _ _ _

theorem shots_recordAll (h : Histogram) (counts : List (String × ℕ)) :
    (h.recordAll counts).shots = h.shots := by
  induction counts generalizing h with
  | nil => rfl
  | cons c counts ih => exact (ih _).trans (shots_record h c.1 c.2)

theorem total_recordAll (h : Histogram) (counts : List (String × ℕ)) :
    (h.recordAll counts).total = h.total + (counts.map Prod.snd).sum := by
  induction counts generalizing h with
  | nil => rfl
  | cons c counts ih =>
    have hrest := ih (h.record c.1 c.2)
    rw [total_record] at hrest
    rw [List.map_cons, List.sum_cons, ← Nat.add_assoc]
    exact hrest

theorem find?_recordAll (h : Histogram) (counts : List (String × ℕ)) (key : String) :
    (h.recordAll counts).find? key =
      if key ∈ counts.map Prod.fst then some ((h.find? key).getD 0 + tally counts key)
      else h.find? key := by
  induction counts generalizing h with
  | nil => rfl
  | cons c counts ih =>
    have hrest := ih (h.record c.1 c.2)
    rw [find?_record] at hrest
    refine hrest.trans ?_
    simp only [tally_cons, List.map_cons, List.mem_cons]
    by_cases hkey : key = c.1
    · subst hkey
      have hfind : ∀ hmem : c.1 ∉ counts.map Prod.fst, tally counts c.1 = 0 := by
        intro hmem
        have hnone : counts.filter (fun x => x.1 = c.1) = [] := by
          refine List.filter_eq_nil_iff.mpr fun x hx => ?_
          have hne : x.1 ≠ c.1 := fun he => hmem (he ▸ List.mem_map_of_mem hx)
          simpa using hne
        rw [tally, hnone]
        rfl
      by_cases hmem : c.1 ∈ counts.map Prod.fst
      · simp [hmem, Nat.add_assoc]
      · simp [hmem, hfind hmem]
    · have hne : ¬ c.1 = key := fun he => hkey he.symm
      by_cases hmem : key ∈ counts.map Prod.fst
      · rw [if_pos hmem, if_pos (Or.inr hmem), if_neg hkey, if_neg hne, Nat.zero_add]
      · rw [if_neg hmem, if_neg (not_or.mpr ⟨hkey, hmem⟩), if_neg hkey]

theorem ext_find? {h h' : Histogram} (hfind : ∀ key, h.find? key = h'.find? key)
    (hshots : h.shots = h'.shots) : h = h' := by
  obtain ⟨counts, shots⟩ := h
  obtain ⟨counts', shots'⟩ := h'
  obtain rfl : counts = counts' := OrderedMap.ext_find? hfind
  obtain rfl : shots = shots' := hshots
  rfl

theorem mem_toList (h : Histogram) (key : String) (count : ℕ) :
    (key, count) ∈ h.toList ↔ h.find? key = some count := h.counts.mem_entries key count

theorem mem_keys (h : Histogram) (key : String) :
    key ∈ h.keys ↔ ∃ count, h.find? key = some count := by
  rw [keys, OrderedMap.keys, List.mem_map]
  constructor
  · rintro ⟨⟨key, count⟩, hmem, rfl⟩
    exact ⟨count, (h.mem_toList key count).mp hmem⟩
  · rintro ⟨count, hfind⟩
    exact ⟨(key, count), (h.mem_toList key count).mpr hfind, rfl⟩

theorem mem_keys_recordAll {h : Histogram} {counts : List (String × ℕ)} {key : String} :
    key ∈ (h.recordAll counts).keys ↔ key ∈ h.keys ∨ key ∈ counts.map Prod.fst := by
  rw [mem_keys, mem_keys, find?_recordAll]
  split_ifs with hmem <;> simp [hmem]

theorem nodup_keys (h : Histogram) : h.keys.Nodup :=
  List.pairwise_map.mpr (h.counts.ascending.imp ne_of_lt)

theorem tally_toList (h : Histogram) (key : String) :
    tally h.toList key = (h.find? key).getD 0 := by
  have hkeys : (h.toList.map Prod.fst).Nodup := h.nodup_keys
  rw [find?, OrderedMap.find?]
  change tally h.toList key = (h.toList.lookup key).getD 0
  generalize h.toList = counts at hkeys ⊢
  induction counts with
  | nil => rfl
  | cons c counts ih =>
    rw [List.map_cons, List.nodup_cons] at hkeys
    rw [tally_cons, ih hkeys.2, List.lookup_cons]
    by_cases hkey : c.1 = key
    · subst hkey
      have hnone : counts.lookup c.1 = none := by
        rw [List.lookup_eq_none_iff]
        intro x hx
        have hne : c.1 ≠ x.1 := fun he => hkeys.1 (he ▸ List.mem_map_of_mem hx)
        simpa using hne
      simp [hnone]
    · have hne : (key == c.1) = false := by simpa using Ne.symm hkey
      simp [hkey, hne]

theorem recordAll_toList (h : Histogram) : (empty h.shots).recordAll h.toList = h := by
  refine ext_find? (fun key => ?_) (shots_recordAll _ _)
  have hkeys : h.toList.map Prod.fst = h.keys := rfl
  rw [find?_recordAll, find?_empty, tally_toList, hkeys]
  by_cases hmem : key ∈ h.keys
  · obtain ⟨count, hfind⟩ := (h.mem_keys key).mp hmem
    rw [if_pos hmem, hfind]
    simp
  · rw [if_neg hmem]
    cases hfind : h.find? key with
    | none => rfl
    | some count => exact absurd ((h.mem_keys key).mpr ⟨count, hfind⟩) hmem

theorem total_eq_sum (h : Histogram) : h.total = (h.toList.map Prod.snd).sum := rfl

end Histogram

/-! ### Cutting keys -/

namespace Decoder

variable {d : Decoder}

/-- The key can be cut: it is a pattern that covers the bits of the position. -/
def Reads (d : Decoder) (key : String) : Prop :=
  (∀ c ∈ key.toList, Pattern.isBit c = true) ∧ d.stateBits ≤ key.length

/-- What is left of a key that was cut. -/
def short (d : Decoder) (key : String) : String := String.ofList (key.toList.take d.stateBits)

theorem cutKey_eq_ok {key s : String} : d.cutKey key = .ok s ↔ d.Reads key ∧ s = d.short key := by
  unfold cutKey
  rw [Except.bind_eq_ok]
  constructor
  · rintro ⟨_, hcheck, hs⟩
    have hbits := Pattern.check_eq_ok.mp hcheck
    by_cases hlen : key.length < d.stateBits
    · rw [if_pos hlen] at hs
      cases hs
    · rw [if_neg hlen] at hs
      cases hs
      exact ⟨⟨hbits, Nat.not_lt.mp hlen⟩, rfl⟩
  · rintro ⟨⟨hbits, hlen⟩, rfl⟩
    exact ⟨(), Pattern.check_eq_ok.mpr hbits, if_neg (Nat.not_lt.mpr hlen)⟩

theorem isPattern_short {key : String} (h : d.Reads key) : IsPattern (d.short key) d.stateBits := by
  refine ⟨fun c hc => ?_, ?_⟩
  · rw [short, String.toList_ofList] at hc
    exact h.1 c (List.mem_of_mem_take hc)
  · rw [short, String.length_ofList, List.length_take, String.length_toList]
    exact Nat.min_eq_left h.2

theorem short_of_isPattern {key : String} (h : IsPattern key d.stateBits) : d.short key = key := by
  have hlen : key.toList.length ≤ d.stateBits := by rw [String.length_toList, h.length]
  rw [short, List.take_of_length_le hlen, String.ofList_toList]

theorem reads_of_isPattern {key : String} (h : IsPattern key d.stateBits) : d.Reads key :=
  ⟨h.bits, h.length.ge⟩

/-! ### The merged histogram -/

/-- Entries under their cut keys. -/
def cutAll (d : Decoder) (counts : List (String × ℕ)) : List (String × ℕ) :=
  counts.map fun c => (d.short c.1, c.2)

theorem mergeInto_eq_ok {counts : List (String × ℕ)} {h m : Histogram} :
    d.mergeInto h counts = .ok m ↔
      (∀ c ∈ counts, d.Reads c.1) ∧ m = h.recordAll (d.cutAll counts) := by
  induction counts generalizing h with
  | nil => simp [mergeInto, Histogram.recordAll, cutAll, eq_comm]
  | cons c counts ih =>
    obtain ⟨key, count⟩ := c
    rw [mergeInto, Except.bind_eq_ok]
    simp only [cutKey_eq_ok, ih, List.forall_mem_cons]
    constructor
    · rintro ⟨s, ⟨hkey, rfl⟩, hrest, rfl⟩
      exact ⟨⟨hkey, hrest⟩, rfl⟩
    · rintro ⟨⟨hkey, hrest⟩, rfl⟩
      exact ⟨_, ⟨hkey, rfl⟩, hrest, rfl⟩

/-- The histogram of the positions, of keys that can be cut. -/
def merged (d : Decoder) (h : Histogram) : Histogram :=
  (Histogram.empty h.shots).recordAll (d.cutAll h.toList)

/-- **Which histograms can be merged**, and what comes out. -/
theorem merge_eq_ok {h m : Histogram} :
    d.merge h = .ok m ↔ (∀ key ∈ h.keys, d.Reads key) ∧ m = d.merged h := by
  have hkeys : (∀ c ∈ h.toList, d.Reads c.1) ↔ ∀ key ∈ h.keys, d.Reads key :=
    List.forall_mem_map.symm
  rw [merge, mergeInto_eq_ok, hkeys]
  rfl

theorem shots_merged (d : Decoder) (h : Histogram) : (d.merged h).shots = h.shots :=
  Histogram.shots_recordAll _ _

theorem total_merged (d : Decoder) (h : Histogram) : (d.merged h).total = h.total := by
  have hsnd : (d.cutAll h.toList).map Prod.snd = h.toList.map Prod.snd := by
    rw [cutAll, List.map_map]
    rfl
  rw [merged, Histogram.total_recordAll, hsnd, ← Histogram.total_eq_sum]
  exact Nat.zero_add _

theorem keys_cutAll (d : Decoder) (h : Histogram) :
    (d.cutAll h.toList).map Prod.fst = h.keys.map d.short := by
  rw [cutAll, List.map_map, Histogram.keys, OrderedMap.keys, List.map_map]
  rfl

theorem find?_merged (h : Histogram) (key : String) : (d.merged h).find? key =
    if key ∈ h.keys.map d.short then some (Histogram.tally (d.cutAll h.toList) key) else none := by
  rw [merged, Histogram.find?_recordAll, keys_cutAll, Histogram.find?_empty, Option.getD_none,
    Nat.zero_add]

theorem mem_keys_merged {h : Histogram} {key : String} :
    key ∈ (d.merged h).keys ↔ key ∈ h.keys.map d.short := by
  rw [merged, Histogram.mem_keys_recordAll, keys_cutAll]
  exact or_iff_right List.not_mem_nil

theorem isPattern_merged {h : Histogram} (hreads : ∀ key ∈ h.keys, d.Reads key) {key : String}
    (hkey : key ∈ (d.merged h).keys) : IsPattern key d.stateBits := by
  obtain ⟨raw, hraw, rfl⟩ := List.mem_map.mp (mem_keys_merged.mp hkey)
  exact isPattern_short (hreads raw hraw)

/-- **A cut key is counted as often as all keys that are cut to it.** -/
theorem mem_merged {h : Histogram} {key : String} {count : ℕ} :
    (key, count) ∈ (d.merged h).toList ↔ key ∈ h.keys.map d.short ∧
      count = ((h.toList.filter fun c => d.short c.1 = key).map Prod.snd).sum := by
  have htally : Histogram.tally (d.cutAll h.toList) key =
      ((h.toList.filter fun c => d.short c.1 = key).map Prod.snd).sum := by
    rw [Histogram.tally, cutAll, List.filter_map, List.map_map]
    rfl
  rw [Histogram.mem_toList, find?_merged, htally]
  split_ifs with hmem <;> simp [hmem, eq_comm]

/-- **Merging a second time changes nothing.** -/
theorem merge_merged {h : Histogram} (hreads : ∀ key ∈ h.keys, d.Reads key) :
    d.merge (d.merged h) = .ok (d.merged h) := by
  have hpattern : ∀ c ∈ (d.merged h).toList, IsPattern c.1 d.stateBits := fun c hc =>
    isPattern_merged hreads (List.mem_map_of_mem hc)
  have hcut : d.cutAll (d.merged h).toList = (d.merged h).toList := by
    refine (List.map_congr_left fun c hc => ?_).trans (List.map_id _)
    rw [short_of_isPattern (hpattern c hc)]
    rfl
  refine merge_eq_ok.mpr
    ⟨List.forall_mem_map.mpr fun c hc => reads_of_isPattern (hpattern c hc), ?_⟩
  have hagain : (Histogram.empty (d.merged h).shots).recordAll (d.cutAll (d.merged h).toList) =
      d.merged h := by rw [hcut, Histogram.recordAll_toList]
  exact hagain.symm

/-- Cutting a key gives the prefix of its length. -/
theorem short_eq_iff {raw key : String} (h : d.stateBits ≤ raw.length) :
    d.short raw = key ↔ key.length = d.stateBits ∧ key.toList <+: raw.toList := by
  have hlen : (raw.toList.take d.stateBits).length = d.stateBits := by
    rw [List.length_take, String.length_toList, Nat.min_eq_left h]
  constructor
  · rintro rfl
    rw [short, String.length_ofList, String.toList_ofList]
    exact ⟨hlen, List.take_prefix _ _⟩
  · rintro ⟨hkey, hprefix⟩
    rw [short, ← hkey, ← String.length_toList, ← List.prefix_iff_eq_take.mp hprefix,
      String.ofList_toList]

/-- What a cut key counts is a part of the total. -/
theorem le_total_of_merged {h : Histogram} {key : String} {count : ℕ}
    (hfind : (d.merged h).find? key = some count) : count ≤ h.total := by
  have hmem : count ∈ (d.merged h).toList.map Prod.snd :=
    List.mem_map_of_mem (((d.merged h).mem_toList key count).mpr hfind)
  rw [← d.total_merged h, Histogram.total_eq_sum]
  exact List.le_sum_of_mem hmem

/-- **Merging adds up and loses nothing.** It succeeds if and only if all keys are bits and cover
the position. The keys of the result are the prefixes of this length of all keys, and each is
counted as often as all keys that begin with it, which is at most the total. Shots and total stay,
and merging the result leaves it as it is. -/
theorem merge_adds_up (d : Decoder) (h : Histogram) :
    ((∃ m, d.merge h = .ok m) ↔ ∀ key ∈ h.keys,
      (∀ c ∈ key.toList, Pattern.isBit c = true) ∧ d.stateBits ≤ key.length) ∧
    ∀ m, d.merge h = .ok m →
      (∀ key, key ∈ m.keys ↔
        key.length = d.stateBits ∧ ∃ raw ∈ h.keys, key.toList <+: raw.toList) ∧
      (∀ key ∈ m.keys, m.find? key =
        some ((h.toList.filter fun c => key.toList <+: c.1.toList).map Prod.snd).sum) ∧
      (∀ key count, m.find? key = some count → count ≤ h.total) ∧
      m.shots = h.shots ∧ m.total = h.total ∧ d.merge m = .ok m := by
  refine ⟨?_, fun m hmerge => ?_⟩
  · simp only [merge_eq_ok, exists_and_left, exists_eq, and_true]
    rfl
  obtain ⟨hreads, rfl⟩ := merge_eq_ok.mp hmerge
  refine ⟨fun key => ?_, fun key hkey => ?_, fun key count => le_total_of_merged,
    d.shots_merged h, d.total_merged h, merge_merged hreads⟩
  · rw [mem_keys_merged, List.mem_map, ← exists_and_left]
    refine exists_congr fun raw => ?_
    rw [and_left_comm]
    exact and_congr_right fun hraw => short_eq_iff (hreads raw hraw).2
  · have hlen := (isPattern_merged hreads hkey).length
    have hfilter : (h.toList.filter fun c => d.short c.1 = key) =
        h.toList.filter fun c => key.toList <+: c.1.toList := by
      refine List.filter_congr fun c hc => ?_
      rw [decide_eq_decide, short_eq_iff (hreads c.1 (List.mem_map_of_mem hc)).2]
      exact and_iff_right hlen
    rw [← hfilter]
    exact ((d.merged h).mem_toList key _).mp (mem_merged.mpr ⟨mem_keys_merged.mp hkey, rfl⟩)

/-- A position of two wires, and a coin. -/
def twoWiresAndCoin : Layout := .after [("dimension0", .dimension 0, 2), ("coin", .coin, 1)]

/-- Counts of keys on three wires, one of which was never counted, and of a key on two. -/
def mixedKeys : Histogram := .ofCounts [("101", 3), ("010", 4), ("100", 0), ("10", 2)]

/-- Three of them are the same position. -/
theorem merge_adds_up_mixedKeys : ∃ m, (ofLayout twoWiresAndCoin).merge mixedKeys = .ok m ∧
    m.find? "10" = some 5 ∧ m.find? "01" = some 4 ∧ m.total = 9 := by
  obtain ⟨hmerges, hresult⟩ := merge_adds_up (ofLayout twoWiresAndCoin) mixedKeys
  have hregisters : twoWiresAndCoin.registers =
      [⟨"dimension0", .dimension 0, 0, 2⟩, ⟨"coin", .coin, 2, 1⟩] := rfl
  have hstate : (ofLayout twoWiresAndCoin).stateBits = 2 := by
    simp [ofLayout, Layout.lastStateBit?, Layout.stateSpans, Layout.spanOf, Layout.dimensionOf,
      hregisters]
  have hkeys : mixedKeys.keys = ["010", "10", "100", "101"] := by decide
  have hbits : ∀ key ∈ mixedKeys.keys, ∀ c ∈ key.toList, Pattern.isBit c = true := by
    simp [hkeys, Pattern.isBit]
  have hlen : ∀ key ∈ mixedKeys.keys, 2 ≤ key.length := by
    rw [hkeys]
    decide
  rw [hstate] at hmerges hresult
  obtain ⟨m, hmerge⟩ := hmerges.mpr fun key hkey => ⟨hbits key hkey, hlen key hkey⟩
  obtain ⟨hprefixes, hcounts, -, -, htotal, -⟩ := hresult m hmerge
  have hten : "10" ∈ m.keys := (hprefixes "10").mpr ⟨rfl, "101", by decide, by decide⟩
  have hone : "01" ∈ m.keys := (hprefixes "01").mpr ⟨rfl, "010", by decide, by decide⟩
  exact ⟨m, hmerge, (hcounts _ hten).trans (by decide), (hcounts _ hone).trans (by decide),
    htotal.trans (by decide)⟩

end Decoder

end LatticeWalk
