import Mathlib
import LatticeWalk.OrderedMap

/-! # Lookups in ordered maps

* `OrderedMap.find?_alter`, `OrderedMap.find?_insert`, `OrderedMap.find?_modify`,
  `OrderedMap.find?_erase`: what stands at a key after each change.
* `OrderedMap.mem_entries`, `OrderedMap.ext_find?`: lookups determine the entries, and so the map. -/

namespace LatticeWalk

namespace OrderedMap

variable {κ α : Type} [LT κ] [DecidableEq κ]

theorem find?_empty (k : κ) : (empty : OrderedMap κ α).find? k = none := rfl

theorem find?_modify (m : OrderedMap κ α) (k k' : κ) (f : α → α) :
    (m.modify k f).find? k' = if k' = k then (m.find? k).map f else m.find? k' := by
  simp only [find?, modify]
  induction m.entries with
  | nil => simp
  | cons e es ih => grind

theorem find?_erase (m : OrderedMap κ α) (k k' : κ) :
    (m.erase k).find? k' = if k' = k then none else m.find? k' := by
  simp only [find?, erase]
  induction m.entries with
  | nil => simp
  | cons e es ih => grind

variable [LE κ] [Std.IsLinearOrder κ] [Std.LawfulOrderLT κ]

theorem lookup_eq_none {k : κ} {es : List (κ × α)} (h : ∀ x ∈ es, k < x.1) :
    es.lookup k = none := by
  rw [List.lookup_eq_none_iff]
  intro x hx
  have hlt := h x hx
  grind

theorem lookup_eq_none_of_lt {k : κ} {e : κ × α} {es : List (κ × α)} (hk : k < e.1)
    (h : ∀ x ∈ es, e.1 < x.1) : (e :: es).lookup k = none :=
  lookup_eq_none (List.forall_mem_cons.mpr ⟨hk, fun x hx => Std.lt_trans hk (h x hx)⟩)

theorem not_lt_of_lookup {e e' : κ × α} {es es' : List (κ × α)} (h' : ∀ x ∈ es', e'.1 < x.1)
    (hlookup : (e :: es).lookup e.1 = (e' :: es').lookup e.1) : ¬ e.1 < e'.1 := by
  intro hlt
  rw [lookup_eq_none_of_lt hlt h', List.lookup_cons_self] at hlookup
  cases hlookup

omit [Std.IsLinearOrder κ] in
theorem mem_iff_lookup {es : List (κ × α)} (h : es.Pairwise fun a b => a.1 < b.1) (k : κ) (v : α) :
    (k, v) ∈ es ↔ es.lookup k = some v := by
  induction es with
  | nil => simp
  | cons e es ih =>
    obtain ⟨hhead, htail⟩ := List.pairwise_cons.1 h
    have hrest := ih htail
    by_cases hk : k = e.1
    · have hne : (k, v) ∉ es := fun hmem => Std.lt_irrefl (hk ▸ hhead _ hmem)
      grind
    · grind

omit [Std.IsLinearOrder κ] in
theorem mem_entries (m : OrderedMap κ α) (k : κ) (v : α) :
    (k, v) ∈ m.entries ↔ m.find? k = some v := mem_iff_lookup m.ascending k v

theorem ext_lookup {es es' : List (κ × α)} (h : es.Pairwise fun a b => a.1 < b.1)
    (h' : es'.Pairwise fun a b => a.1 < b.1) (hlookup : ∀ k, es.lookup k = es'.lookup k) :
    es = es' := by
  induction es generalizing es' with
  | nil =>
    cases es' with
    | nil => rfl
    | cons e' es' =>
      have hfound := hlookup e'.1
      grind
  | cons e es ih =>
    obtain ⟨hhead, htail⟩ := List.pairwise_cons.1 h
    cases es' with
    | nil =>
      have hfound := hlookup e.1
      grind
    | cons e' es' =>
      obtain ⟨hhead', htail'⟩ := List.pairwise_cons.1 h'
      have hkey : e.1 = e'.1 := by
        have hnot := not_lt_of_lookup hhead' (hlookup e.1)
        have hnot' := not_lt_of_lookup hhead (hlookup e'.1).symm
        grind
      have hvalue := hlookup e.1
      have hrest : ∀ k, es.lookup k = es'.lookup k := by
        intro k
        by_cases hk : k = e.1
        · rw [hk, lookup_eq_none hhead, hkey, lookup_eq_none hhead']
        · have hfound := hlookup k
          grind
      rw [ih htail htail' hrest]
      grind

/-- A map is determined by what stands at its keys. -/
theorem ext_find? {m m' : OrderedMap κ α} (h : ∀ k, m.find? k = m'.find? k) : m = m' := by
  obtain ⟨es, hes⟩ := m
  obtain ⟨es', hes'⟩ := m'
  obtain rfl : es = es' := ext_lookup hes hes' h
  rfl

variable [DecidableLT κ]

theorem lookup_alterEntries (k k' : κ) (f : Option α → α) {es : List (κ × α)}
    (h : es.Pairwise fun a b => a.1 < b.1) :
    (alterEntries k f es).lookup k' = if k' = k then some (f (es.lookup k)) else es.lookup k' := by
  induction es with
  | nil => grind [alterEntries]
  | cons e es ih =>
    obtain ⟨hhead, htail⟩ := List.pairwise_cons.1 h
    have hrest := ih htail
    unfold alterEntries
    split
    case isTrue hk =>
      have habsent := lookup_eq_none_of_lt hk hhead
      grind
    case isFalse hk => split <;> grind

theorem find?_alter (m : OrderedMap κ α) (k k' : κ) (f : Option α → α) :
    (m.alter k f).find? k' = if k' = k then some (f (m.find? k)) else m.find? k' :=
  lookup_alterEntries k k' f m.ascending

theorem find?_insert (m : OrderedMap κ α) (k k' : κ) (v : α) :
    (m.insert k v).find? k' = if k' = k then some v else m.find? k' :=
  find?_alter m k k' fun _ => v

theorem find?_insert_eq_none {m : OrderedMap κ α} {k k' : κ} {v : α} :
    (m.insert k v).find? k' = none ↔ k' ≠ k ∧ m.find? k' = none := by
  rw [find?_insert]
  split_ifs with h <;> simp [h]

end OrderedMap

end LatticeWalk
