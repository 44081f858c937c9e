/-! # Ordered maps

Finite maps held as lists of entries in strictly ascending order of their keys, so that two maps
with the same values at the same keys are equal and the order of the entries says nothing about how
the map came about.

* `find?`: the value at a key.
* `alter`: the value at one key replaced, given what stood there.
* `modify`: the value at a key replaced if there is one.
* `erase`: one key dropped. -/

namespace LatticeWalk

/-- Entries in strictly ascending order of their keys. -/
structure OrderedMap (κ α : Type) [LT κ] where
  entries : List (κ × α)
  ascending : entries.Pairwise fun a b => a.1 < b.1

namespace OrderedMap

variable {κ α : Type} [LT κ]

instance : Inhabited (OrderedMap κ α) := ⟨⟨[], .nil⟩⟩

/-- The map without entries. -/
def empty : OrderedMap κ α := ⟨[], .nil⟩

/-- The keys in ascending order. -/
def keys (m : OrderedMap κ α) : List κ := m.entries.map Prod.fst

/-- The values in the order of their keys. -/
def values (m : OrderedMap κ α) : List α := m.entries.map Prod.snd

def size (m : OrderedMap κ α) : Nat := m.entries.length

def isEmpty (m : OrderedMap κ α) : Bool := m.entries.isEmpty

/-- The value at a key. -/
def find? [DecidableEq κ] (m : OrderedMap κ α) (k : κ) : Option α := m.entries.lookup k

/-- Replaces the value at `k` in a list of entries, or puts it in its place. -/
def alterEntries [DecidableLT κ] (k : κ) (f : Option α → α) : List (κ × α) → List (κ × α)
  | [] => [(k, f none)]
  | e :: es =>
    if k < e.1 then (k, f none) :: e :: es
    else if e.1 < k then e :: alterEntries k f es
    else (e.1, f (some e.2)) :: es

theorem of_mem_alterEntries [DecidableLT κ] {k : κ} {f : Option α → α} {es : List (κ × α)}
    {e : κ × α} (h : e ∈ alterEntries k f es) : e.1 = k ∨ ∃ e' ∈ es, e.1 = e'.1 := by
  induction es with
  | nil => simp [alterEntries] at h; simp [h]
  | cons e' es ih =>
    unfold alterEntries at h
    split at h
    · rcases List.mem_cons.1 h with rfl | h
      · exact .inl rfl
      · exact .inr ⟨e, h, rfl⟩
    · split at h
      · rcases List.mem_cons.1 h with rfl | h
        · exact .inr ⟨e, by simp, rfl⟩
        · rcases ih h with h | ⟨x, hx, h⟩
          · exact .inl h
          · exact .inr ⟨x, by simp [hx], h⟩
      · rcases List.mem_cons.1 h with rfl | h
        · exact .inr ⟨e', by simp, rfl⟩
        · exact .inr ⟨e, by simp [h], rfl⟩

section order
variable [LE κ] [Std.IsLinearOrder κ] [Std.LawfulOrderLT κ]

theorem pairwise_alterEntries [DecidableLT κ] (k : κ) (f : Option α → α) {es : List (κ × α)}
    (h : es.Pairwise fun a b => a.1 < b.1) :
    (alterEntries k f es).Pairwise fun a b => a.1 < b.1 := by
  induction es with
  | nil => simp [alterEntries]
  | cons e es ih =>
    have ⟨hhead, htail⟩ := List.pairwise_cons.1 h
    unfold alterEntries
    split
    case isTrue hk =>
      refine List.pairwise_cons.2 ⟨fun x hx => ?_, h⟩
      rcases List.mem_cons.1 hx with rfl | hx
      · exact hk
      · exact Std.lt_trans hk (hhead x hx)
    case isFalse hk =>
      split
      case isTrue hek =>
        refine List.pairwise_cons.2 ⟨fun x hx => ?_, ih htail⟩
        rcases of_mem_alterEntries hx with hx | ⟨y, hy, hx⟩
        · rw [hx]; exact hek
        · rw [hx]; exact hhead y hy
      case isFalse hek => exact List.pairwise_cons.2 ⟨fun x hx => hhead x hx, htail⟩

/-- The map with the value at `k` replaced by `f` of what stood there. -/
def alter [DecidableLT κ] (m : OrderedMap κ α) (k : κ) (f : Option α → α) : OrderedMap κ α :=
  ⟨alterEntries k f m.entries, pairwise_alterEntries k f m.ascending⟩

/-- The map with `v` at `k`. -/
def insert [DecidableLT κ] (m : OrderedMap κ α) (k : κ) (v : α) : OrderedMap κ α :=
  m.alter k fun _ => v

end order

/-- The map with the value at `k`, if there is one, replaced by `f` of it. -/
def modify [DecidableEq κ] (m : OrderedMap κ α) (k : κ) (f : α → α) : OrderedMap κ α where
  entries := m.entries.map fun e => if e.1 = k then (e.1, f e.2) else e
  ascending := by
    refine List.pairwise_map.2 (m.ascending.imp fun {a b} h => ?_)
    split <;> split <;> exact h

/-- The map without the key `k`. -/
def erase [DecidableEq κ] (m : OrderedMap κ α) (k : κ) : OrderedMap κ α :=
  ⟨m.entries.filter fun e => e.1 ≠ k, m.ascending.filter _⟩

end OrderedMap

end LatticeWalk
