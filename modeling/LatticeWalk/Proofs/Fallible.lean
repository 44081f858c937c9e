import Mathlib

/-! # Computations that may fail

What it takes for a computation to succeed or to fail, in terms of its parts.

* `Except.bind_eq_ok`, `Except.map_eq_ok`, `Except.map_eq_error`: one computation behind another.
* `Except.forM_eq_ok`, `Except.mapM_eq_ok`, `Except.mapM_eq_error`: one for each entry of a list.
* `Except.eq_map_of_mapM`, `Except.forall_of_mapM`: what is known of each entry, for the list. -/

namespace LatticeWalk

variable {ε α β γ : Type}

/-! ### One behind another -/

theorem Except.bind_eq_ok {x : Except ε α} {f : α → Except ε β} {b : β} :
    x >>= f = .ok b ↔ ∃ a, x = .ok a ∧ f a = .ok b := by
  cases x with
  | error e => exact ⟨nofun, fun ⟨_, h, _⟩ => nomatch h⟩
  | ok a =>
    constructor
    · intro h; exact ⟨a, rfl, h⟩
    · rintro ⟨_, h, h'⟩; cases h; exact h'

theorem Except.map_eq_ok {x : Except ε α} {f : α → β} {b : β} :
    x.map f = .ok b ↔ ∃ a, x = .ok a ∧ b = f a := by
  cases x with
  | error e => simp [Except.map]
  | ok a => simp [Except.map, eq_comm]

theorem Except.map_eq_error {x : Except ε α} {f : α → β} :
    (∃ e, x.map f = .error e) ↔ ∃ e, x = .error e := by
  cases x <;> simp [Except.map]

/-- Two computations that go on from the same result, the first as a map makes of the second. -/
theorem Except.bind_eq_map {x : Except ε α} {f : α → Except ε β} {g : α → Except ε γ} {k : γ → β}
    (h : ∀ a, f a = (g a).map k) : (x >>= f) = (x >>= g).map k := by
  cases x with
  | error e => rfl
  | ok a => exact h a

/-! ### One for each entry of a list -/

theorem Except.forM_eq_ok {f : α → Except ε Unit} : ∀ {as : List α},
    as.forM f = .ok () ↔ ∀ a ∈ as, f a = .ok ()
  | [] => by simp [pure, Except.pure]
  | a :: as => by
    have hcons : (a :: as).forM f = (f a >>= fun _ => as.forM f) := rfl
    have hrest : as.forM f = .ok () ↔ ∀ a ∈ as, f a = .ok () := Except.forM_eq_ok
    rw [hcons, Except.bind_eq_ok]
    simp only [hrest, List.forall_mem_cons]
    exact ⟨fun ⟨_, h, h'⟩ => ⟨h, h'⟩, fun ⟨h, h'⟩ => ⟨(), h, h'⟩⟩

theorem Except.mapM_eq_ok {f : α → Except ε β} : ∀ {as : List α} {bs : List β},
    as.mapM f = .ok bs ↔ List.Forall₂ (fun a b => f a = .ok b) as bs
  | [], bs => by simp [pure, Except.pure, eq_comm]
  | a :: as, bs => by
    have hrest : ∀ {rest : List β}, as.mapM f = .ok rest ↔
        List.Forall₂ (fun a b => f a = .ok b) as rest := Except.mapM_eq_ok
    rw [List.mapM_cons, Except.bind_eq_ok, List.forall₂_cons_left_iff]
    refine exists_congr fun b => ?_
    simp only [Except.bind_eq_ok, hrest]
    constructor
    · rintro ⟨hb, rest, hrest, h⟩
      exact ⟨rest, hb, hrest, (Except.ok.inj h).symm⟩
    · rintro ⟨rest, hb, hrest, rfl⟩
      exact ⟨hb, rest, hrest, rfl⟩

theorem Except.mapM_eq_error {f : α → Except ε β} : ∀ {as : List α},
    (∃ e, as.mapM f = .error e) ↔ ∃ a ∈ as, ∃ e, f a = .error e
  | [] => by simp [pure, Except.pure]
  | a :: as => by
    rw [List.mapM_cons]
    cases ha : f a with
    | error e => simp [bind, Except.bind, ha]
    | ok b =>
      have hrest : (∃ e, as.mapM f = .error e) ↔ ∃ a ∈ as, ∃ e, f a = .error e :=
        Except.mapM_eq_error
      cases has : as.mapM f with
      | error e => simpa [bind, Except.bind, ha, has] using hrest
      | ok bs => simpa [bind, Except.bind, pure, Except.pure, ha, has] using hrest

theorem Except.mapM_map {f : α → Except ε β} {g : β → γ} : ∀ {as : List α},
    as.mapM (fun a => (f a).map g) = (as.mapM f).map (List.map g)
  | [] => rfl
  | a :: as => by
    rw [List.mapM_cons, List.mapM_cons, Except.mapM_map]
    cases f a with
    | error e => rfl
    | ok b => cases as.mapM f <;> rfl

theorem Except.mapM_eq_ok_map {f : α → Except ε β} {v : α → β} {as : List α}
    (h : ∀ a ∈ as, f a = .ok (v a)) : as.mapM f = .ok (as.map v) := by
  rw [Except.mapM_eq_ok, List.forall₂_map_right_iff, List.forall₂_same]
  exact h

theorem Except.mapM_map_eq_ok {f : β → Except ε γ} {g : α → β} {v : α → γ} {as : List α}
    (h : ∀ a ∈ as, f (g a) = .ok (v a)) : (as.map g).mapM f = .ok (as.map v) := by
  rw [List.mapM_map]
  exact Except.mapM_eq_ok_map h

theorem Except.exists_of_mapM {f : α → Except ε β} {as : List α} {bs : List β}
    (h : as.mapM f = .ok bs) {a : α} (ha : a ∈ as) : ∃ b, f a = .ok b := by
  cases hfa : f a with
  | ok b => exact ⟨b, rfl⟩
  | error e =>
    obtain ⟨e', he'⟩ := Except.mapM_eq_error.mpr ⟨a, ha, e, hfa⟩
    rw [h] at he'
    cases he'

/-- What is read from a list, if every entry can be read in one way only. -/
theorem Except.eq_map_of_mapM {f : α → Except ε β} {v : α → β} {as : List α} {bs : List β}
    (h : as.mapM f = .ok bs) (hv : ∀ a ∈ as, ∀ b, f a = .ok b → b = v a) : bs = as.map v := by
  have hread : ∀ a ∈ as, f a = .ok (v a) := by
    intro a ha
    obtain ⟨b, hb⟩ := Except.exists_of_mapM h ha
    rwa [← hv a ha b hb]
  rw [Except.mapM_eq_ok_map hread] at h
  exact (Except.ok.inj h).symm

theorem Except.forall_of_mapM {f : α → Except ε β} {P : β → Prop} {as : List α} {bs : List β}
    (h : as.mapM f = .ok bs) (hP : ∀ a ∈ as, ∀ b, f a = .ok b → P b) : ∀ b ∈ bs, P b := by
  intro b hb
  obtain ⟨i, hi, rfl⟩ := List.getElem_of_mem hb
  have hread := Except.mapM_eq_ok.mp h
  have hlen := hread.length_eq
  exact hP _ (List.getElem_mem (hi.trans_eq hlen.symm)) _
    (hread.get (hi.trans_eq hlen.symm) hi)

end LatticeWalk
