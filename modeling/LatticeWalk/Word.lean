/-! # Machine words

Counts, coordinates and wire counts are meant for words of 64 bits. They are natural numbers here,
and the two places where the size of a word shows are these.

* `Word.limit`: the first number that does not fit.
* `Word.bit?`: the word in which a single bit is set. -/

namespace LatticeWalk.Word

/-- One more than the largest number that a word holds. -/
def limit : Nat := Nat.pow 2 64

/-- The word with only bit `n` set, if a word has such a bit. The place is itself held in 32 bits,
so it counts modulo `2 ^ 32`. -/
def bit? (n : Nat) : Option Nat :=
  let place := n % Nat.pow 2 32
  if place < 64 then some (Nat.pow 2 place) else none

theorem bit?_eq_some {n : Nat} (h : n < 64) : bit? n = some (Nat.pow 2 n) := by
  have hn : n % Nat.pow 2 32 = n := Nat.mod_eq_of_lt (Nat.lt_of_lt_of_le h (by decide))
  simp only [bit?, hn, if_pos h]

theorem bit?_eq_none {n : Nat} (h : 64 ≤ n) (h' : n < Nat.pow 2 32) : bit? n = none := by
  have hn : n % Nat.pow 2 32 = n := Nat.mod_eq_of_lt h'
  simp only [bit?, hn, if_neg (Nat.not_lt.2 h)]

end LatticeWalk.Word
