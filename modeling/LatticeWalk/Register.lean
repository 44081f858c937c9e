import LatticeWalk.Pattern
import LatticeWalk.Scalar

/-! # Registers

A program's wires are divided into named registers, one behind the other from wire 0 on.

* `Register`: a named range of wires with the role it plays.
* `Allocator`: the registers that were handed out and a counter, the next free wire;
  `Allocator.allocate` hands out one more from there.
* `Layout`: the registers of a finished allocator and their total width, as counted.
* `Layout.stateSpans`: the ranges of the registers that hold the position, by dimension.
* `Layout.key`: a basis state as a text, register by register, each most significant bit first.

How registers and counter come about is said by `Allocated`. It follows that the counter is the sum
of the widths, so the first wire of a register is also its offset in a key. -/

namespace LatticeWalk

/-- What a register is for. -/
inductive Role where
  /-- The position along a dimension. -/
  | dimension (index : Nat)
  /-- The coin that all dimensions share. -/
  | coin
  /-- The permeability of a boundary control. -/
  | control (index : Nat)
  /-- The crossing record of a one-way control. -/
  | ancilla (index : Nat)
  deriving Repr, DecidableEq

/-- A named range of wires. -/
structure Register where
  name : String
  role : Role
  /-- The first wire. -/
  start : Nat
  width : Nat
  deriving Repr, DecidableEq

namespace Register

/-- Wire `i` of the register; wire 0 is the least significant. -/
def wire (r : Register) (i : Nat) : Nat := r.start + i

/-- All wires, the least significant first. -/
def wires (r : Register) : List Nat := (List.range r.width).map r.wire

/-- The wire of the most significant bit. -/
def top? (r : Register) : Option Nat := if r.width = 0 then none else some (r.wire (r.width - 1))

/-- The first wire behind the register. -/
def stop (r : Register) : Nat := r.start + r.width

/-- The register in listings. -/
def spell (r : Register) : String :=
  let stop := r.stop
  s!"{r.name}[{r.start}..{stop})"

@[simp] theorem length_wires (r : Register) : r.wires.length = r.width := by simp [wires]

@[simp] theorem mem_wires {r : Register} {w : Nat} :
    w ∈ r.wires ↔ r.start ≤ w ∧ w < r.stop := by
  simp only [wires, wire, stop, List.mem_map, List.mem_range]
  constructor
  · rintro ⟨i, hi, rfl⟩; omega
  · rintro ⟨h1, h2⟩; exact ⟨w - r.start, by omega, by omega⟩

end Register

/-- First and last key offset of a dimension's register. -/
structure Span where
  dimension : Nat
  first : Nat
  last : Nat
  deriving Repr, DecidableEq

/-- Registers that were handed out one after the other, and the next free wire: every register took
its first wire from the counter, which then moved on by its width, and no name was used twice. -/
inductive Allocated : List Register → Nat → Prop
  | empty : Allocated [] 0
  | more {registers : List Register} {next : Nat} (h : Allocated registers next) {name : String}
      (unused : ∀ r ∈ registers, r.name ≠ name) (role : Role) (width : Nat) :
      Allocated (registers ++ [⟨name, role, next, width⟩]) (next + width)

/-- Hands out wires to registers. -/
structure Allocator where
  registers : List Register
  /-- The next free wire. -/
  next : Nat
  allocated : Allocated registers next
  deriving Repr, DecidableEq

/-- Registers in the order of their allocation, and the width of all of them. -/
structure Layout where
  registers : List Register
  /-- The number of wires. -/
  width : Nat
  allocated : Allocated registers width
  deriving Repr, DecidableEq

namespace Allocator

/-- No registers yet. -/
def empty : Allocator := ⟨[], 0, .empty⟩

/-- Hands out the next free wires under a name, which must be a new one. -/
def allocate (a : Allocator) (name : String) (role : Role) (width : Nat) :
    Except Failure (Register × Allocator) :=
  if h : a.registers.any fun r => r.name == name then refuse (.registerTwice name)
  else
    let register : Register := ⟨name, role, a.next, width⟩
    .ok (register, ⟨a.registers ++ [register], a.next + width,
      a.allocated.more (by simpa using h) role width⟩)

/-- The layout of what was handed out. -/
def finish (a : Allocator) : Layout := ⟨a.registers, a.next, a.allocated⟩

@[simp] theorem finish_registers (a : Allocator) : a.finish.registers = a.registers := rfl

@[simp] theorem finish_width (a : Allocator) : a.finish.width = a.next := rfl

theorem allocate_eq_ok {a a' : Allocator} {name : String} {role : Role} {width : Nat} {r : Register}
    (h : a.allocate name role width = .ok (r, a')) :
    r = ⟨name, role, a.next, width⟩ ∧ a'.registers = a.registers ++ [r] ∧
      a'.next = a.next + width := by
  unfold allocate at h
  split at h
  · cases h
  · cases h
    exact ⟨rfl, rfl, rfl⟩

end Allocator

namespace Layout

/-- The layout without registers. -/
def empty : Layout := Allocator.empty.finish

/-- The first register with a role. -/
def find? (l : Layout) (role : Role) : Option Register :=
  l.registers.find? fun r => r.role == role

def coin? (l : Layout) : Option Register := l.find? .coin

def dimension? (l : Layout) (index : Nat) : Option Register := l.find? (.dimension index)

/-- The dimension whose position a register holds. -/
def dimensionOf (r : Register) : Option Nat :=
  match r.role with
  | .dimension index => some index
  | _ => none

/-- The position registers in order of their dimensions. -/
def dimensionRegisters (l : Layout) : List Register :=
  ((l.registers.filterMap fun r => (dimensionOf r).map fun d => (d, r)).mergeSort
    fun a b => a.1 ≤ b.1).map Prod.snd

/-- The key offsets of a position register that has wires. -/
def spanOf (r : Register) : Option Span :=
  if r.width = 0 then none
  else (dimensionOf r).map fun d => ⟨d, r.start, r.start + r.width - 1⟩

/-- The key offsets of all position registers that have wires, in order of their dimensions. -/
def stateSpans (l : Layout) : List Span :=
  (l.registers.filterMap spanOf).mergeSort fun a b => a.dimension ≤ b.dimension

/-- The last key offset at which a bit of the position stands. -/
def lastStateBit? (l : Layout) : Option Nat := (l.stateSpans.map Span.last).max?

/-- A basis state as a text: bit `q` of the index is the value of wire `q`. -/
def key (l : Layout) (basis : Nat) : String :=
  String.ofList (l.registers.flatMap fun r => Pattern.bitsOf (basis >>> r.start) r.width)

/-- The size of a full state vector, at eight bytes an entry, in units of `10 ^ 9` bytes. -/
def gigabytes {R : Type} [Scalar R] (l : Layout) : R := 1e-9 * 8.0 * Scalar.twoPowWord l.width

end Layout

end LatticeWalk
