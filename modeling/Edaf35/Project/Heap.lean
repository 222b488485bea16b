import Edaf35.Lib.Bytes

/-!
# The memory the allocators work on

Memory is a function from addresses to bytes; a pointer is its address, and 0 is `NULL`.  `sbrk` moves the break by a
64-bit increment, which the kernel may refuse; an increment of 0 only reports the break.
-/

namespace Edaf35.Project

abbrev Memory := Nat → UInt8

/-- The number of addresses, which is also more than the number of nodes of any list. -/
def addressSpace : Nat := 2 ^ 64

/-- The break after `sbrk(increment)`, the increment being a signed number; `none` when the call fails, which leaves
the break alone.  `ok` is the kernel's answer to a change the address space has room for. -/
def sbrk (brk increment : Nat) (ok : Bool) : Option Nat :=
  let new : Int := brk + Int.bmod increment addressSpace
  if (ok ∨ increment = 0) ∧ 0 ≤ new ∧ new < addressSpace then some new.toNat else none

/-- A call that succeeds moves the break by the increment, read as a signed number. -/
theorem sbrk_moves {brk increment new : Nat} {ok : Bool} (h : sbrk brk increment ok = some new) :
    (new : Int) = brk + Int.bmod increment addressSpace := by
  simp only [sbrk] at h
  split at h
  · next hok =>
    rw [Option.some.injEq] at h
    rw [← h, Int.toNat_of_nonneg hok.2.1]
  · cases h

/-- An increment below 2^63 moves the break up. -/
theorem sbrk_eq_some {brk increment new : Nat} {ok : Bool} (h : increment < 2 ^ 63) :
    sbrk brk increment ok = some new ↔
      (ok = true ∨ increment = 0) ∧ new = brk + increment ∧ new < addressSpace := by
  have hmod : Int.bmod increment (2 ^ 64) = increment := Int.bmod_eq_of_le_mul_two (by omega) (by omega)
  simp only [sbrk, addressSpace, hmod]
  constructor
  · intro hs
    split at hs
    · rename_i hok
      simp only [Option.some.injEq] at hs
      exact ⟨hok.1, by omega, by omega⟩
    · simp at hs
  · rintro ⟨hok, rfl, hlt⟩
    rw [if_pos ⟨hok, by omega, by omega⟩, Option.some.injEq]
    omega

theorem sbrk_isSome {brk increment : Nat} (h : increment < 2 ^ 63) (hlt : brk + increment < addressSpace) :
    (sbrk brk increment true).isSome :=
  Option.isSome_iff_exists.2 ⟨_, (sbrk_eq_some h).2 ⟨Or.inl rfl, rfl, hlt⟩⟩

/-- `memset(p, 0, n)`. -/
def memset0 (m : Memory) (p n : Nat) : Memory := fun k => if p ≤ k ∧ k < p + n then 0 else m k

/-- `memmove(p, q, n)`. -/
def memmove (m : Memory) (p q n : Nat) : Memory := fun k => if p ≤ k ∧ k < p + n then m (q + (k - p)) else m k

/-- The heap of an allocator, and the allocations `(p, n)` that its client has not given back. -/
structure Client (H : Type) where
  heap : H
  live : List (Nat × Nat)

end Edaf35.Project
