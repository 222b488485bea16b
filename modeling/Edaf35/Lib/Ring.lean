import Mathlib.Data.List.Basic

/-!
# One turn round a ring

The positions of a ring are the numbers below `n`, and position `n - 1` is followed by position 0.  `turn g n h` lists
what `g` holds at the positions, from position `h` on.  Moving `h` by one position moves the first entry to the end.
-/

namespace Edaf35

variable {β : Type*} {g g' : Nat → β} {n h : Nat} {x y : β} {t : List β}

def turn (g : Nat → β) (n h : Nat) : List β := (List.range n).map fun i => g ((h + i) % n)

@[simp] theorem length_turn (g : Nat → β) (n h : Nat) : (turn g n h).length = n := by simp [turn]

theorem mem_turn (hh : h < n) : y ∈ turn g n h ↔ ∃ f, f < n ∧ g f = y := by
  simp only [turn, List.mem_map, List.mem_range]
  constructor
  · rintro ⟨i, -, rfl⟩
    exact ⟨_, Nat.mod_lt _ (by omega), rfl⟩
  · rintro ⟨f, hf, rfl⟩
    by_cases hle : h ≤ f
    · exact ⟨f - h, by omega, by rw [Nat.add_sub_cancel' hle, Nat.mod_eq_of_lt hf]⟩
    · exact ⟨f + n - h, by omega, by
        rw [Nat.add_sub_cancel' (by omega : h ≤ f + n), Nat.add_mod_right, Nat.mod_eq_of_lt hf]⟩

/-- The entry at `h` comes first. -/
theorem turn_eq_cons (g : Nat → β) (hh : h < n) :
    turn g n h = g h :: (List.range (n - 1)).map fun i => g ((h + (i + 1)) % n) := by
  obtain ⟨m, rfl⟩ : ∃ m, n = m + 1 := ⟨n - 1, by omega⟩
  rw [turn, List.range_succ_eq_map, List.map_cons, Nat.add_zero, Nat.mod_eq_of_lt hh, List.map_map]
  rfl

theorem turn_head (hh : h < n) (ht : turn g n h = x :: t) : g h = x := by
  rw [turn_eq_cons g hh] at ht
  exact (List.cons.inj ht).1

/-- The other entries are those of the positions that differ from `h`. -/
theorem turn_congr (hh : h < n) (hg : ∀ f, f < n → f ≠ h → g' f = g f) (ht : turn g n h = x :: t) :
    turn g' n h = g' h :: t := by
  rw [turn_eq_cons g hh] at ht
  rw [turn_eq_cons g' hh, ← (List.cons.inj ht).2, List.cons.injEq]
  refine ⟨rfl, List.map_congr_left fun i hi => ?_⟩
  rw [List.mem_range] at hi
  apply hg _ (Nat.mod_lt _ (by omega))
  intro heq
  by_cases hwrap : h + (i + 1) < n
  · rw [Nat.mod_eq_of_lt hwrap] at heq
    omega
  · rw [Nat.mod_eq_sub_mod (by omega), Nat.mod_eq_of_lt (by omega)] at heq
    omega

/-- One position further on. -/
theorem turn_add_one (hh : h < n) (ht : turn g n h = x :: t) : turn g n ((h + 1) % n) = t ++ [x] := by
  rw [turn_eq_cons g hh, List.cons.injEq] at ht
  obtain ⟨rfl, rfl⟩ := ht
  obtain ⟨m, rfl⟩ : ∃ m, n = m + 1 := ⟨n - 1, by omega⟩
  have hlast : h + 1 + m = h + (m + 1) := by omega
  rw [turn, List.range_succ, List.map_append, List.map_singleton, Nat.mod_add_mod, hlast, Nat.add_mod_right,
    Nat.mod_eq_of_lt hh]
  refine congrArg (· ++ [g h]) (List.map_congr_left fun i _ => ?_)
  rw [Nat.mod_add_mod, Nat.add_right_comm, Nat.add_assoc]

end Edaf35
