import Mathlib.Data.List.Nodup

/-!
# The last entries of a history

`recent n L` lists the last `n` entries of the history `L`, the oldest first.  `DistinctWithin n L` says that any `n`
consecutive entries differ.  A history in which every new entry is none of the last `n` has this property for `n + 1`
(`DistinctWithin.snoc`); then an entry is among the last `n` for exactly `n` steps, and of the last `n` entries the
first is the one whose most recent occurrence lies back furthest.
-/

namespace Edaf35

variable {α : Type*} {n i : Nat} {L q : List α} {x v w : α}

def recent (n : Nat) (L : List α) : List α := L.drop (L.length - n)

theorem length_recent (n : Nat) (L : List α) : (recent n L).length = min n L.length := by
  rw [recent, List.length_drop]
  omega

theorem recent_of_length_le (h : L.length ≤ n) : recent n L = L := by
  rw [recent, Nat.sub_eq_zero_of_le h]
  rfl

theorem recent_append (hn : 0 < n) (L : List α) (x : α) :
    recent n (L ++ [x]) = if L.length < n then recent n L ++ [x] else (recent n L).tail ++ [x] := by
  have hdrop : recent n (L ++ [x]) = L.drop (L.length + 1 - n) ++ [x] := by
    rw [recent, List.length_append, List.length_singleton, List.drop_append_of_le_length (by omega)]
  rw [hdrop]
  split
  · next hlt => rw [recent_of_length_le (Nat.le_of_lt hlt), Nat.sub_eq_zero_of_le hlt, List.drop_zero]
  · next hle =>
    have htail : L.length + 1 - n = L.length - n + 1 := by omega
    rw [recent, List.tail_drop, htail]

theorem mem_recent_of_getElem? (h : L[i]? = some v) (hle : L.length ≤ i + n) : v ∈ recent n L := by
  apply List.mem_of_getElem? (i := i - (L.length - n))
  rw [recent, List.getElem?_drop, ← h]
  congr 1
  omega

/-- The first of the last `n` entries. -/
theorem head?_recent (n : Nat) (L : List α) : (recent n L).head? = L[L.length - n]? := by
  rw [recent, List.head?_drop]

/-! ### Entries that do not recur soon -/

def DistinctWithin (n : Nat) (L : List α) : Prop := ∀ k, ((L.drop k).take n).Nodup

theorem distinctWithin_nil : DistinctWithin n ([] : List α) := fun k => by simp

theorem DistinctWithin.snoc (h : DistinctWithin (n + 1) L) (hx : x ∉ recent n L) :
    DistinctWithin (n + 1) (L ++ [x]) := by
  intro k
  rcases Nat.lt_or_ge L.length k with hk | hk
  · rw [List.drop_eq_nil_of_le (by rw [List.length_append, List.length_singleton]; omega), List.take_nil]
    exact List.nodup_nil
  · rw [List.drop_append_of_le_length hk]
    rcases Nat.lt_or_ge (L.drop k).length (n + 1) with hlt | hge
    · -- the window ends with the new entry
      have hwindow := h k
      rw [List.take_of_length_le (by omega)] at hwindow
      rw [List.take_of_length_le (by rw [List.length_append, List.length_singleton]; omega)]
      refine List.nodup_append.2 ⟨hwindow, List.nodup_singleton x, ?_⟩
      rintro y hy z hz rfl
      rw [List.mem_singleton.1 hz] at hy
      rw [List.length_drop] at hlt
      have hsub : L.drop k = (recent n L).drop (k - (L.length - n)) := by
        rw [recent, List.drop_drop, Nat.add_sub_cancel' (by omega)]
      rw [hsub] at hy
      exact hx (List.mem_of_mem_drop hy)
    · rw [List.take_append_of_le_length hge]
      exact h k

theorem DistinctWithin.recent_nodup (h : DistinctWithin (n + 1) L) : (recent n L).Nodup := by
  have hk := h (L.length - n)
  rwa [List.take_of_length_le (by rw [List.length_drop]; omega)] at hk

/-- An entry is no longer among the last `n` after `n` more entries. -/
theorem DistinctWithin.notMem_recent (h : DistinctWithin (n + 1) L) (hi : L[i]? = some v)
    (hlen : L.length = i + n + 1) : v ∉ recent n L := by
  have hk := h i
  obtain ⟨hlt, rfl⟩ := List.getElem?_eq_some_iff.1 hi
  rw [List.take_of_length_le (by rw [List.length_drop]; omega), List.drop_eq_getElem_cons hlt, List.nodup_cons] at hk
  rw [recent, show L.length - n = i + 1 by omega]
  exact hk.1

/-- The number of entries after the most recent occurrence of `v`. -/
def age [DecidableEq α] (L : List α) (v : α) : Nat := L.reverse.idxOf v

/-- The first of the last `n` entries occurred longest ago. -/
theorem age_lt_age_head [DecidableEq α] (hnd : (recent n L).Nodup) (hhead : (recent n L).head? = some v)
    (hw : w ∈ recent n L) (hne : w ≠ v) : age L w < age L v := by
  obtain ⟨q, hq⟩ : ∃ q, recent n L = v :: q := by
    cases hr : recent n L with
    | nil => rw [hr] at hhead; cases hhead
    | cons y q =>
      rw [hr, List.head?_cons] at hhead
      exact ⟨q, by rw [Option.some.inj hhead]⟩
  rw [hq, List.nodup_cons] at hnd
  rw [hq] at hw
  have hwq : w ∈ q := (List.mem_cons.1 hw).resolve_left hne
  -- the history read backwards starts with the last entries
  have hrev : L.reverse = q.reverse ++ v :: (L.take (L.length - n)).reverse := by
    conv_lhs => rw [← List.take_append_drop (L.length - n) L]
    rw [show L.drop (L.length - n) = v :: q from hq, List.reverse_append, List.reverse_cons, List.append_assoc]
    rfl
  have hwr : w ∈ q.reverse := List.mem_reverse.2 hwq
  have hvr : v ∉ q.reverse := fun hm => hnd.1 (List.mem_reverse.1 hm)
  calc age L w = q.reverse.idxOf w := by rw [age, hrev, List.idxOf_append, if_pos hwr]
    _ < q.reverse.length := List.idxOf_lt_length_of_mem hwr
    _ = age L v := by rw [age, hrev, List.idxOf_append, if_neg hvr, List.idxOf_cons_self, Nat.zero_add]

end Edaf35
