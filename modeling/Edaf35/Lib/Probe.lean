import Mathlib.Data.List.Perm.Basic
import Mathlib.Data.Nat.Find

/-!
# Linear probing

`probe` visits the slots of a table, from a given slot on, until it finds one at which the search stops.  In a table of
`s` slots the slot after `i` is `(i + 1) % s`, so that `d` steps lead from `i` to `(i + d) % s`.

`Probed occ h s a`: in the table `a` of `s` slots every occupied slot is reached from the slot `h` gives for its
content over occupied slots only.  Putting a content into the first free slot keeps this, and a search for a content
then meets no free slot before it.
-/

namespace Edaf35

variable {α : Type*}

/-- The first slot from `i` on at which the search stops, and its content; `none` if there is none within `fuel`
steps, or when a slot outside the table is read. -/
def probe (read : Nat → Option α) (next : Nat → Nat) (stop : α → Bool) : Nat → Nat → Option (Nat × α)
  | 0, _ => none
  | fuel + 1, i => do
    let x ← read i
    if stop x then some (i, x) else probe read next stop fuel (next i)

theorem probe_stops {read : Nat → Option α} {next : Nat → Nat} {stop : α → Bool} {fuel i : Nat} {r : Nat × α}
    (h : probe read next stop fuel i = some r) : stop r.2 = true := by
  induction fuel generalizing i with
  | zero => cases h
  | succ fuel ih =>
    rw [probe] at h
    cases hx : read i with
    | none => rw [hx] at h; cases h
    | some x =>
      rw [hx] at h
      simp only [Option.bind_eq_bind, Option.bind_some] at h
      by_cases hs : stop x = true
      · rw [if_pos hs, Option.some.injEq] at h
        rw [← h]
        exact hs
      · rw [if_neg hs] at h
        exact ih h

section

variable {a : List α} {s i : Nat} {stop occ : α → Bool} {h : α → Nat} {x y : α}

private theorem add_one_mod (d : Nat) : ((i + d) % s + 1) % s = (i + (d + 1)) % s := by
  rw [Nat.mod_add_mod, Nat.add_assoc]

/-- The search ends `d` slots after `i`, if it passes the slots before. -/
theorem probe_eq {d e fuel : Nat} (hpass : ∀ k, e ≤ k → k < d → ∃ y, a[(i + k) % s]? = some y ∧ stop y = false)
    (hx : a[(i + d) % s]? = some x) (hstop : stop x) (hed : e ≤ d) (hfuel : d - e < fuel) :
    probe (a[·]?) (fun j => (j + 1) % s) stop fuel ((i + e) % s) = some ((i + d) % s, x) := by
  induction fuel generalizing e with
  | zero => omega
  | succ fuel ih =>
    rw [probe]
    rcases Nat.eq_or_lt_of_le hed with rfl | hlt
    · simp only [hx, Option.bind_eq_bind, Option.bind_some, hstop, if_true]
    · obtain ⟨y, hy, hpy⟩ := hpass e (Nat.le_refl e) hlt
      simp only [hy, Option.bind_eq_bind, Option.bind_some, hpy, Bool.false_eq_true, if_false, add_one_mod]
      exact ih (fun k hk => hpass k (by omega)) (by omega) (by omega)

/-- Every slot is found from every other one. -/
private theorem exists_add_mod {j : Nat} (hi : i < s) (hj : j < s) : ∃ d, d < s ∧ (i + d) % s = j := by
  rcases Nat.le_total i j with hij | hji
  · exact ⟨j - i, by omega, by rw [Nat.add_sub_cancel' hij]; exact Nat.mod_eq_of_lt hj⟩
  · by_cases h0 : i = j
    · exact ⟨0, by omega, by rw [Nat.add_zero, h0]; exact Nat.mod_eq_of_lt hj⟩
    · refine ⟨j + s - i, by omega, ?_⟩
      rw [Nat.add_sub_cancel' (by omega : i ≤ j + s), Nat.add_mod_right]
      exact Nat.mod_eq_of_lt hj

/-- A search that some slot ends finds the first such slot. -/
theorem probe_first (hlen : a.length = s) (hi : i < s) (hx : ∃ x ∈ a, stop x = true) :
    ∃ d x, d < s ∧ probe (a[·]?) (fun j => (j + 1) % s) stop s i = some ((i + d) % s, x) ∧
      a[(i + d) % s]? = some x ∧ stop x = true ∧ ∀ k, k < d → ∃ y, a[(i + k) % s]? = some y ∧ stop y = false := by
  obtain ⟨x₀, hmem, hstop₀⟩ := hx
  obtain ⟨j, hj⟩ := List.getElem?_of_mem hmem
  obtain ⟨d₀, hd₀, hdj⟩ := exists_add_mod hi (hlen ▸ (List.getElem?_eq_some_iff.1 hj).1)
  have hex : ∃ d, ∃ x, a[(i + d) % s]? = some x ∧ stop x = true := ⟨d₀, x₀, by rw [hdj]; exact hj, hstop₀⟩
  classical
  obtain ⟨x, hxs, hstop⟩ := Nat.find_spec hex
  have hlt : Nat.find hex < s := Nat.lt_of_le_of_lt (Nat.find_min' hex ⟨x₀, by rw [hdj]; exact hj, hstop₀⟩) hd₀
  have hpass : ∀ k, k < Nat.find hex → ∃ y, a[(i + k) % s]? = some y ∧ stop y = false := by
    intro k hk
    have hb : (i + k) % s < a.length := by rw [hlen]; exact Nat.mod_lt _ (by omega)
    refine ⟨a[(i + k) % s], List.getElem?_eq_getElem hb, ?_⟩
    by_contra hne
    exact Nat.find_min hex hk ⟨_, List.getElem?_eq_getElem hb, by simpa using hne⟩
  refine ⟨Nat.find hex, x, hlt, ?_, hxs, hstop, hpass⟩
  have hfuel : Nat.find hex - 0 < s := by omega
  have hmain := probe_eq (e := 0) (fun k _ => hpass k) hxs hstop (Nat.zero_le _) hfuel
  rwa [Nat.add_zero, Nat.mod_eq_of_lt hi] at hmain

/-- Every occupied slot is reached, from the slot of its content, over occupied slots. -/
structure Probed (occ : α → Bool) (h : α → Nat) (s : Nat) (a : List α) : Prop where
  length_eq : a.length = s
  path : ∀ i x, a[i]? = some x → occ x = true →
    ∃ d, i = (h x + d) % s ∧ ∀ k, k < d → ∃ y, a[(h x + k) % s]? = some y ∧ occ y = true

theorem Probed.replicate (s : Nat) (hx : occ x = false) : Probed occ h s (List.replicate s x) := by
  refine ⟨List.length_replicate, fun i y hy hocc => ?_⟩
  rw [List.eq_of_mem_replicate (List.mem_of_getElem? hy), hx] at hocc
  cases hocc

/-- Putting a content into the first free slot from its own slot on. -/
theorem Probed.set {d : Nat} (ha : Probed occ h s a) (hx : occ x = true) (hy : a[(h x + d) % s]? = some y)
    (hpath : ∀ k, k < d → ∃ z, a[(h x + k) % s]? = some z ∧ occ z = true) :
    Probed occ h s (a.set ((h x + d) % s) x) := by
  have hlt := (List.getElem?_eq_some_iff.1 hy).1
  have hkeep : ∀ (j : Nat) z, a[j]? = some z → occ z = true →
      ∃ z', (a.set ((h x + d) % s) x)[j]? = some z' ∧ occ z' = true := by
    intro j z hz hocc
    by_cases hj : (h x + d) % s = j
    · subst hj
      exact ⟨x, List.getElem?_set_self hlt, hx⟩
    · exact ⟨z, by rw [List.getElem?_set_ne hj]; exact hz, hocc⟩
  refine ⟨by rw [List.length_set]; exact ha.length_eq, fun j z hz hocc => ?_⟩
  by_cases hj : (h x + d) % s = j
  · subst hj
    rw [List.getElem?_set_self hlt] at hz
    obtain rfl := Option.some.inj hz
    refine ⟨d, rfl, fun k hk => ?_⟩
    obtain ⟨w, hw, hwocc⟩ := hpath k hk
    exact hkeep _ w hw hwocc
  · rw [List.getElem?_set_ne hj] at hz
    obtain ⟨e, he, hpe⟩ := ha.path j z hz hocc
    refine ⟨e, he, fun k hk => ?_⟩
    obtain ⟨w, hw, hwocc⟩ := hpe k hk
    exact hkeep _ w hw hwocc

/-- Filling a free slot adds its content to the occupied ones. -/
theorem filter_set_perm (hy : a[i]? = some y) (hfree : occ y = false) (hx : occ x = true) :
    ((a.set i x).filter occ).Perm (x :: a.filter occ) := by
  obtain ⟨hlt, rfl⟩ := List.getElem?_eq_some_iff.1 hy
  have hold : a = a.take i ++ a[i] :: a.drop (i + 1) := by simp
  rw [List.set_eq_take_append_cons_drop, if_pos hlt, List.filter_append, List.filter_cons_of_pos hx]
  conv_rhs => rw [hold, List.filter_append, List.filter_cons_of_neg (by simp [hfree])]
  exact List.perm_middle

/-- A search that only the content `x`, among the occupied slots, ends finds it. -/
theorem Probed.probe_eq_some (ha : Probed occ h s a) (hs : h x < s) (hx : x ∈ a) (hocc : occ x = true)
    (hstop : stop x = true) (hother : ∀ y ∈ a, occ y = true → stop y = true → y = x) :
    ∃ p, probe (a[·]?) (fun j => (j + 1) % s) stop s (h x) = some (p, x) := by
  obtain ⟨j, hj⟩ := List.getElem?_of_mem hx
  obtain ⟨e, rfl, hpath⟩ := ha.path j x hj hocc
  obtain ⟨d, y, -, hprobe, hy, hystop, hpass⟩ := probe_first ha.length_eq hs ⟨x, hx, hstop⟩
  have hocc' : occ y = true := by
    rcases Nat.lt_trichotomy d e with hlt | rfl | hgt
    · obtain ⟨z, hz, hzocc⟩ := hpath d hlt
      rw [hz, Option.some.injEq] at hy
      rwa [← hy]
    · rw [hj, Option.some.injEq] at hy
      rwa [← hy]
    · obtain ⟨z, hz, hzstop⟩ := hpass e hgt
      rw [hj, Option.some.injEq] at hz
      rw [← hz, hstop] at hzstop
      cases hzstop
  rw [hother y (List.mem_of_getElem? hy) hocc' hystop] at hprobe
  exact ⟨_, hprobe⟩

end

end Edaf35
