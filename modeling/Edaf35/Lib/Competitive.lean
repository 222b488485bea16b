import Mathlib.Data.Finset.Card
import Mathlib.Data.Finset.Dedup
import Edaf35.Lib.Run

/-!
# Comparing the misses of two caches

Two systems serve the same requests, each with a cache of its own.  Between two misses of the second one, the requests
are for pages that it holds, so they are for at most `k` pages.  If the first system misses at most `c` times whenever
at most `k` pages are requested, it therefore misses at most `c` times as often as the second one
(`missCount_le_mul`), whatever that one does.
-/

namespace Edaf35

variable {σ τ α β γ π : Type*}

/-- How many of the calls `as` find a state in which they miss. -/
def missCount (step : σ → α → Option (β × σ)) (miss : σ → α → Bool) : σ → List α → Nat
  | _, [] => 0
  | s, a :: as =>
    match step s a with
    | none => 0
    | some (_, s') => (miss s a).toNat + missCount step miss s' as

section Count

variable {step : σ → α → Option (β × σ)} {miss : σ → α → Bool} {s s' : σ} {a : α} {as as' : List α} {b : β}
  {bs : List β}

theorem missCount_cons (h : step s a = some (b, s')) :
    missCount step miss s (a :: as) = (miss s a).toNat + missCount step miss s' as := by
  simp only [missCount, h]

theorem missCount_append (h : run step s as = some (bs, s')) :
    missCount step miss s (as ++ as') = missCount step miss s as + missCount step miss s' as' := by
  induction as generalizing s bs with
  | nil =>
    cases h
    exact (Nat.zero_add _).symm
  | cons a as ih =>
    obtain ⟨b, s₁, bs', hs, hr, -⟩ := run_cons.1 h
    rw [List.cons_append, missCount_cons hs, missCount_cons hs, ih hr, Nat.add_assoc]

/-- A statement about the number of misses so far holds after a run if every call keeps it. -/
theorem run_missCount {J : Nat → σ → Prop} {ok : α → Prop} {n : Nat} (h : J n s)
    (hstep : ∀ n s a b s', J n s → ok a → step s a = some (b, s') → J (n + (miss s a).toNat) s')
    (hok : ∀ a ∈ as, ok a) (hrun : run step s as = some (bs, s')) : J (n + missCount step miss s as) s' := by
  induction as generalizing s n bs with
  | nil =>
    cases hrun
    exact h
  | cons a as ih =>
    obtain ⟨b, s₁, bs', hs, hr, -⟩ := run_cons.1 hrun
    rw [missCount_cons hs, ← Nat.add_assoc]
    exact ih (hstep n s a b s₁ h (hok a (by simp)) hs) (fun a ha => hok a (by simp [ha])) hr

/-- The calls up to the first miss. -/
theorem exists_hits (h : run step s as = some (bs, s')) :
    ∃ w rest ws t, as = w ++ rest ∧ run step s w = some (ws, t) ∧ missCount step miss s w = 0 ∧
      ∀ a l, rest = a :: l → miss t a = true := by
  induction as generalizing s bs with
  | nil => exact ⟨[], [], [], s, rfl, rfl, rfl, fun a l hl => by cases hl⟩
  | cons a as ih =>
    obtain ⟨b, s₁, bs', hs, hr, -⟩ := run_cons.1 h
    cases hm : miss s a with
    | true =>
      refine ⟨[], a :: as, [], s, rfl, rfl, rfl, ?_⟩
      intro a' l hl
      cases hl
      exact hm
    | false =>
      obtain ⟨w, rest, ws, t, rfl, hw, hzero, hrest⟩ := ih hr
      refine ⟨a :: w, rest, b :: ws, t, rfl, run_cons.2 ⟨b, s₁, ws, hs, hw, rfl⟩, ?_, hrest⟩
      rw [missCount_cons hs, hm, hzero]
      rfl

end Count

/-! ### Two systems -/

section Compare

variable [DecidableEq π] {step : σ → α → Option (β × σ)} {miss : σ → α → Bool} {I : σ → Prop}
  {step' : τ → α → Option (γ × τ)} {miss' : τ → α → Bool} {I' : τ → Prop} {ok : α → Prop} {page : α → π} {k c : Nat}

variable (step miss I ok page k c) in
/-- Calls for at most `k` pages miss at most `c` times. -/
structure MissesAtMost : Prop where
  keeps : ∀ s a b s', I s → ok a → step s a = some (b, s') → I s'
  window : ∀ s w bs s', I s → (∀ a ∈ w, ok a) → run step s w = some (bs, s') → (w.map page).toFinset.card ≤ k →
    missCount step miss s w ≤ c

variable (step' miss' I' ok page k) in
/-- From a miss up to the next one, calls are for at most `k` pages. -/
structure HoldsAtMost : Prop where
  keeps : ∀ s a b s', I' s → ok a → step' s a = some (b, s') → I' s'
  window : ∀ s a w b s₁ bs s', I' s → (∀ x ∈ a :: w, ok x) → step' s a = some (b, s₁) →
    run step' s₁ w = some (bs, s') → missCount step' miss' s₁ w = 0 → ((a :: w).map page).toFinset.card ≤ k

/-- The first system misses at most `c` times as often as the second one. -/
theorem missCount_le_mul (h : MissesAtMost step miss I ok page k c) (h' : HoldsAtMost step' miss' I' ok page k)
    {as : List α} {s s' : σ} {t t' : τ} {bs : List β} {ds : List γ} (hs : I s) (ht : I' t) (hok : ∀ a ∈ as, ok a)
    (hrun : run step s as = some (bs, s')) (hrun' : run step' t as = some (ds, t'))
    (hfirst : ∀ a l, as = a :: l → miss' t a = true) :
    missCount step miss s as ≤ c * missCount step' miss' t as := by
  -- by induction on the number of calls, from a miss of the second system to the next
  induction hn : as.length using Nat.strong_induction_on generalizing as s t bs ds with
  | _ n ih =>
    cases as with
    | nil => exact Nat.zero_le _
    | cons a as =>
      obtain ⟨d, t₁, ds₁, hd, hr', -⟩ := run_cons.1 hrun'
      obtain ⟨w, rest, ws, t₂, rfl, hw', hzero, hnext⟩ := @exists_hits _ _ _ step' miss' _ _ _ _ hr'
      rw [← List.cons_append, run_append] at hrun
      obtain ⟨s₂, bs₁, bs₂, hw, hrest, -⟩ := hrun
      obtain ⟨t₃, ds₂, ds₃, hw₂, hrest', -⟩ := run_append.1 hr'
      obtain ⟨rfl, rfl⟩ : ws = ds₂ ∧ t₂ = t₃ := Prod.mk.inj (Option.some.inj (hw'.symm.trans hw₂))
      have hokw : ∀ x ∈ a :: w, ok x := fun x hx => hok x (List.mem_append_left rest hx)
      have hokrest : ∀ x ∈ rest, ok x := fun x hx => hok x (List.mem_append_right (a :: w) hx)
      have hpages := h'.window t a w d t₁ ws t₂ ht hokw hd hw' hzero
      have hmisses := h.window s (a :: w) bs₁ s₂ hs hokw hw hpages
      have ht₁ := h'.keeps t a d t₁ ht (hokw a (by simp)) hd
      have hs₂ : I s₂ := run_invariant h.keeps hs hokw hw
      have ht₂ : I' t₂ := run_invariant h'.keeps ht₁ (fun x hx => hokw x (by simp [hx])) hw'
      have hshorter : rest.length < n := by
        rw [← hn, List.length_cons, List.length_append]
        omega
      have hlater := ih rest.length hshorter hs₂ ht₂ hokrest hrest hrest' hnext rfl
      have hmiss : miss' t a = true := hfirst a (w ++ rest) rfl
      rw [← List.cons_append, missCount_append hw, List.cons_append, missCount_cons hd, hmiss, missCount_append hw',
        hzero, Nat.zero_add, Bool.toNat_true, Nat.mul_add, Nat.mul_one]
      exact Nat.add_le_add hmisses hlater

end Compare

end Edaf35
