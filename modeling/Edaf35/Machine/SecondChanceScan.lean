import Edaf35.Machine.Residency

/-!
# The scan of `second_chance_replace`

The loop has no bound in its condition.  It ends because each iteration clears the bit that kept it going: the frames
have different owners, so after one turn round the frames the owner of the first frame is no longer referenced.
-/

namespace Edaf35.Machine

variable {s t t' : Paging Hand} {k : Nat}

/-- The frame `j` places after the hand. -/
def frameAfter (s : Paging Hand) (j : Nat) : Nat := (s.static + j) % ramPages

/-- The condition of the loop at frame `f`: it has an owner, which was referenced. -/
def Passed (s : Paging Hand) (f : Nat) : Prop := ∃ v, (s.coremap f).owner = some v ∧ (s.pageTable v).referenced = true

private theorem frameAfter_lt (s : Paging Hand) (j : Nat) : frameAfter s j < ramPages := Nat.mod_lt _ (by decide)

private theorem frameAfter_zero (s : Paging Hand) : frameAfter s 0 = s.static := Nat.mod_eq_of_lt s.static.isLt

private theorem frameAfter_inj {i j : Nat} (hij : i < j) (hj : j < ramPages) : frameAfter s i ≠ frameAfter s j := by
  have := s.static.isLt
  simp only [frameAfter, ramPages] at *
  omega

/-- After one turn the scan is back at the hand. -/
private theorem frameAfter_ramPages (s : Paging Hand) : frameAfter s ramPages = frameAfter s 0 := Nat.add_mod_right _ _

/-! ### Iterations of the loop -/

private theorem secondChanceLoop_of_not_passed (h : ¬Passed s s.static) (n : Nat) : secondChanceLoop n s = s := by
  cases n with
  | zero => rfl
  | succ n =>
    rw [secondChanceLoop]
    cases ho : (s.coremap s.static).owner with
    | none => rfl
    | some v =>
      have hv : ¬(s.pageTable v).referenced = true := fun hr => h ⟨v, ho, hr⟩
      exact if_neg hv

private theorem secondChanceLoop_of_passed {v : Nat} (ho : (s.coremap s.static).owner = some v)
    (hr : (s.pageTable v).referenced = true) (n : Nat) :
    secondChanceLoop (n + 1) s = secondChanceLoop n (passOver s v) := by
  rw [secondChanceLoop, ho]
  exact if_pos hr

private theorem secondChanceLoop_add (m n : Nat) (s : Paging Hand) :
    secondChanceLoop (m + n) s = secondChanceLoop n (secondChanceLoop m s) := by
  induction m generalizing s with
  | zero => rw [Nat.zero_add, secondChanceLoop]
  | succ m ih =>
    by_cases h : Passed s s.static
    · obtain ⟨v, ho, hr⟩ := h
      rw [Nat.succ_add, secondChanceLoop_of_passed ho hr, secondChanceLoop_of_passed ho hr, ih]
    · rw [secondChanceLoop_of_not_passed h, secondChanceLoop_of_not_passed h, secondChanceLoop_of_not_passed h]

/-- The state `t'` is `t` after the hand passed over `k` frames: their owners, and no other page, lost the referenced
bit, and no other entry or bit changed. -/
structure PassedOver (t : Paging Hand) (k : Nat) (t' : Paging Hand) : Prop where
  hand : (t'.static : Nat) = frameAfter t k
  cleared : ∀ j, j < k → ∀ v, (t.coremap (frameAfter t j)).owner = some v →
    t'.pageTable v = { t.pageTable v with referenced := false }
  kept : ∀ v, (∀ j, j < k → (t.coremap (frameAfter t j)).owner ≠ some v) → t'.pageTable v = t.pageTable v
  rest : t' = { t with pageTable := t'.pageTable, static := t'.static }

private theorem PassedOver.coremap (h : PassedOver t k t') : t'.coremap = t.coremap := by rw [h.rest]

private theorem PassedOver.refl (t : Paging Hand) : PassedOver t 0 t :=
  ⟨(frameAfter_zero t).symm, fun j hj => absurd hj (Nat.not_lt_zero j), fun _ _ => rfl, rfl⟩

/-- No page owns two frames. -/
def Distinct (t : Paging Hand) : Prop :=
  ∀ f g v, f < ramPages → g < ramPages → (t.coremap f).owner = some v → (t.coremap g).owner = some v → f = g

/-- The owner of the frame `k` places after the hand owns none of the frames before it. -/
private theorem Distinct.owner_ne (hd : Distinct t) {v : Nat} (hk : k < ramPages)
    (ho : (t.coremap (frameAfter t k)).owner = some v) {j : Nat} (hj : j < k) :
    (t.coremap (frameAfter t j)).owner ≠ some v :=
  fun hv => frameAfter_inj hj hk (hd _ _ v (frameAfter_lt t j) (frameAfter_lt t k) hv ho)

/-- One more frame. -/
private theorem PassedOver.step (h : PassedOver t k t') (hd : Distinct t) {v : Nat} (hk : k < ramPages)
    (ho : (t.coremap (frameAfter t k)).owner = some v) :
    t'.pageTable v = t.pageTable v ∧ PassedOver t (k + 1) (passOver t' v) := by
  have hne : ∀ j, j < k → (t.coremap (frameAfter t j)).owner ≠ some v := fun j hj => hd.owner_ne hk ho hj
  have hv := h.kept v hne
  refine ⟨hv, ?_, ?_, ?_, ?_⟩
  · show ((t'.static + 1 : Hand) : Nat) = _
    rw [Fin.val_add, h.hand, frameAfter, frameAfter]
    exact Nat.mod_add_mod _ _ _
  · intro j hj w hw
    rcases Nat.lt_or_eq_of_le (Nat.le_of_lt_succ hj) with hj | rfl
    · have hwv : w ≠ v := by rintro rfl; exact hne j hj hw
      rw [passOver, setEntry_pageTable, if_neg hwv]
      exact h.cleared j hj w hw
    · obtain rfl : v = w := Option.some.inj (ho.symm.trans hw)
      rw [passOver, setEntry_pageTable, if_pos rfl, hv]
  · intro w hw
    have hwv : w ≠ v := by rintro rfl; exact hw k (Nat.lt_succ_self k) ho
    rw [passOver, setEntry_pageTable, if_neg hwv]
    exact h.kept w fun j hj => hw j (Nat.lt_succ_of_lt hj)
  · rw [h.rest]
    rfl

/-- While the owners of the frames ahead were referenced, the loop passes over them. -/
private theorem secondChanceLoop_passedOver (hd : Distinct t) (hk : k ≤ ramPages)
    (hall : ∀ j, j < k → Passed t (frameAfter t j)) :
    PassedOver t k (secondChanceLoop k t) ∧
      ∀ j, j < k → Passed (secondChanceLoop j t) (secondChanceLoop j t).static := by
  induction k with
  | zero => exact ⟨PassedOver.refl t, fun j hj => absurd hj (Nat.not_lt_zero j)⟩
  | succ k ih =>
    obtain ⟨hover, hpassed⟩ := ih (by omega) fun j hj => hall j (by omega)
    obtain ⟨v, ho, hr⟩ := hall k (Nat.lt_succ_self k)
    obtain ⟨hv, hover'⟩ := hover.step hd hk ho
    have ho' : ((secondChanceLoop k t).coremap (secondChanceLoop k t).static).owner = some v := by
      rw [hover.coremap, hover.hand]
      exact ho
    have hr' : ((secondChanceLoop k t).pageTable v).referenced = true := by rw [hv]; exact hr
    rw [secondChanceLoop_add, secondChanceLoop_of_passed ho' hr', secondChanceLoop]
    refine ⟨hover', fun j hj => ?_⟩
    rcases Nat.lt_or_eq_of_le (Nat.le_of_lt_succ hj) with hj | rfl
    · exact hpassed j hj
    · exact ⟨v, ho', hr'⟩

/-- The first number up to `n` without the property, or `n`. -/
private theorem exists_stop (p : Nat → Prop) (n : Nat) : ∃ k, k ≤ n ∧ (∀ j, j < k → p j) ∧ (k < n → ¬p k) := by
  induction n with
  | zero => exact ⟨0, Nat.le_refl 0, fun j hj => absurd hj (Nat.not_lt_zero j), fun h => absurd h (Nat.not_lt_zero 0)⟩
  | succ n ih =>
    obtain ⟨k, hk, hall, hstop⟩ := ih
    rcases Nat.lt_or_eq_of_le hk with hlt | rfl
    · exact ⟨k, by omega, hall, fun _ => hstop hlt⟩
    · by_cases hp : p k
      · refine ⟨k + 1, Nat.le_refl _, fun j hj => ?_, fun h => absurd h (Nat.lt_irrefl _)⟩
        rcases Nat.lt_or_eq_of_le (Nat.le_of_lt_succ hj) with hj | rfl
        · exact hall j hj
        · exact hp
      · exact ⟨k, Nat.le_succ k, hall, fun _ => hp⟩

/-- The loop stops at the frame `k` places after the hand. -/
private theorem PassedOver.not_passed (h : PassedOver t k t') (hd : Distinct t) (hk : k ≤ ramPages)
    (hstop : k < ramPages → ¬Passed t (frameAfter t k)) : ¬Passed t' t'.static := by
  rintro ⟨v, ho, hr⟩
  rw [h.coremap, h.hand] at ho
  rcases Nat.lt_or_eq_of_le hk with hlt | rfl
  · -- the bit of the owner was not cleared: the frames passed over have other owners
    rw [h.kept v fun j hj => hd.owner_ne hlt ho hj] at hr
    exact hstop hlt ⟨v, ho, hr⟩
  · -- all bits were cleared
    rw [frameAfter_ramPages] at ho
    rw [h.cleared 0 (by decide) v ho] at hr
    cases hr

/-! ### Every reachable state -/

/-- With the coremap of any reachable state, from every hand and whatever bits are set, the loop of
`second_chance_replace` makes `k ≤ RAM_PAGES` iterations: it passes over the `k` frames from the hand on, whose owners
were referenced, and returns the next frame, which has no owner or one that was not referenced, unless all owners were
referenced and it is the hand's own frame again.  The owners of the frames passed over lose the referenced bit and
nothing else changes. -/
theorem secondChanceReplace_scans {ρ : Type} {P : Policy ρ} {u : Paging ρ} {as : List Access}
    {ws : List (Option UInt32)} (r : ρ) (hin : ∀ a ∈ as, a.InRange)
    (hrun : run (access P) (initial r) as = some (ws, u)) (t : Paging Hand) (hcore : t.coremap = u.coremap) :
    ∃ k, k ≤ ramPages ∧ (∀ j, j < k → Passed (secondChanceLoop j t) (secondChanceLoop j t).static) ∧
      ¬Passed (secondChanceLoop k t) (secondChanceLoop k t).static ∧
      secondChanceReplace t = (frameAfter t k, secondChanceLoop k t) ∧
      (∀ j, j < k → Passed t (frameAfter t j)) ∧ (k < ramPages → ¬Passed t (frameAfter t k)) ∧
      (k = ramPages → frameAfter t k = t.static) ∧ PassedOver t k (secondChanceLoop k t) := by
  obtain ⟨hi, -⟩ := run_repInv P r hin hrun
  -- what the scan needs of the reachable state is that no two frames have the same owner
  have hdistinct : Distinct t := fun f g v hf hg hfv hgv => by
    rw [hcore] at hfv hgv
    exact ((hi.owner_iff f v hf (by simp)).1 hfv).2.2.symm.trans ((hi.owner_iff g v hg (by simp)).1 hgv).2.2
  obtain ⟨k, hk, hall, hstop⟩ := exists_stop (fun j => Passed t (frameAfter t j)) ramPages
  obtain ⟨hover, hpassed⟩ := secondChanceLoop_passedOver hdistinct hk hall
  have hend := hover.not_passed hdistinct hk hstop
  refine ⟨k, hk, hpassed, hend, ?_, hall, hstop, ?_, hover⟩
  · obtain ⟨m, hm⟩ : ∃ m, ramPages + 1 = k + m := ⟨ramPages + 1 - k, by omega⟩
    have hloop : secondChanceLoop (ramPages + 1) t = secondChanceLoop k t := by
      rw [hm, secondChanceLoop_add, secondChanceLoop_of_not_passed hend]
    rw [secondChanceReplace, hloop, ← hover.hand]
  · rintro rfl
    rw [frameAfter_ramPages, frameAfter_zero]

/-- Nine pages were written; the ninth took the first frame after a whole turn, so the next scan passes over it
alone. -/
theorem secondChanceReplace_scans_full :
    ∃ ws s, run (access secondChance) (initial 0) ((List.range 9).map fun v => .write (4 * v) 7) = some (ws, s) ∧
      (secondChanceReplace s).1 = 1 ∧ ∃ k, k ≤ ramPages ∧
        secondChanceReplace s = (frameAfter s k, secondChanceLoop k s) ∧ PassedOver s k (secondChanceLoop k s) := by
  have hev : (run (access secondChance) (initial 0) ((List.range 9).map fun v => .write (4 * v) 7)).map
      (fun x => (secondChanceReplace x.2).1) = some 1 := by decide
  obtain ⟨⟨ws, s⟩, hrun, hframe⟩ := Option.map_eq_some_iff.1 hev
  obtain ⟨k, hk, -, -, hreplace, -, -, -, hover⟩ := secondChanceReplace_scans 0 (by decide) hrun s rfl
  exact ⟨ws, s, hrun, hframe, k, hk, hreplace, hover⟩

end Edaf35.Machine
