import Edaf35.Machine.SwapSpace

/-!
# The statistics that `main` prints

The four counters are changed in four functions.  After every run they fit together: each page fault is the first use
of a page or a page read, and the page writes are at least as many as the swap pages taken and at most as many as the
evictions, which are the faults but for those that filled a free frame (`statistics`).  The counters are 64 bits wide,
so they hold these numbers modulo `2 ^ 64`.
-/

namespace Edaf35.Machine

variable {ρ : Type} {P : Policy ρ} {s s' : Paging ρ} {v w : Nat} {a : Access} {as : List Access} {b : Option UInt32}

/-! ### What the functions count -/

/-- From `s` to `s'` the counters grow by these numbers, and `new_swap_page` was called `slots` times. -/
structure Counts (s : Paging ρ) (faulted discWrites pageReads pageWrites slots : Nat) (s' : Paging ρ) : Prop where
  numPagefault : s'.numPagefault = s.numPagefault + .ofNat faulted
  numDiscWrites : s'.numDiscWrites = s.numDiscWrites + .ofNat discWrites
  numPageReads : s'.numPageReads = s.numPageReads + .ofNat pageReads
  numPageWrites : s'.numPageWrites = s.numPageWrites + .ofNat pageWrites
  count : s'.count = s.count + slots

private theorem Counts.refl (s : Paging ρ) : Counts s 0 0 0 0 0 s :=
  ⟨(UInt64.add_zero _).symm, (UInt64.add_zero _).symm, (UInt64.add_zero _).symm, (UInt64.add_zero _).symm, rfl⟩

private theorem Counts.trans {s₁ s₂ s₃ : Paging ρ} {f d r w c f' d' r' w' c' : Nat} (h : Counts s₁ f d r w c s₂)
    (h' : Counts s₂ f' d' r' w' c' s₃) : Counts s₁ (f + f') (d + d') (r + r') (w + w') (c + c') s₃ := by
  constructor
  · rw [h'.numPagefault, h.numPagefault, UInt64.ofNat_add, UInt64.add_assoc]
  · rw [h'.numDiscWrites, h.numDiscWrites, UInt64.ofNat_add, UInt64.add_assoc]
  · rw [h'.numPageReads, h.numPageReads, UInt64.ofNat_add, UInt64.add_assoc]
  · rw [h'.numPageWrites, h.numPageWrites, UInt64.ofNat_add, UInt64.add_assoc]
  · rw [h'.count, h.count, Nat.add_assoc]

private theorem SameButReferenced.counts (h : SameButReferenced s s') : Counts s 0 0 0 0 0 s' := by
  have hrefl := Counts.refl s
  exact ⟨h.numPagefault.trans hrefl.numPagefault, h.numDiscWrites.trans hrefl.numDiscWrites,
    h.numPageReads.trans hrefl.numPageReads, h.numPageWrites.trans hrefl.numPageWrites, h.count⟩

/-- `write_memory` counts a disc write. -/
private theorem start_counts (a : Access) (s : Paging ρ) : Counts s 0 a.isWrite.toNat 0 0 0 (a.start s) := by
  have hrefl := Counts.refl s
  cases a with
  | read addr => exact hrefl
  | write addr data => exact ⟨hrefl.numPagefault, rfl, hrefl.numPageReads, hrefl.numPageWrites, rfl⟩

private theorem countFault_counts (s : Paging ρ) : Counts s 1 0 0 0 0 (countFault s) := by
  have hrefl := Counts.refl s
  exact ⟨rfl, hrefl.numDiscWrites, hrefl.numPageReads, hrefl.numPageWrites, rfl⟩

private theorem serve_counts (s : Paging ρ) (a : Access) : Counts s 0 0 0 0 0 (serve s a).2 := by
  have hrefl := Counts.refl s
  cases a <;> exact ⟨hrefl.numPagefault, hrefl.numDiscWrites, hrefl.numPageReads, hrefl.numPageWrites, rfl⟩

/-- `pagefault` reads a page from the disk if it is there. -/
private theorem install_counts (s : Paging ρ) (v f : Nat) :
    Counts s 0 0 (s.pageTable v).ondisk.toNat 0 0 (install s v f) := by
  have hrefl := Counts.refl s
  unfold install
  cases hd : (s.pageTable v).ondisk with
  | true =>
    simp only [hd, if_true]
    exact ⟨hrefl.numPagefault, hrefl.numDiscWrites, rfl, hrefl.numPageWrites, rfl⟩
  | false =>
    simp only [hd, Bool.false_eq_true, if_false]
    exact ⟨hrefl.numPagefault, hrefl.numDiscWrites, hrefl.numPageReads, hrefl.numPageWrites, rfl⟩

/-- An eviction writes at most one page, and one if it takes a swap page. -/
private theorem evict_counts {f x : Nat} (h : evict s f x = some s') :
    ∃ written slots, Counts s 0 0 0 written slots s' ∧ slots ≤ written ∧ written ≤ 1 := by
  have hrefl := Counts.refl s
  unfold evict at h
  cases hd : (s.pageTable x).ondisk with
  | true =>
    simp only [hd, if_true, Option.some.injEq] at h
    subst h
    cases hmod : (s.pageTable x).modified with
    | true =>
      exact ⟨1, 0, ⟨hrefl.numPagefault, hrefl.numDiscWrites, hrefl.numPageReads, rfl, rfl⟩, by omega, by omega⟩
    | false =>
      exact ⟨0, 0, ⟨hrefl.numPagefault, hrefl.numDiscWrites, hrefl.numPageReads, hrefl.numPageWrites, rfl⟩, by omega,
        by omega⟩
  | false =>
    simp only [hd, Bool.false_eq_true, if_false, newSwapPage] at h
    by_cases hc : s.count < swapPages
    · simp only [hc, if_true, Option.some.injEq] at h
      subst h
      exact ⟨1, 1, ⟨hrefl.numPagefault, hrefl.numDiscWrites, hrefl.numPageReads, rfl, rfl⟩, by omega, by omega⟩
    · simp only [hc, if_false] at h
      cases h

/-- The frames with an owner. -/
def owned (s : Paging ρ) : Finset Nat := (Finset.range ramPages).filter fun f => (s.coremap f).owner.isSome

/-- One access: a fault for a page that is on disk reads it, and an eviction is the only other thing that uses the
disk. -/
private theorem access_counts (hi : RepInv none s) (h : access P s a = some (b, s')) : ∃ written slots,
    Counts s (!(s.pageTable a.page).inmemory).toNat a.isWrite.toNat
      (!(s.pageTable a.page).inmemory && (s.pageTable a.page).ondisk).toNat written slots s' ∧
      slots ≤ written ∧ written ≤ (victim P s a).toList.length := by
  obtain ⟨s₁, hf, hs⟩ := access_cases h
  obtain rfl : (serve s₁ a).2 = s' := by rw [hs]
  have hstart := start_counts a s
  have hserve := serve_counts s₁ a
  rw [← start_pageTable a s]
  cases hf with
  | hit hm =>
    refine ⟨0, 0, ?_, by omega, by omega⟩
    rw [hm]
    exact hstart.trans hserve
  | @free f s₂ hm hr ho =>
    have hsame := P.only_referenced (countFault (a.start s))
    rw [hr] at hsame
    have hdisk : (s₂.pageTable a.page).ondisk = ((a.start s).pageTable a.page).ondisk := hsame.ondisk a.page
    have hcounts := (hstart.trans (countFault_counts _)).trans
      (hsame.counts.trans ((install_counts s₂ a.page f).trans hserve))
    rw [hdisk] at hcounts
    refine ⟨0, 0, ?_, by omega, by omega⟩
    rw [hm, Bool.not_false, Bool.true_and]
    simpa using hcounts
  | @evict f w s₂ s₃ hm hr ho he =>
    have hsame := P.only_referenced (countFault (a.start s))
    rw [hr] at hsame
    obtain ⟨hf, hstore⟩ := replace_spec hr
    have hi₂ : RepInv none s₂ := hstore.repInv ((start_sameStore a s).repInv hi)
    obtain ⟨sl, hev⟩ := evict_spec hi₂ hf ho he
    obtain ⟨written, slots, hevict, hslots, hwritten⟩ := evict_counts he
    have hmw : (s₂.pageTable w).inmemory = true := ((hi₂.owner_iff f w hf (by simp)).1 ho).2.1
    have hma : (s₂.pageTable a.page).inmemory = false := (hsame.inmemory a.page).trans hm
    have hne : a.page ≠ w := by
      intro he
      rw [he, hmw] at hma
      cases hma
    have hdisk : (s₃.pageTable a.page).ondisk = ((a.start s).pageTable a.page).ondisk := by
      rw [hev.other _ hne]
      exact hsame.ondisk a.page
    have hcounts := (hstart.trans (countFault_counts _)).trans
      (hsame.counts.trans (hevict.trans ((install_counts s₃ a.page f).trans hserve)))
    rw [hdisk] at hcounts
    have hm' : (s.pageTable a.page).inmemory = false := by rwa [start_pageTable] at hm
    refine ⟨written, slots, ?_, hslots, ?_⟩
    · rw [hm, Bool.not_false, Bool.true_and]
      simpa using hcounts
    · rw [victim_of_fault hm' hr, ho]
      exact hwritten

private theorem mem_owned {f : Nat} : f ∈ owned s ↔ f < ramPages ∧ (s.coremap f).owner.isSome = true := by
  rw [owned, Finset.mem_filter, Finset.mem_range]

/-- An access fills a frame that was free if it faults and evicts nothing. -/
private theorem access_owned (h : access P s a = some (b, s')) :
    (owned s').card + (victim P s a).toList.length = (owned s).card + (!(s.pageTable a.page).inmemory).toNat := by
  cases hm : (s.pageTable a.page).inmemory with
  | true =>
    obtain ⟨-, hcore, -⟩ := access_hit hm h
    rw [victim_of_hit hm, owned, hcore]
    rfl
  | false =>
    obtain ⟨⟨f, s₁⟩, hr⟩ : ∃ r, P.replace (countFault (a.start s)) = r := ⟨_, rfl⟩
    obtain ⟨-, howner, -⟩ := access_fault hm hr h
    obtain ⟨hf, hsame⟩ := replace_spec hr
    have hcore : s₁.coremap = s.coremap := hsame.coremap.trans (start_sameStore a s).coremap
    have howned : owned s' = insert f (owned s) := by
      ext g
      rw [Finset.mem_insert, mem_owned, mem_owned, howner, hcore]
      by_cases hg : g = f
      · simp [hg, hf]
      · simp [hg]
    rw [victim_of_fault hm hr, hcore, howned]
    cases ho : (s.coremap f).owner with
    | none =>
      have hfree : f ∉ owned s := by
        intro hin
        rw [mem_owned, ho] at hin
        cases hin.2
      rw [Finset.card_insert_of_notMem hfree]
      rfl
    | some w =>
      have hin : f ∈ owned s := mem_owned.2 ⟨hf, by rw [ho]; rfl⟩
      rw [Finset.insert_eq_of_mem hin]
      rfl

private theorem owned_card_le (s : Paging ρ) : (owned s).card ≤ ramPages :=
  (Finset.card_filter_le _ _).trans_eq (Finset.card_range ramPages)

/-! ### Whole runs -/

/-- How the counters and the uses of the disk fit together after the calls `as`. -/
structure Accounts (P : Policy ρ) (r : ρ) (as : List Access) (s : Paging ρ) : Prop where
  numPagefault : s.numPagefault = .ofNat (faults P (initial r) as).length
  numDiscWrites : s.numDiscWrites = .ofNat (as.countP Access.isWrite)
  owned : (owned s).card + (evictions P (initial r) as).length = (faults P (initial r) as).length
  reads : ∃ reads, s.numPageReads = .ofNat reads ∧ (faults P (initial r) as).length = reads + (touched as).card
  writes : ∃ writes, s.numPageWrites = .ofNat writes ∧ s.count ≤ writes ∧ writes ≤ (evictions P (initial r) as).length

private theorem accounts_initial (P : Policy ρ) (r : ρ) : Accounts P r [] (initial r) := by
  refine ⟨rfl, rfl, ?_, ⟨0, rfl, rfl⟩, ⟨0, rfl, Nat.le_refl 0, Nat.le_refl 0⟩⟩
  have hnone : Machine.owned (initial r) = ∅ := Finset.filter_false_of_mem fun f _ => by simp [initial]
  rw [hnone]
  rfl

/-- The faults of a run with one more access. -/
private theorem faults_length_append {r : ρ} {ws : List (Option UInt32)}
    (hrun : run (access P) (initial r) as = some (ws, s)) (h : access P s a = some (b, s')) :
    (faults P (initial r) (as ++ [a])).length =
      (faults P (initial r) as).length + (!(s.pageTable a.page).inmemory).toNat := by
  rw [faults_append hrun h, List.length_append]
  cases (s.pageTable a.page).inmemory <;> rfl

private theorem Accounts.step {r : ρ} {ws : List (Option UInt32)} (hac : Accounts P r as s) (hi : RepInv none s)
    (hseen : ∀ v, Seen s v ↔ v ∈ touched as) (hrun : run (access P) (initial r) as = some (ws, s))
    (h : access P s a = some (b, s')) : Accounts P r (as ++ [a]) s' := by
  obtain ⟨written, slots, hcounts, hslots, hwritten⟩ := access_counts hi h
  have hfaults := faults_length_append hrun h
  have hevictions : (evictions P (initial r) (as ++ [a])).length =
      (evictions P (initial r) as).length + (victim P s a).toList.length := by
    rw [evictions_append hrun h, List.length_append]
  constructor
  · rw [hcounts.numPagefault, hac.numPagefault, hfaults, UInt64.ofNat_add]
  · rw [hcounts.numDiscWrites, hac.numDiscWrites, List.countP_append, UInt64.ofNat_add, List.countP_singleton]
    cases a.isWrite <;> rfl
  · have hown := access_owned h
    have hold := hac.owned
    rw [hfaults, hevictions]
    omega
  · obtain ⟨reads, hreads, hsum⟩ := hac.reads
    refine ⟨_, by rw [hcounts.numPageReads, hreads, ← UInt64.ofNat_add], ?_⟩
    -- the page is used for the first time, or it was seen before and is on disk
    have htouched : (touched (as ++ [a])).card + (!(s.pageTable a.page).inmemory && (s.pageTable a.page).ondisk).toNat =
        (touched as).card + (!(s.pageTable a.page).inmemory).toNat := by
      have hiff := hseen a.page
      rw [touched_append]
      unfold Seen at hiff
      by_cases hin : a.page ∈ touched as
      · rw [Finset.insert_eq_of_mem hin]
        rcases hiff.2 hin with hm | hd
        · rw [hm]
          rfl
        · rw [hd, Bool.and_true]
      · have hnot := mt hiff.1 hin
        rw [not_or, Bool.not_eq_true, Bool.not_eq_true] at hnot
        rw [Finset.card_insert_of_notMem hin, hnot.1, hnot.2]
        rfl
    rw [hfaults]
    omega
  · obtain ⟨writes, hwrites, hle, hle'⟩ := hac.writes
    refine ⟨_, by rw [hcounts.numPageWrites, hwrites, ← UInt64.ofNat_add], ?_, ?_⟩
    · rw [hcounts.count]
      omega
    · rw [hevictions]
      omega

/-- In every run, with every replacement function, the statistics account for each use of the disk: `num_pagefault` is
the number of faults and `num_disc_writes` that of writes, a fault is the first use of a page or is counted in
`num_page_reads`, and `num_page_writes` lies between the swap pages taken and the evictions, which are the faults but
for at most `RAM_PAGES`. -/
theorem statistics (P : Policy ρ) (r : ρ) {ws : List (Option UInt32)} (hin : ∀ a ∈ as, a.InRange)
    (hrun : run (access P) (initial r) as = some (ws, s)) : Accounts P r as s ∧
      (faults P (initial r) as).length ≤ (evictions P (initial r) as).length + ramPages := by
  have hac : Accounts P r as s := by
    refine run_snoc (I := Accounts P r) (accounts_initial P r) ?_ hin hrun
    intro as ws s a b s' hin hrun hac _ h
    obtain ⟨hi, hseen⟩ := run_repInv P r hin hrun
    exact hac.step hi hseen hrun h
  have howned := hac.owned
  have hcard := owned_card_le s
  exact ⟨hac, by omega⟩

/-- Ten pages, read in turn. -/
theorem statistics_sweep : ∃ s, Accounts fifo 0 (sweep 10) s ∧ s.numPagefault = 10 ∧ s.numPageWrites = 2 := by
  have hev : (run (access fifo) (initial 0) (sweep 10)).map (fun x => (x.2.numPagefault, x.2.numPageWrites)) =
      some (10, 2) := by decide
  obtain ⟨⟨ws, s⟩, hrun, hcounts⟩ := Option.map_eq_some_iff.1 hev
  rw [Prod.mk.injEq] at hcounts
  exact ⟨s, (statistics fifo 0 (by decide) hrun).1, hcounts⟩

end Edaf35.Machine
