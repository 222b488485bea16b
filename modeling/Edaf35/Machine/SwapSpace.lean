import Edaf35.Machine.Residency

/-!
# The use of the swap

A page gets a slot when it is evicted for the first time and keeps it, so the counter of `new_swap_page` is the number
of pages on disk.  The assertion of `new_swap_page` fails when a page is evicted for the first time while 128 pages
have slots.
-/

namespace Edaf35.Machine

variable {ρ : Type} {P : Policy ρ} {s s' : Paging ρ} {v w : Nat} {a : Access} {as : List Access}

/-- The pages that have a swap slot. -/
def onDisk (s : Paging ρ) : Finset Nat := (Finset.range nPages).filter fun v => (s.pageTable v).ondisk = true

private theorem mem_onDisk : v ∈ onDisk s ↔ v < nPages ∧ (s.pageTable v).ondisk = true := by
  rw [onDisk, Finset.mem_filter, Finset.mem_range]

/-- The faults of a run, in order: the page loaded and the page evicted for it. -/
def faults (P : Policy ρ) : Paging ρ → List Access → List (Nat × Option Nat)
  | _, [] => []
  | s, a :: as =>
    match access P s a with
    | none => []
    | some (_, s') =>
      if (s.pageTable a.page).inmemory then faults P s' as else (a.page, victim P s a) :: faults P s' as

/-- The pages evicted in a run, in order. -/
def evictions (P : Policy ρ) (s : Paging ρ) (as : List Access) : List Nat := (faults P s as).filterMap Prod.snd

theorem faults_cons {b : Option UInt32} (h : access P s a = some (b, s')) : faults P s (a :: as) =
    if (s.pageTable a.page).inmemory then faults P s' as else (a.page, victim P s a) :: faults P s' as := by
  simp only [faults, h]

theorem evictions_cons {b : Option UInt32} (h : access P s a = some (b, s')) :
    evictions P s (a :: as) = (victim P s a).toList ++ evictions P s' as := by
  rw [evictions, faults_cons h]
  by_cases hm : (s.pageTable a.page).inmemory = true
  · rw [if_pos hm, victim_of_hit hm]
    rfl
  · rw [if_neg hm]
    cases victim P s a <;> rfl

theorem faults_append {ws : List (Option UInt32)} {b : Option UInt32} {s₀ : Paging ρ}
    (hrun : run (access P) s₀ as = some (ws, s)) (h : access P s a = some (b, s')) :
    faults P s₀ (as ++ [a]) =
      faults P s₀ as ++ if (s.pageTable a.page).inmemory then [] else [(a.page, victim P s a)] := by
  induction as generalizing s₀ ws with
  | nil =>
    cases hrun
    rw [List.nil_append, faults_cons h]
    rfl
  | cons a₀ as ih =>
    obtain ⟨b₀, s₁, bs, hs, hr, -⟩ := run_cons.1 hrun
    rw [List.cons_append, faults_cons hs, faults_cons hs, ih hr]
    split <;> rfl

theorem evictions_append {ws : List (Option UInt32)} {b : Option UInt32} {s₀ : Paging ρ}
    (hrun : run (access P) s₀ as = some (ws, s)) (h : access P s a = some (b, s')) :
    evictions P s₀ (as ++ [a]) = evictions P s₀ as ++ (victim P s a).toList := by
  rw [evictions, evictions, faults_append hrun h, List.filterMap_append]
  by_cases hm : (s.pageTable a.page).inmemory = true
  · rw [if_pos hm, victim_of_hit hm]
    rfl
  · rw [if_neg hm]
    cases victim P s a <;> rfl

/-! ### One access -/

private theorem onDisk_congr (h : ∀ v, (s'.pageTable v).ondisk = (s.pageTable v).ondisk) : onDisk s' = onDisk s := by
  unfold onDisk
  exact Finset.filter_congr fun v _ => by rw [h v]

private theorem Installed.ondisk_eq {f : Nat} (h : Installed s v f s') (w : Nat) :
    (s'.pageTable w).ondisk = (s.pageTable w).ondisk := by
  by_cases hw : w = v
  · rw [hw, h.entry]
  · rw [h.other w hw]

private theorem Evicted.ondisk_iff {f sl : Nat} (h : Evicted s f v sl s') :
    (s'.pageTable w).ondisk = true ↔ (s.pageTable w).ondisk = true ∨ w = v := by
  by_cases hw : w = v
  · subst hw
    simp [h.entry]
  · rw [h.other w hw]
    exact (or_iff_left hw).symm

/-- The page evicted is on disk afterwards, the other pages are where they were. -/
private theorem Fetched.ondisk_iff (hi : RepInv none s) (h : Fetched P (a.start s) a.page s') :
    (s'.pageTable w).ondisk = true ↔ (s.pageTable w).ondisk = true ∨ victim P s a = some w := by
  have hstart := start_sameStore a s
  cases h with
  | hit hm =>
    rw [start_pageTable] at hm
    simp [victim_of_hit hm, hstart.ondisk]
  | @free f s₁ hm hr ho =>
    obtain ⟨hf, hsame⟩ := replace_spec hr
    rw [start_pageTable] at hm
    rw [(install_spec s₁ hf).ondisk_eq, hsame.ondisk, hstart.ondisk, victim_of_fault hm hr, ho]
    simp
  | @evict f x s₁ s₂ hm hr ho he =>
    obtain ⟨hf, hsame⟩ := replace_spec hr
    obtain ⟨sl, hev⟩ := evict_spec (hsame.repInv (hstart.repInv hi)) hf ho he
    rw [start_pageTable] at hm
    rw [(install_spec s₂ hf).ondisk_eq, hev.ondisk_iff, hsame.ondisk, hstart.ondisk, victim_of_fault hm hr,
      ho, Option.some_inj, @eq_comm _ x w]

/-- The counter of the slots follows the number of pages on disk. -/
private theorem Fetched.count_eq (hi : RepInv none s) (hc : s.count = (onDisk s).card) (h : Fetched P s v s') :
    s'.count = (onDisk s').card := by
  cases h with
  | hit => exact hc
  | @free f s₁ hm hr ho =>
    obtain ⟨hf, hsame⟩ := replace_spec hr
    have hins := install_spec s₁ (v := v) hf
    rw [hins.count, hsame.count, hc, onDisk_congr fun w => (hins.ondisk_eq w).trans (hsame.ondisk w)]
  | @evict f x s₁ s₂ hm hr ho he =>
    obtain ⟨hf, hsame⟩ := replace_spec hr
    have hi₁ := hsame.repInv hi
    have hins := install_spec s₂ (v := v) hf
    obtain ⟨sl, hev⟩ := evict_spec hi₁ hf ho he
    have hx : x < nPages := ((hi₁.owner_iff f x hf (by simp)).1 ho).1
    have hc₁ : s₁.count = (onDisk s₁).card := by rw [hsame.count, hc, onDisk_congr hsame.ondisk]
    rw [hins.count, onDisk_congr hins.ondisk_eq]
    rcases hev.slot_eq with ⟨hd, -, hcount⟩ | ⟨hd, -, hcount, -⟩
    · -- the page evicted has its slot already
      have hsub : onDisk s₂ = onDisk s₁ := by
        refine Finset.filter_congr fun w _ => hev.ondisk_iff.trans (or_iff_left_of_imp ?_)
        rintro rfl
        exact hd
      rw [hcount, hc₁, hsub]
    · -- it gets the next one
      have hinsert : onDisk s₂ = insert x (onDisk s₁) := by
        apply Finset.ext
        intro w
        rw [Finset.mem_insert, mem_onDisk, mem_onDisk, hev.ondisk_iff]
        constructor
        · rintro ⟨hw, hdw | rfl⟩
          · exact Or.inr ⟨hw, hdw⟩
          · exact Or.inl rfl
        · rintro (rfl | ⟨hw, hdw⟩)
          · exact ⟨hx, Or.inr rfl⟩
          · exact ⟨hw, Or.inl hdw⟩
      have hnew : x ∉ onDisk s₁ := fun hmem => by
        rw [(mem_onDisk.1 hmem).2] at hd
        cases hd
      rw [hcount, hc₁, hinsert, Finset.card_insert_of_notMem hnew]

/-- An access that fails the assertion evicts a page without a slot while all slots are taken. -/
private theorem access_eq_none (hc : s.count = (onDisk s).card) (h : access P s a = none) :
    ∃ w, victim P s a = some w ∧ (s.pageTable w).ondisk = false ∧ swapPages ≤ (onDisk s).card := by
  rw [access_eq, Option.map_eq_none_iff] at h
  obtain ⟨hm, f, w, s₁, hr, ho, hd, hfull⟩ := fetch_eq_none h
  rw [start_pageTable] at hm
  have hstart := start_sameStore a s
  obtain ⟨-, hsame⟩ := replace_spec hr
  refine ⟨w, by rw [victim_of_fault hm hr, ho], ?_, ?_⟩
  · rw [← hstart.ondisk, ← hsame.ondisk]
    exact hd
  · rw [← hc, ← hstart.count, ← hsame.count]
    exact hfull

/-! ### Whole runs -/

/-- After every run the counter is the number of pages on disk, and these are the pages evicted. -/
private theorem run_onDisk (P : Policy ρ) (r : ρ) {ws : List (Option UInt32)} (hin : ∀ a ∈ as, a.InRange)
    (hrun : run (access P) (initial r) as = some (ws, s)) :
    s.count = (onDisk s).card ∧ ∀ v, (s.pageTable v).ondisk = true ↔ v ∈ evictions P (initial r) as := by
  suffices key : RepInv none s ∧ s.count = (onDisk s).card ∧ (∃ ws, run (access P) (initial r) as = some (ws, s)) ∧
      ∀ v, (s.pageTable v).ondisk = true ↔ v ∈ evictions P (initial r) as from ⟨key.2.1, key.2.2.2⟩
  have h₀ : RepInv none (initial r) ∧ (initial r).count = (onDisk (initial r)).card ∧
      (∃ ws, run (access P) (initial r) [] = some (ws, initial r)) ∧
      ∀ v, ((initial r).pageTable v).ondisk = true ↔ v ∈ evictions P (initial r) [] :=
    ⟨repInv_initial r, by simp [initial, onDisk], ⟨[], rfl⟩, fun v => by simp [initial, evictions, faults]⟩
  refine (run_history (Q := fun _ _ _ => True) (I := fun as s => RepInv none s ∧ s.count = (onDisk s).card ∧
      (∃ ws, run (access P) (initial r) as = some (ws, s)) ∧
      ∀ v, (s.pageTable v).ondisk = true ↔ v ∈ evictions P (initial r) as) ?_ h₀ hin hrun).1
  rintro as s a b s' ⟨hi, hc, ⟨ws, hr⟩, hev⟩ ha hs
  obtain ⟨s₁, hf, hserve⟩ := access_cases hs
  obtain rfl : (serve s₁ a).2 = s' := by rw [hserve]
  have hstart := start_sameStore a s
  have hcount := hf.count_eq (hstart.repInv hi) (by rw [hstart.count, hc, onDisk_congr hstart.ondisk])
  refine ⟨⟨access_repInv hi ha hs, ?_, ⟨ws ++ [b], run_append.2 ⟨s, ws, [b], hr, ?_, rfl⟩⟩, fun v => ?_⟩, trivial⟩
  · rw [serve_count, hcount, onDisk_congr (serve_ondisk s₁ a)]
  · rw [run, hs]
    rfl
  · rw [serve_ondisk, hf.ondisk_iff hi, evictions_append hr hs, List.mem_append, Option.mem_toList, hev v]

private theorem onDisk_subset_touched (P : Policy ρ) (r : ρ) {ws : List (Option UInt32)} (hin : ∀ a ∈ as, a.InRange)
    (hrun : run (access P) (initial r) as = some (ws, s)) : onDisk s ⊆ touched as := fun v hv =>
  ((run_repInv P r hin hrun).2 v).1 (Or.inr (mem_onDisk.1 hv).2)

/-- At most 8 pages are resident. -/
private theorem card_resident_le (hi : RepInv none s) :
    ((Finset.range nPages).filter fun v => (s.pageTable v).inmemory = true).card ≤ ramPages := by
  rw [← Finset.card_range ramPages]
  refine Finset.card_le_card_of_injOn (fun v => (s.pageTable v).page) (fun v hv => ?_) fun v hv w hw hp => ?_
  · rw [Finset.mem_coe, Finset.mem_filter, Finset.mem_range] at hv
    rw [Finset.mem_coe, Finset.mem_range]
    exact (hi.frame_lt v hv.1 hv.2).1
  · rw [Finset.mem_coe, Finset.mem_filter, Finset.mem_range] at hv hw
    exact frame_inj hi hw.1 hv.1 hw.2 hv.2 hp

/-- A run that fails the assertion has touched more than 128 pages. -/
private theorem swapPages_lt_of_fails (P : Policy ρ) (r : ρ) (hin : ∀ a ∈ as, a.InRange)
    (hfail : run (access P) (initial r) as = none) : swapPages < (touched as).card := by
  obtain ⟨l, a, l', ws, s, rfl, hrun, ha⟩ := run_eq_none hfail
  have hinl : ∀ a ∈ l, a.InRange := fun x hx => hin x (List.mem_append_left _ hx)
  obtain ⟨hc, -⟩ := run_onDisk P r hinl hrun
  obtain ⟨hi, hseen⟩ := run_repInv P r hinl hrun
  obtain ⟨w, hw, hd, hfull⟩ := access_eq_none hc ha
  -- the frame that the replacement function picks belongs to `w`
  have hresident : (s.pageTable w).inmemory = true := by
    cases hm : (s.pageTable a.page).inmemory with
    | true => rw [victim_of_hit hm] at hw; cases hw
    | false =>
      obtain ⟨hf, hsame⟩ := replace_spec (P := P) (s := a.start s) rfl
      have hstart := start_sameStore a s
      rw [victim_of_fault hm rfl] at hw
      have howner := ((hsame.repInv (hstart.repInv hi)).owner_iff _ w hf (by simp)).1 hw
      rw [← hstart.inmemory, ← hsame.inmemory]
      exact howner.2.1
  -- `w` is a page touched that has no slot
  have hinsert : insert w (onDisk s) ⊆ touched (l ++ a :: l') := by
    intro v hv
    have hmem : v ∈ touched l := by
      rcases Finset.mem_insert.1 hv with rfl | hv
      · exact (hseen v).1 (Or.inl hresident)
      · exact onDisk_subset_touched P r hinl hrun hv
    obtain ⟨x, hx, hxv⟩ := mem_touched.1 hmem
    exact mem_touched.2 ⟨x, List.mem_append_left _ hx, hxv⟩
  have hnot : w ∉ onDisk s := fun hmem => by
    rw [(mem_onDisk.1 hmem).2] at hd
    cases hd
  have hcard := Finset.card_le_card hinsert
  rw [Finset.card_insert_of_notMem hnot] at hcard
  omega

/-- A run that does not fail has touched at most 128 + 8 pages. -/
private theorem card_touched_le (P : Policy ρ) (r : ρ) {ws : List (Option UInt32)} (hin : ∀ a ∈ as, a.InRange)
    (hrun : run (access P) (initial r) as = some (ws, s)) : (touched as).card ≤ swapPages + ramPages := by
  obtain ⟨hi, hseen⟩ := run_repInv P r hin hrun
  obtain ⟨hc, -⟩ := run_onDisk P r hin hrun
  have hsub : touched as ⊆ onDisk s ∪ (Finset.range nPages).filter fun v => (s.pageTable v).inmemory = true := by
    intro v hv
    obtain ⟨a, ha, rfl⟩ := mem_touched.1 hv
    have hlt : a.page < nPages := Access.page_lt (hin a ha)
    rw [Finset.mem_union, mem_onDisk, Finset.mem_filter, Finset.mem_range]
    exact ((hseen a.page).2 hv).symm.imp (fun h => ⟨hlt, h⟩) fun h => ⟨hlt, h⟩
  have hcard := (Finset.card_le_card hsub).trans (Finset.card_union_le _ _)
  have hres := card_resident_le hi
  have hle := hi.count_le
  omega

/-- In every state reached the counter of `new_swap_page` is the number of pages on disk, and its assertion fails
only when a page that was not evicted before is evicted while 128 pages are on disk.  So a run over at most 128 pages
does not fail, and a run over more than 136 pages does, whatever the replacement function does. -/
theorem swap_used_once (P : Policy ρ) (r : ρ) :
    (∀ as ws s, (∀ a ∈ as, a.InRange) → run (access P) (initial r) as = some (ws, s) →
      s.count = ((Finset.range nPages).filter fun v => (s.pageTable v).ondisk = true).card ∧
      ∀ a, access P s a = none → ∃ v, victim P s a = some v ∧ v ∉ evictions P (initial r) as ∧
        ((Finset.range nPages).filter fun v => (s.pageTable v).ondisk = true).card = swapPages) ∧
    (∀ as, (∀ a ∈ as, a.InRange) → (touched as).card ≤ swapPages → (run (access P) (initial r) as).isSome) ∧
    ∀ as, (∀ a ∈ as, a.InRange) → swapPages + ramPages < (touched as).card → run (access P) (initial r) as = none := by
  refine ⟨fun as ws s hin hrun => ?_, fun as hin hcard => ?_, fun as hin hcard => ?_⟩
  · obtain ⟨hc, hev⟩ := run_onDisk P r hin hrun
    refine ⟨hc, fun a ha => ?_⟩
    obtain ⟨v, hv, hd, hfull⟩ := access_eq_none hc ha
    have hle := (run_repInv P r hin hrun).1.count_le
    refine ⟨v, hv, fun hmem => ?_, Nat.le_antisymm (hc ▸ hle) hfull⟩
    rw [(hev v).2 hmem] at hd
    cases hd
  · cases hrun : run (access P) (initial r) as with
    | some x => rfl
    | none =>
      have := swapPages_lt_of_fails P r hin hrun
      omega
  · cases hrun : run (access P) (initial r) as with
    | none => rfl
    | some x =>
      have := card_touched_le P r hin hrun
      omega

/-- Reads of the pages 0, ..., n-1. -/
def sweep (n : Nat) : List Access := (List.range n).map fun v => .read (pageSize * v)

private theorem touched_sweep (n : Nat) : touched (sweep n) = Finset.range n := by
  have hpage : ∀ v, Access.page (.read (pageSize * v)) = v := fun v => Nat.mul_div_cancel_left v (by decide)
  apply Finset.ext
  intro v
  rw [mem_touched, Finset.mem_range]
  constructor
  · rintro ⟨a, ha, rfl⟩
    obtain ⟨w, hw, rfl⟩ := List.mem_map.1 ha
    rw [hpage]
    exact List.mem_range.1 hw
  · exact fun hv => ⟨_, List.mem_map_of_mem (List.mem_range.2 hv), hpage v⟩

private theorem sweep_inRange {n : Nat} (hn : n ≤ nPages) : ∀ a ∈ sweep n, a.InRange := by
  intro a ha
  obtain ⟨v, hv, rfl⟩ := List.mem_map.1 ha
  have hlt : v < nPages := (List.mem_range.1 hv).trans_le hn
  show pageSize * v < nPages * pageSize
  rw [Nat.mul_comm]
  exact Nat.mul_lt_mul_of_pos_right hlt (by decide)

/-- Reading 128 pages succeeds, reading 137 pages does not. -/
theorem swap_used_once_sweep :
    (run (access fifo) (initial 0) (sweep 128)).isSome ∧ run (access fifo) (initial 0) (sweep 137) = none := by
  obtain ⟨-, hshort, hlong⟩ := swap_used_once fifo 0
  exact ⟨hshort (sweep 128) (sweep_inRange (by decide)) (by rw [touched_sweep, Finset.card_range]; decide),
    hlong (sweep 137) (sweep_inRange (by decide)) (by rw [touched_sweep, Finset.card_range]; decide)⟩

end Edaf35.Machine
