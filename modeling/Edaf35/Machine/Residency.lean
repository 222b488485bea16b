import Mathlib.Data.Finset.Card
import Edaf35.Machine.Access
import Edaf35.Machine.Transparency

/-!
# The pages a run has touched

A page is resident or on disk exactly when some access of the run was to it.  With the representation invariant this
says what page table, coremap, RAM and swap hold after every run, whatever the replacement function does.
-/

namespace Edaf35.Machine

variable {ρ : Type} {P : Policy ρ} {s s' : Paging ρ} {v w : Nat} {a : Access} {as : List Access}

/-- The pages of the calls `as`. -/
def touched (as : List Access) : Finset Nat := (as.map Access.page).toFinset

theorem mem_touched : v ∈ touched as ↔ ∃ a ∈ as, a.page = v := by simp [touched]

theorem touched_append : touched (as ++ [a]) = insert a.page (touched as) := by
  rw [touched, List.map_append, List.toFinset_append, Finset.union_comm]
  rfl

/-! ### One access -/

theorem start_sameStore (a : Access) (s : Paging ρ) : SameStore s (a.start s) := by
  cases a <;> exact ⟨rfl, rfl, rfl, rfl, fun _ => rfl, fun _ => rfl, fun _ => rfl, fun _ => rfl⟩

/-- The replacement function picks a frame and leaves the store alone. -/
theorem replace_spec {f : Nat} {s₁ : Paging ρ} (hr : P.replace (countFault s) = (f, s₁)) :
    f < ramPages ∧ SameStore s s₁ := by
  have hlt := P.frame_lt (countFault s)
  have hsame := (P.only_referenced (countFault s)).toSameStore
  rw [hr] at hlt hsame
  exact ⟨hlt, hsame.coremap, hsame.memory, hsame.swap, hsame.count, hsame.page, hsame.inmemory, hsame.ondisk,
    hsame.modified⟩

theorem Fetched.repInv (hi : RepInv none s) (hv : v < nPages) (h : Fetched P s v s') : RepInv none s' := by
  cases h with
  | hit => exact hi
  | @free f s₁ hm hr ho =>
    obtain ⟨hf, hsame⟩ := replace_spec hr
    have hi₁ := hsame.repInv hi
    rw [← hsame.inmemory] at hm
    exact (install_spec s₁ hf).repInv (repInv_of_free hi₁ hf ho) hf hv hm
  | @evict f w s₁ s₂ hm hr ho he =>
    obtain ⟨hf, hsame⟩ := replace_spec hr
    have hi₁ := hsame.repInv hi
    obtain ⟨sl, hev⟩ := evict_spec hi₁ hf ho he
    have hne : v ≠ w := by
      rintro rfl
      rw [← hsame.inmemory, ((hi₁.owner_iff f v hf (by simp)).1 ho).2.1] at hm
      cases hm
    have hm₂ : (s₂.pageTable v).inmemory = false := by rw [hev.other v hne, hsame.inmemory]; exact hm
    exact (install_spec s₂ hf).repInv (hev.repInv hi₁ hf ho) hf hv hm₂

/-- A page that is resident or on disk. -/
def Seen (s : Paging ρ) (v : Nat) : Prop := (s.pageTable v).inmemory = true ∨ (s.pageTable v).ondisk = true

theorem SameStore.seen_iff (h : SameStore s s') : Seen s' v ↔ Seen s v := by
  rw [Seen, Seen, h.inmemory, h.ondisk]

private theorem Installed.seen_iff {f : Nat} (h : Installed s v f s') : Seen s' w ↔ Seen s w ∨ w = v := by
  unfold Seen
  by_cases hw : w = v
  · subst hw
    simp [h.entry]
  · rw [h.other w hw]
    exact (or_iff_left hw).symm

/-- Bringing a page into RAM adds it to the pages seen; the page evicted for it is on disk. -/
private theorem Fetched.seen_iff (hi : RepInv none s) (h : Fetched P s v s') : Seen s' w ↔ Seen s w ∨ w = v := by
  cases h with
  | hit hm =>
    refine ⟨Or.inl, ?_⟩
    rintro (h | rfl)
    · exact h
    · exact Or.inl hm
  | @free f s₁ hm hr ho =>
    obtain ⟨hf, hsame⟩ := replace_spec hr
    rw [(install_spec s₁ hf).seen_iff, hsame.seen_iff]
  | @evict f x s₁ s₂ hm hr ho he =>
    obtain ⟨hf, hsame⟩ := replace_spec hr
    have hi₁ := hsame.repInv hi
    obtain ⟨sl, hev⟩ := evict_spec hi₁ hf ho he
    -- the page evicted was resident and is on disk
    have hevicted : Seen s₂ w ↔ Seen s₁ w := by
      unfold Seen
      by_cases hw : w = x
      · subst hw
        simp [hev.entry, ((hi₁.owner_iff f w hf (by simp)).1 ho).2.1]
      · rw [hev.other w hw]
    rw [(install_spec s₂ hf).seen_iff, hevicted, hsame.seen_iff]

/-- One access in terms of `fetch` and `serve`. -/
theorem access_cases {b : Option UInt32} (h : access P s a = some (b, s')) :
    ∃ s₁, Fetched P (a.start s) a.page s₁ ∧ serve s₁ a = (b, s') := by
  rw [access_eq, Option.map_eq_some_iff] at h
  obtain ⟨s₁, hf, hs⟩ := h
  exact ⟨s₁, fetch_eq_some hf, hs⟩

private theorem access_seen_iff {b : Option UInt32} (hi : RepInv none s) (h : access P s a = some (b, s')) :
    Seen s' w ↔ Seen s w ∨ w = a.page := by
  obtain ⟨s₁, hf, hs⟩ := access_cases h
  have hstart := start_sameStore a s
  have hserve : Seen s' w ↔ Seen s₁ w := by
    rw [show s' = (serve s₁ a).2 by rw [hs], Seen, Seen, serve_inmemory, serve_ondisk]
  rw [hserve, hf.seen_iff (hstart.repInv hi), hstart.seen_iff]

theorem access_repInv {b : Option UInt32} (hi : RepInv none s) (ha : a.InRange) (h : access P s a = some (b, s')) :
    RepInv none s' := by
  cases a with
  | read addr =>
    simp only [access, Option.map_eq_some_iff, Prod.mk.injEq] at h
    obtain ⟨⟨w, s₁⟩, hr, -, rfl⟩ := h
    exact (readMemory_spec hi ha hr).1
  | write addr data =>
    simp only [access, Option.map_eq_some_iff, Prod.mk.injEq] at h
    obtain ⟨s₁, hw, -, rfl⟩ := h
    exact (writeMemory_spec hi ha hw).1

/-! ### Frames, referenced bits and the data of the replacement function -/

private theorem install_static (s : Paging ρ) (v f : Nat) : (install s v f).static = s.static := by
  unfold install
  dsimp only
  split <;> rfl

private theorem install_owner (s : Paging ρ) (v f g : Nat) :
    ((install s v f).coremap g).owner = if g = f then some v else (s.coremap g).owner := by
  unfold install
  by_cases hg : g = f
  · simp [setCore_coremap, hg]
  · by_cases hd : (s.pageTable v).ondisk = true <;> simp [setCore_coremap, hg, hd, readPage]

private theorem install_referenced (s : Paging ρ) (v f w : Nat) :
    ((install s v f).pageTable w).referenced = (s.pageTable w).referenced := by
  unfold install
  by_cases hw : w = v <;> by_cases hd : (s.pageTable v).ondisk = true <;>
    simp [setEntry_pageTable, hw, hd, readPage]

private theorem evict_keeps {f x : Nat} (h : evict s f x = some s') :
    s'.static = s.static ∧ s'.coremap = s.coremap ∧
      ∀ w, (s'.pageTable w).referenced = (s.pageTable w).referenced := by
  unfold evict at h
  by_cases hd : (s.pageTable x).ondisk = true
  · simp only [hd, if_true, Option.some.injEq] at h
    subst h
    refine ⟨by split <;> rfl, by split <;> rfl, fun w => ?_⟩
    by_cases hw : w = x <;> by_cases hmod : (s.pageTable x).modified = true <;>
      simp [setEntry_pageTable, hw, hmod, writePage]
  · simp only [hd, Bool.false_eq_true, if_false, newSwapPage] at h
    by_cases hc : s.count < swapPages
    · simp only [hc, if_true, Option.some.injEq] at h
      subst h
      refine ⟨rfl, rfl, fun w => ?_⟩
      by_cases hw : w = x <;> simp [setEntry_pageTable, hw, writePage]
    · simp only [hc, if_false] at h
      cases h

theorem access_hit {b : Option UInt32} (hm : (s.pageTable a.page).inmemory = true)
    (h : access P s a = some (b, s')) :
    s'.static = s.static ∧ s'.coremap = s.coremap ∧
      ∀ w, (s'.pageTable w).referenced = if w = a.page then true else (s.pageTable w).referenced := by
  obtain ⟨s₁, hf, hs⟩ := access_cases h
  obtain rfl : (serve s₁ a).2 = s' := by rw [hs]
  rw [← start_pageTable a s] at hm
  cases hf with
  | hit =>
    refine ⟨by cases a <;> rfl, by cases a <;> rfl, fun w => ?_⟩
    rw [serve_referenced]
    cases a <;> rfl
  | free hnot => rw [hm] at hnot; cases hnot
  | evict hnot => rw [hm] at hnot; cases hnot

/-- After a fault the page has the frame that the replacement function picked. -/
theorem access_fault {b : Option UInt32} {f : Nat} {s₁ : Paging ρ} (hm : (s.pageTable a.page).inmemory = false)
    (hr : P.replace (countFault (a.start s)) = (f, s₁)) (h : access P s a = some (b, s')) :
    s'.static = s₁.static ∧ (∀ g, (s'.coremap g).owner = if g = f then some a.page else (s₁.coremap g).owner) ∧
      ∀ w, (s'.pageTable w).referenced = if w = a.page then true else (s₁.pageTable w).referenced := by
  obtain ⟨s₂, hf, hs⟩ := access_cases h
  obtain rfl : (serve s₂ a).2 = s' := by rw [hs]
  rw [← start_pageTable a s] at hm
  simp only [serve_static, serve_coremap, serve_referenced]
  cases hf with
  | hit hnot => rw [hm] at hnot; cases hnot
  | free _ hr' _ =>
    rw [hr, Prod.mk.injEq] at hr'
    obtain ⟨rfl, rfl⟩ := hr'
    exact ⟨install_static .., install_owner _ _ _, fun w => by rw [install_referenced]⟩
  | evict _ hr' _ he =>
    rw [hr, Prod.mk.injEq] at hr'
    obtain ⟨rfl, rfl⟩ := hr'
    obtain ⟨hstatic, hcore, href⟩ := evict_keeps he
    refine ⟨(install_static ..).trans hstatic, fun g => ?_, fun w => ?_⟩
    · rw [install_owner, hcore]
    · rw [install_referenced, href]

/-! ### Whole runs -/

/-- After every run the invariant holds, and the pages seen are those touched. -/
theorem run_repInv (P : Policy ρ) (r : ρ) {ws : List (Option UInt32)} (hin : ∀ a ∈ as, a.InRange)
    (hrun : run (access P) (initial r) as = some (ws, s)) :
    RepInv none s ∧ ∀ v, Seen s v ↔ v ∈ touched as := by
  have h₀ : RepInv none (initial r) ∧ ∀ v, Seen (initial r) v ↔ v ∈ touched [] :=
    ⟨repInv_initial r, fun v => by simp [Seen, initial, touched]⟩
  refine (run_history (I := fun as s => RepInv none s ∧ ∀ v, Seen s v ↔ v ∈ touched as) (Q := fun _ _ _ => True)
    (fun as s a b s' hI ha hs => ⟨⟨access_repInv hI.1 ha hs, fun v => ?_⟩, trivial⟩) h₀ hin hrun).1
  rw [access_seen_iff hI.1 hs, hI.2, touched_append, Finset.mem_insert, or_comm]

/-- In every state reached by reads and writes, under every replacement function: the owner of a frame is the page
resident in it; a page on disk has a slot of its own that was handed out; an unmodified page on disk equals its slot;
and a page that is neither resident nor on disk was never accessed. -/
theorem representation (P : Policy ρ) (r : ρ) {ws : List (Option UInt32)} (hin : ∀ a ∈ as, a.InRange)
    (hrun : run (access P) (initial r) as = some (ws, s)) :
    ((∀ f v, f < ramPages → ((s.coremap f).owner = some v ↔
        v < nPages ∧ (s.pageTable v).inmemory = true ∧ (s.pageTable v).page = f)) ∧
      (∀ v, v < nPages → (s.pageTable v).inmemory = true → (s.pageTable v).page < ramPages) ∧
      ∀ v w, v < nPages → w < nPages → (s.pageTable v).inmemory = true → (s.pageTable w).inmemory = true →
        (s.pageTable v).page = (s.pageTable w).page → v = w) ∧
    ((∀ v, v < nPages → (s.pageTable v).ondisk = true → slot s v < s.count) ∧
      ∀ v w, v < nPages → w < nPages → (s.pageTable v).ondisk = true → (s.pageTable w).ondisk = true →
        slot s v = slot s w → v = w) ∧
    (∀ v, v < nPages → (s.pageTable v).inmemory = true → (s.pageTable v).ondisk = true →
      (s.pageTable v).modified = false → ∀ k, k < pageSize →
      s.memory ((s.pageTable v).page * pageSize + k) = s.swap (slot s v * pageSize + k)) ∧
    ∀ v, v < nPages → (s.pageTable v).inmemory = false → (s.pageTable v).ondisk = false → ∀ a ∈ as, a.page ≠ v := by
  obtain ⟨hi, hseen⟩ := run_repInv P r hin hrun
  refine ⟨⟨fun f v hf => hi.owner_iff f v hf (by simp), fun v hv hm => (hi.frame_lt v hv hm).1, ?_⟩,
    ⟨hi.slot_lt, hi.slot_inj⟩, hi.clean, ?_⟩
  · intro v w hv hw hmv hmw hp
    exact frame_inj hi hw hv hmw hmv hp
  · rintro v hv hm hd a ha rfl
    rcases (hseen a.page).2 (mem_touched.2 ⟨a, ha, rfl⟩) with h | h
    · rw [hm] at h; cases h
    · rw [hd] at h; cases h

/-- Nine pages are written and the first one is read back, so that two of them went to the swap. -/
theorem representation_evicted :
    ∃ ws s, run (access fifo) (initial 0)
        ((List.range 9).map (fun v => .write (4 * v) 7) ++ [.read 1]) = some (ws, s) ∧
      (s.pageTable 0).page = 2 ∧ (s.coremap 2).owner = some 0 ∧ slot s 0 < s.count := by
  have hrun : (run (access fifo) (initial 0) ((List.range 9).map (fun v => .write (4 * v) 7) ++ [.read 1])).map
      (fun x => ((x.2.pageTable 0).inmemory, (x.2.pageTable 0).ondisk, (x.2.pageTable 0).page)) =
      some (true, true, 2) := by decide
  obtain ⟨⟨ws, s⟩, hrun, hflags⟩ := Option.map_eq_some_iff.1 hrun
  simp only [Prod.mk.injEq] at hflags
  obtain ⟨hm, hd, hp⟩ := hflags
  obtain ⟨⟨howner, -, -⟩, ⟨hslot, -⟩, -, -⟩ := representation fifo 0 (by decide) hrun
  exact ⟨ws, s, hrun, hp, (howner 2 0 (by decide)).2 ⟨by decide, hm, hp⟩, hslot 0 (by decide) hd⟩

end Edaf35.Machine
