import Edaf35.Machine.Paging

/-!
# The representation invariant of the page table and the coremap

`RepInv none s` says how page table, coremap, RAM and swap fit together between two calls: the coremap entry of a
frame names the page that is resident in it, every page on disk has a swap slot of its own below the counter, and a
resident page that is on disk and was not modified equals its slot.  Between `take_phys_page` and the end of
`pagefault` the frame `f` that was taken belongs to nobody; this is `RepInv (some f) s`.

`contents s v k` is the word `k` of the virtual page `v`, wherever it is.  Evicting a page changes no contents and
installing a page changes none but those of a page never seen before.
-/

namespace Edaf35.Machine

variable {ρ : Type}

/-- The swap slot of a page that has one: the coremap remembers it while the page is resident. -/
def slot (s : Paging ρ) (v : Nat) : Nat :=
  if (s.pageTable v).inmemory then (s.coremap (s.pageTable v).page).page else (s.pageTable v).page

/-- The word `k` of the virtual page `v`; `none` when the page is neither resident nor on disk. -/
def contents (s : Paging ρ) (v k : Nat) : Option UInt32 :=
  if (s.pageTable v).inmemory then some (s.memory ((s.pageTable v).page * pageSize + k))
  else if (s.pageTable v).ondisk then some (s.swap ((s.pageTable v).page * pageSize + k))
  else none

structure RepInv (hole : Option Nat) (s : Paging ρ) : Prop where
  owner_iff : ∀ f v, f < ramPages → hole ≠ some f →
    ((s.coremap f).owner = some v ↔
      v < nPages ∧ (s.pageTable v).inmemory = true ∧ (s.pageTable v).page = f)
  frame_lt : ∀ v, v < nPages → (s.pageTable v).inmemory = true →
    (s.pageTable v).page < ramPages ∧ hole ≠ some (s.pageTable v).page
  count_le : s.count ≤ swapPages
  slot_lt : ∀ v, v < nPages → (s.pageTable v).ondisk = true → slot s v < s.count
  slot_inj : ∀ v w, v < nPages → w < nPages → (s.pageTable v).ondisk = true → (s.pageTable w).ondisk = true →
    slot s v = slot s w → v = w
  clean : ∀ v, v < nPages → (s.pageTable v).inmemory = true → (s.pageTable v).ondisk = true →
    (s.pageTable v).modified = false → ∀ k, k < pageSize →
    s.memory ((s.pageTable v).page * pageSize + k) = s.swap (slot s v * pageSize + k)

/-! ### Copying a page, setting an entry -/

theorem pageSize_eq : pageSize = 4 := rfl

theorem memcpy_page (dst src : Nat → UInt32) (f g h : Nat) {k : Nat} (hk : k < pageSize) :
    memcpy dst (f * pageSize) src (g * pageSize) pageSize (h * pageSize + k) =
      if h = f then src (g * pageSize + k) else dst (h * pageSize + k) := by
  simp only [pageSize_eq] at hk ⊢
  unfold memcpy
  by_cases hf : h = f
  · subst hf
    rw [if_pos (by omega), if_pos rfl]
    congr 1; omega
  · rw [if_neg (by omega), if_neg hf]

theorem pageField_of_lt {x : Nat} (h : x < 2 ^ 27) : pageField x = x := Nat.mod_eq_of_lt h

theorem setEntry_pageTable (s : Paging ρ) (v w : Nat) (f : PageTableEntry → PageTableEntry) :
    (s.setEntry v f).pageTable w = if w = v then f (s.pageTable v) else s.pageTable w := by
  simp [Paging.setEntry, Function.update_apply]

theorem setCore_coremap (s : Paging ρ) (f g : Nat) (c : CoremapEntry → CoremapEntry) :
    (s.setCore f c).coremap g = if g = f then c (s.coremap f) else s.coremap g := by
  simp [Paging.setCore, Function.update_apply]

@[simp] theorem setEntry_coremap (s : Paging ρ) (v : Nat) (f : PageTableEntry → PageTableEntry) :
    (s.setEntry v f).coremap = s.coremap := rfl

@[simp] theorem setEntry_memory (s : Paging ρ) (v : Nat) (f : PageTableEntry → PageTableEntry) :
    (s.setEntry v f).memory = s.memory := rfl

@[simp] theorem setEntry_swap (s : Paging ρ) (v : Nat) (f : PageTableEntry → PageTableEntry) :
    (s.setEntry v f).swap = s.swap := rfl

@[simp] theorem setEntry_count (s : Paging ρ) (v : Nat) (f : PageTableEntry → PageTableEntry) :
    (s.setEntry v f).count = s.count := rfl

@[simp] theorem setCore_pageTable (s : Paging ρ) (f : Nat) (c : CoremapEntry → CoremapEntry) :
    (s.setCore f c).pageTable = s.pageTable := rfl

@[simp] theorem setCore_memory (s : Paging ρ) (f : Nat) (c : CoremapEntry → CoremapEntry) :
    (s.setCore f c).memory = s.memory := rfl

@[simp] theorem setCore_swap (s : Paging ρ) (f : Nat) (c : CoremapEntry → CoremapEntry) :
    (s.setCore f c).swap = s.swap := rfl

@[simp] theorem setCore_count (s : Paging ρ) (f : Nat) (c : CoremapEntry → CoremapEntry) :
    (s.setCore f c).count = s.count := rfl

/-! ### Changes that the invariant does not see -/

private theorem SameStore.slot_eq {s s' : Paging ρ} (h : SameStore s s') (v : Nat) : slot s' v = slot s v := by
  simp only [slot, h.inmemory, h.page, h.coremap]

theorem SameStore.contents_eq {s s' : Paging ρ} (h : SameStore s s') (v k : Nat) :
    contents s' v k = contents s v k := by
  simp only [contents, h.inmemory, h.page, h.ondisk, h.memory, h.swap]

theorem SameStore.repInv {s s' : Paging ρ} (h : SameStore s s') {hole : Option Nat} (hi : RepInv hole s) :
    RepInv hole s' where
  owner_iff f v hf hh := by rw [h.coremap, h.inmemory, h.page]; exact hi.owner_iff f v hf hh
  frame_lt v hv hm := by rw [h.page]; rw [h.inmemory] at hm; exact hi.frame_lt v hv hm
  count_le := by rw [h.count]; exact hi.count_le
  slot_lt v hv hd := by rw [h.slot_eq, h.count]; rw [h.ondisk] at hd; exact hi.slot_lt v hv hd
  slot_inj v w hv hw hdv hdw he := by
    rw [h.ondisk] at hdv hdw
    rw [h.slot_eq, h.slot_eq] at he
    exact hi.slot_inj v w hv hw hdv hdw he
  clean v hv hm hd hmod k hk := by
    rw [h.inmemory] at hm
    rw [h.ondisk] at hd
    rw [h.modified] at hmod
    rw [h.memory, h.swap, h.page, h.slot_eq]
    exact hi.clean v hv hm hd hmod k hk

/-- Setting the referenced bit is such a change. -/
theorem sameStore_setReferenced (s : Paging ρ) (v : Nat) (b : Bool) :
    SameStore s (s.setEntry v fun e => { e with referenced := b }) := by
  refine ⟨rfl, rfl, rfl, rfl, ?_, ?_, ?_, ?_⟩ <;>
    (intro w; rw [setEntry_pageTable]; split <;> simp_all)

theorem repInv_initial (r : ρ) : RepInv none (initial r) where
  owner_iff f v _ _ := by simp [initial]
  frame_lt v _ h := by simp [initial] at h
  count_le := by simp [initial]
  slot_lt v _ h := by simp [initial] at h
  slot_inj v w _ _ h := by simp [initial] at h
  clean v _ h := by simp [initial] at h

/-! ### Eviction -/

/-- What evicting the owner `v` of frame `f` does: `v` leaves RAM for the slot `sl`, which then holds the words of
the frame. -/
structure Evicted (s : Paging ρ) (f v sl : Nat) (s' : Paging ρ) : Prop where
  coremap : s'.coremap = s.coremap
  memory : s'.memory = s.memory
  entry : s'.pageTable v = { s.pageTable v with page := sl, ondisk := true, modified := false, inmemory := false }
  other : ∀ w, w ≠ v → s'.pageTable w = s.pageTable w
  swap : ∀ g k, k < pageSize →
    s'.swap (g * pageSize + k) = if g = sl then s.memory (f * pageSize + k) else s.swap (g * pageSize + k)
  slot_eq : ((s.pageTable v).ondisk = true ∧ sl = slot s v ∧ s'.count = s.count) ∨
    ((s.pageTable v).ondisk = false ∧ sl = s.count ∧ s'.count = s.count + 1 ∧ s.count < swapPages)

theorem evict_spec {s s' : Paging ρ} (hi : RepInv none s) {f v : Nat} (hf : f < ramPages)
    (ho : (s.coremap f).owner = some v) (he : evict s f v = some s') : ∃ sl, Evicted s f v sl s' := by
  obtain ⟨hv, hm, hp⟩ := (hi.owner_iff f v hf (by simp)).1 ho
  have hslot : slot s v = (s.coremap f).page := by simp [slot, hm, hp]
  unfold evict at he
  by_cases hd : (s.pageTable v).ondisk = true
  · have hlt := hi.slot_lt v hv hd
    have hcount := hi.count_le
    simp only [swapPages] at hcount
    have hfield : pageField (s.coremap f).page = slot s v := by
      rw [hslot]; exact pageField_of_lt (by omega)
    simp only [hd, if_true, Option.some.injEq] at he
    subst he
    refine ⟨slot s v, ⟨?_, ?_, ?_, ?_, ?_, Or.inl ⟨hd, rfl, ?_⟩⟩⟩
    · split <;> rfl
    · split <;> rfl
    · simp only [setEntry_pageTable, if_true, hfield]
      split <;> rfl
    · intro w hw
      simp only [setEntry_pageTable, if_neg hw]
      split <;> rfl
    · intro g k hk
      by_cases hmod : (s.pageTable v).modified = true
      · simp only [hmod, if_true, setEntry_swap, writePage]
        rw [memcpy_page _ _ _ _ _ hk, hslot]
      · -- not modified: the slot already holds the words of the frame
        have hclean := hi.clean v hv hm hd (by simpa using hmod) k hk
        simp only [hmod, Bool.false_eq_true, if_false, setEntry_swap]
        split
        · rename_i hg; rw [hg, ← hclean, hp]
        · rfl
    · split <;> rfl
  · simp only [hd, Bool.false_eq_true, if_false] at he
    unfold newSwapPage at he
    by_cases hc : s.count < swapPages
    · simp only [hc, if_true, Option.some.injEq] at he
      subst he
      have hfield : pageField s.count = s.count := by
        simp only [swapPages] at hc
        exact pageField_of_lt (by omega)
      refine ⟨s.count, ⟨rfl, rfl, ?_, ?_, ?_, Or.inr ⟨by simpa using hd, rfl, rfl, hc⟩⟩⟩
      · simp only [setEntry_pageTable, if_true, writePage, hfield]
      · intro w hw
        simp only [setEntry_pageTable, if_neg hw, writePage]
      · intro g k hk
        simp only [setEntry_swap, setEntry_memory, setEntry_pageTable, if_true, writePage, hfield]
        exact memcpy_page _ _ _ _ _ hk
    · simp only [hc, if_false] at he
      cases he

private theorem Evicted.slot_eq_other {s s' : Paging ρ} {f v sl w : Nat} (h : Evicted s f v sl s') (hw : w ≠ v) :
    slot s' w = slot s w := by
  simp only [slot, h.other w hw, h.coremap]

private theorem Evicted.slot_eq_self {s s' : Paging ρ} {f v sl : Nat} (h : Evicted s f v sl s') : slot s' v = sl := by
  simp [slot, h.entry]

/-- The slot of the evicted page is nobody else's. -/
private theorem Evicted.slot_ne {s s' : Paging ρ} (hi : RepInv none s) {f v sl w : Nat} (h : Evicted s f v sl s')
    (hv : v < nPages) (hw : w < nPages) (hne : w ≠ v) (hd : (s.pageTable w).ondisk = true) : slot s w ≠ sl := by
  rcases h.slot_eq with ⟨hdv, rfl, -⟩ | ⟨-, rfl, -, -⟩
  · intro he; exact hne (hi.slot_inj w v hw hv hd hdv he)
  · have := hi.slot_lt w hw hd; omega

theorem Evicted.contents_eq {s s' : Paging ρ} (hi : RepInv none s) {f v sl : Nat} (hf : f < ramPages)
    (ho : (s.coremap f).owner = some v) (h : Evicted s f v sl s') {w k : Nat} (hw : w < nPages)
    (hk : k < pageSize) : contents s' w k = contents s w k := by
  obtain ⟨hv, hm, hp⟩ := (hi.owner_iff f v hf (by simp)).1 ho
  by_cases hne : w = v
  · subst hne
    simp only [contents, h.entry, hm, if_true, Bool.false_eq_true, if_false, Option.some.injEq]
    rw [h.swap _ _ hk, if_pos rfl, hp]
  · simp only [contents, h.other w hne, h.memory]
    split
    · rfl
    · rename_i hmw
      split
      · rename_i hdw
        have hs : slot s w = (s.pageTable w).page := by simp [slot, hmw]
        rw [h.swap _ _ hk, if_neg (hs ▸ h.slot_ne hi hv hw hne hdw)]
      · rfl

theorem Evicted.repInv {s s' : Paging ρ} (hi : RepInv none s) {f v sl : Nat} (hf : f < ramPages)
    (ho : (s.coremap f).owner = some v) (h : Evicted s f v sl s') : RepInv (some f) s' := by
  obtain ⟨hv, hm, hp⟩ := (hi.owner_iff f v hf (by simp)).1 ho
  have hcount : s'.count ≤ swapPages ∧ sl < s'.count ∧ s.count ≤ s'.count := by
    have := hi.count_le
    rcases h.slot_eq with ⟨hd, rfl, hc⟩ | ⟨-, rfl, hc, hlt⟩
    · have := hi.slot_lt v hv hd; omega
    · omega
  refine ⟨?_, ?_, hcount.1, ?_, ?_, ?_⟩
  · intro g w hg hne
    rw [h.coremap, hi.owner_iff g w hg (by simp)]
    by_cases hw : w = v
    · subst hw
      simp only [h.entry, Bool.false_eq_true, false_and, and_false, iff_false]
      rintro ⟨-, -, rfl⟩
      exact hne (by rw [hp])
    · rw [h.other w hw]
  · intro w hw hmw
    by_cases hne : w = v
    · subst hne; simp [h.entry] at hmw
    · rw [h.other w hne] at hmw ⊢
      refine ⟨(hi.frame_lt w hw hmw).1, ?_⟩
      -- a second page in frame `f` would be its owner too
      intro heq
      have := (hi.owner_iff f w hf (by simp)).2 ⟨hw, hmw, (Option.some.inj heq).symm⟩
      rw [ho] at this
      exact hne (Option.some.inj this).symm
  · intro w hw hd
    by_cases hne : w = v
    · subst hne; rw [h.slot_eq_self]; exact hcount.2.1
    · rw [h.other w hne] at hd
      rw [h.slot_eq_other hne]
      have := hi.slot_lt w hw hd; omega
  · intro w x hw hx hdw hdx he
    by_cases hwv : w = v
    · by_cases hxv : x = v
      · rw [hwv, hxv]
      · subst hwv
        rw [h.other x hxv] at hdx
        rw [h.slot_eq_self, h.slot_eq_other hxv] at he
        exact absurd he.symm (h.slot_ne hi hv hx hxv hdx)
    · rw [h.other w hwv] at hdw
      by_cases hxv : x = v
      · subst hxv
        rw [h.slot_eq_self, h.slot_eq_other hwv] at he
        exact absurd he (h.slot_ne hi hv hw hwv hdw)
      · rw [h.other x hxv] at hdx
        rw [h.slot_eq_other hwv, h.slot_eq_other hxv] at he
        exact hi.slot_inj w x hw hx hdw hdx he
  · intro w hw hmw hd hmod k hk
    by_cases hne : w = v
    · subst hne; simp [h.entry] at hmw
    · rw [h.slot_eq_other hne, h.memory, h.swap _ _ hk]
      rw [h.other w hne] at hmw hd hmod ⊢
      rw [if_neg (h.slot_ne hi hv hw hne hd)]
      exact hi.clean w hw hmw hd hmod k hk

end Edaf35.Machine
