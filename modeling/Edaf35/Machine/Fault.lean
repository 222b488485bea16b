import Edaf35.Machine.Invariant

/-!
# Page faults and translation keep the invariant

`take_phys_page` leaves a frame that belongs to nobody, `install` gives it to the new page, and so `pagefault` and
`translate` lead from `RepInv none` to `RepInv none`.  No step changes `contents`, except that a page that was
neither resident nor on disk gets some contents.
-/

namespace Edaf35.Machine

variable {ρ : Type}

/-- No page loses contents from `s` to `s'`. -/
def Keeps (s s' : Paging ρ) : Prop :=
  ∀ v k w, v < nPages → k < pageSize → contents s v k = some w → contents s' v k = some w

theorem Keeps.trans {s₁ s₂ s₃ : Paging ρ} (h : Keeps s₁ s₂) (h' : Keeps s₂ s₃) : Keeps s₁ s₃ :=
  fun v k w hv hk hc => h' v k w hv hk (h v k w hv hk hc)

theorem SameStore.keeps {s s' : Paging ρ} (h : SameStore s s') : Keeps s s' :=
  fun v k w _ _ hc => by rw [h.contents_eq]; exact hc

/-! ### `take_phys_page` -/

/-- A frame without an owner already belongs to nobody. -/
theorem repInv_of_free {s : Paging ρ} (hi : RepInv none s) {f : Nat} (hf : f < ramPages)
    (ho : (s.coremap f).owner = none) : RepInv (some f) s := by
  refine ⟨fun g w hg _ => hi.owner_iff g w hg (by simp), ?_, hi.count_le, hi.slot_lt, hi.slot_inj, hi.clean⟩
  intro w hw hm
  refine ⟨(hi.frame_lt w hw hm).1, ?_⟩
  intro heq
  have := (hi.owner_iff f w hf (by simp)).2 ⟨hw, hm, (Option.some.inj heq).symm⟩
  rw [ho] at this
  cases this

private theorem takePhysPage_spec {P : Policy ρ} {s s' : Paging ρ} {f : Nat} (hi : RepInv none s)
    (h : takePhysPage P s = some (f, s')) :
    f < ramPages ∧ RepInv (some f) s' ∧ Keeps s s' ∧
      ∀ v, (s.pageTable v).inmemory = false → (s'.pageTable v).inmemory = false := by
  have hf := P.frame_lt s
  have hsame := (P.only_referenced s).toSameStore
  have hi₁ := hsame.repInv hi
  unfold takePhysPage at h
  generalize P.replace s = r at h hf hsame hi₁
  obtain ⟨f', s₁⟩ := r
  simp only at h hf hsame hi₁
  split at h
  · rename_i ho
    cases h
    exact ⟨hf, repInv_of_free hi₁ hf ho, hsame.keeps, fun v hv => by rw [hsame.inmemory]; exact hv⟩
  · rename_i v ho
    split at h
    · cases h
    · rename_i s₂ he
      cases h
      obtain ⟨sl, hev⟩ := evict_spec hi₁ hf ho he
      refine ⟨hf, hev.repInv hi₁ hf ho, ?_, ?_⟩
      · apply hsame.keeps.trans
        intro w k x hw hk hc
        rw [hev.contents_eq hi₁ hf ho hw hk]; exact hc
      · intro w hw
        by_cases hne : w = v
        · rw [hne, hev.entry]
        · rw [hev.other w hne, hsame.inmemory]; exact hw

/-! ### Installing the new page -/

/-- What installing page `v` in the free frame `f` does: the frame gets the words of the slot of `v` if there is
one, and keeps whatever it held otherwise. -/
structure Installed (s : Paging ρ) (v f : Nat) (s' : Paging ρ) : Prop where
  swap : s'.swap = s.swap
  count : s'.count = s.count
  entry : s'.pageTable v = { s.pageTable v with inmemory := true, page := f }
  other : ∀ w, w ≠ v → s'.pageTable w = s.pageTable w
  owner : (s'.coremap f).owner = some v
  core : ∀ g, g ≠ f → s'.coremap g = s.coremap g
  page : (s.pageTable v).ondisk = true → (s'.coremap f).page = (s.pageTable v).page
  loaded : (s.pageTable v).ondisk = true → ∀ k, k < pageSize →
    s'.memory (f * pageSize + k) = s.swap ((s.pageTable v).page * pageSize + k)
  memory : ∀ g k, g ≠ f → k < pageSize → s'.memory (g * pageSize + k) = s.memory (g * pageSize + k)

theorem install_spec (s : Paging ρ) {v f : Nat} (hf : f < ramPages) : Installed s v f (install s v f) := by
  have hfield : pageField f = f := by
    simp only [ramPages] at hf
    exact pageField_of_lt (by omega)
  unfold install
  by_cases hd : (s.pageTable v).ondisk = true
  · simp only [hd, if_true]
    refine ⟨rfl, rfl, ?_, ?_, ?_, ?_, ?_, ?_, ?_⟩
    · simp [setEntry_pageTable, readPage, hfield]
    · intro w hw
      simp [setEntry_pageTable, readPage, hw]
    · simp [setCore_coremap]
    · intro g hg
      simp [setCore_coremap, hg, readPage]
    · intro _
      simp [setCore_coremap, readPage]
    · intro _ k hk
      simp only [setCore_memory, setEntry_memory, readPage, setCore_swap, memcpy_page _ _ _ _ _ hk, if_true]
    · intro g k hg hk
      simp only [setCore_memory, setEntry_memory, readPage, memcpy_page _ _ _ _ _ hk, if_neg hg]
  · simp only [hd, Bool.false_eq_true, if_false]
    refine ⟨rfl, rfl, ?_, ?_, ?_, ?_, ?_, ?_, ?_⟩
    · simp [setEntry_pageTable, hfield]
    · intro w hw
      simp [setEntry_pageTable, hw]
    · simp [setCore_coremap]
    · intro g hg
      simp [setCore_coremap, hg]
    · intro h; exact absurd h hd
    · intro h; exact absurd h hd
    · intro g k _ _
      rfl

section Install

variable {s s' : Paging ρ} {v f : Nat}

/-- A resident page other than the new one is not in the frame taken. -/
private theorem page_ne_hole (hi : RepInv (some f) s) {w : Nat} (hw : w < nPages)
    (hm : (s.pageTable w).inmemory = true) : (s.pageTable w).page ≠ f :=
  fun he => (hi.frame_lt w hw hm).2 (by rw [he])

private theorem Installed.slot_eq (hi : RepInv (some f) s) (hm : (s.pageTable v).inmemory = false)
    (h : Installed s v f s') {w : Nat} (hw : w < nPages) (hd : (s.pageTable w).ondisk = true) :
    slot s' w = slot s w := by
  by_cases hne : w = v
  · subst hne
    simp [slot, h.entry, hm, h.page hd]
  · simp only [slot, h.other w hne]
    split
    · rename_i hmw; rw [h.core _ (page_ne_hole hi hw hmw)]
    · rfl

theorem Installed.repInv (hi : RepInv (some f) s) (hf : f < ramPages) (hv : v < nPages)
    (hm : (s.pageTable v).inmemory = false) (h : Installed s v f s') : RepInv none s' := by
  have hdisk : ∀ w, (s'.pageTable w).ondisk = (s.pageTable w).ondisk := by
    intro w
    by_cases hne : w = v
    · rw [hne, h.entry]
    · rw [h.other w hne]
  refine ⟨?_, ?_, ?_, ?_, ?_, ?_⟩
  · intro g w hg _
    by_cases hgf : g = f
    · subst hgf
      rw [h.owner]
      constructor
      · intro he
        cases he
        exact ⟨hv, by rw [h.entry], by rw [h.entry]⟩
      · rintro ⟨hw, hmw, hpw⟩
        by_cases hne : w = v
        · rw [hne]
        · rw [h.other w hne] at hmw hpw
          exact absurd hpw (page_ne_hole hi hw hmw)
    · rw [h.core g hgf, hi.owner_iff g w hg (by simpa using Ne.symm hgf)]
      by_cases hne : w = v
      · subst hne
        simp [h.entry, hm, Ne.symm hgf]
      · rw [h.other w hne]
  · intro w hw hmw
    refine ⟨?_, by simp⟩
    by_cases hne : w = v
    · rw [hne, h.entry]; exact hf
    · rw [h.other w hne] at hmw ⊢
      exact (hi.frame_lt w hw hmw).1
  · rw [h.count]; exact hi.count_le
  · intro w hw hd
    rw [hdisk] at hd
    rw [h.count, h.slot_eq hi hm hw hd]
    exact hi.slot_lt w hw hd
  · intro w x hw hx hdw hdx he
    rw [hdisk] at hdw hdx
    rw [h.slot_eq hi hm hw hdw, h.slot_eq hi hm hx hdx] at he
    exact hi.slot_inj w x hw hx hdw hdx he
  · intro w hw hmw hd hmod k hk
    rw [hdisk] at hd
    rw [h.slot_eq hi hm hw hd, h.swap]
    by_cases hne : w = v
    · subst hne
      rw [h.entry]
      have hslot : slot s w = (s.pageTable w).page := by simp [slot, hm]
      rw [h.loaded hd k hk, hslot]
    · rw [h.other w hne] at hmw hmod ⊢
      rw [h.memory _ _ (page_ne_hole hi hw hmw) hk]
      exact hi.clean w hw hmw hd hmod k hk

theorem Installed.keeps (hi : RepInv (some f) s) (hm : (s.pageTable v).inmemory = false)
    (h : Installed s v f s') : Keeps s s' := by
  intro w k x hw hk hc
  by_cases hne : w = v
  · subst hne
    simp only [contents, hm, Bool.false_eq_true, if_false] at hc
    split at hc
    · rename_i hd
      simp only [contents, h.entry, if_true]
      rw [h.loaded hd k hk]; exact hc
    · cases hc
  · simp only [contents, h.other w hne, h.swap] at hc ⊢
    split
    · rename_i hmw
      rw [if_pos hmw] at hc
      rw [h.memory _ _ (page_ne_hole hi hw hmw) hk]; exact hc
    · rename_i hmw
      rw [if_neg hmw] at hc
      exact hc

end Install

/-! ### `pagefault` and `translate` -/

private theorem pagefault_spec {P : Policy ρ} {s s' : Paging ρ} {v : Nat} (hi : RepInv none s) (hv : v < nPages)
    (hm : (s.pageTable v).inmemory = false) (h : pagefault P s v = some s') :
    RepInv none s' ∧ Keeps s s' ∧ (s'.pageTable v).inmemory = true := by
  have hsame : SameStore s { s with numPagefault := s.numPagefault + 1 } :=
    ⟨rfl, rfl, rfl, rfl, fun _ => rfl, fun _ => rfl, fun _ => rfl, fun _ => rfl⟩
  unfold pagefault at h
  simp only at h
  split at h
  · cases h
  · rename_i f s₁ ht
    cases h
    obtain ⟨hf, hi₁, hk, hnot⟩ := takePhysPage_spec (hsame.repInv hi) ht
    have hins := install_spec s₁ (v := v) hf
    exact ⟨hins.repInv hi₁ hf hv (hnot v hm), (hsame.keeps.trans hk).trans (hins.keeps hi₁ (hnot v hm)),
      by rw [hins.entry]⟩

/-- What an access to the virtual page `v` leaves behind before the word is read or written. -/
structure Translated (s : Paging ρ) (v : Nat) (write : Bool) (s' : Paging ρ) : Prop where
  repInv : RepInv none s'
  keeps : Keeps s s'
  inmemory : (s'.pageTable v).inmemory = true
  modified : write = true → (s'.pageTable v).modified = true

theorem setModified_repInv {s : Paging ρ} (hi : RepInv none s) (v : Nat) :
    RepInv none (s.setEntry v fun e => { e with modified := true }) := by
  have hpage : ∀ w, ((s.setEntry v fun e => { e with modified := true }).pageTable w).page =
      (s.pageTable w).page := by
    intro w; rw [setEntry_pageTable]; split <;> simp_all
  have hmem : ∀ w, ((s.setEntry v fun e => { e with modified := true }).pageTable w).inmemory =
      (s.pageTable w).inmemory := by
    intro w; rw [setEntry_pageTable]; split <;> simp_all
  have hdisk : ∀ w, ((s.setEntry v fun e => { e with modified := true }).pageTable w).ondisk =
      (s.pageTable w).ondisk := by
    intro w; rw [setEntry_pageTable]; split <;> simp_all
  have hslot : ∀ w, slot (s.setEntry v fun e => { e with modified := true }) w = slot s w := by
    intro w; simp only [slot, hpage, hmem, setEntry_coremap]
  refine ⟨?_, ?_, hi.count_le, ?_, ?_, ?_⟩
  · intro f w hf hh
    rw [hmem, hpage]; exact hi.owner_iff f w hf hh
  · intro w hw hm
    rw [hmem] at hm
    rw [hpage]; exact hi.frame_lt w hw hm
  · intro w hw hd
    rw [hdisk] at hd
    rw [hslot]; exact hi.slot_lt w hw hd
  · intro w x hw hx hdw hdx he
    rw [hdisk] at hdw hdx
    rw [hslot, hslot] at he
    exact hi.slot_inj w x hw hx hdw hdx he
  · intro w hw hm hd hmod k hk
    rw [hmem] at hm
    rw [hdisk] at hd
    rw [hslot, hpage]
    by_cases hne : w = v
    · subst hne; simp [setEntry_pageTable] at hmod
    · rw [setEntry_pageTable, if_neg hne] at hmod
      exact hi.clean w hw hm hd hmod k hk

private theorem setModified_keeps (s : Paging ρ) (v : Nat) :
    Keeps s (s.setEntry v fun e => { e with modified := true }) := by
  intro w k x _ _ hc
  simp only [contents, setEntry_pageTable, setEntry_memory, setEntry_swap] at hc ⊢
  by_cases hne : w = v
  · subst hne; simpa using hc
  · simpa [hne] using hc

theorem and_offset (a : Nat) : a &&& (pageSize - 1) = a % pageSize := by
  have : pageSize = 2 ^ 2 := rfl
  rw [this, Nat.and_two_pow_sub_one_eq_mod]

theorem translate_spec {P : Policy ρ} {s s' : Paging ρ} {addr phys : Nat} {write : Bool} (hi : RepInv none s)
    (ha : addr < nPages * pageSize) (h : translate P s addr write = some (phys, s')) :
    Translated s (addr / pageSize) write s' ∧
      phys = (s'.pageTable (addr / pageSize)).page * pageSize + addr % pageSize := by
  have hv : addr / pageSize < nPages := Nat.div_lt_of_lt_mul (by rwa [Nat.mul_comm])
  unfold translate at h
  simp only [and_offset] at h
  generalize addr / pageSize = v at h hv ⊢
  split at h
  · cases h
  rename_i s₁ hs₁
  cases h
  obtain ⟨hi₁, hk₁, hm₁⟩ : RepInv none s₁ ∧ Keeps s s₁ ∧ (s₁.pageTable v).inmemory = true := by
    split at hs₁
    · rename_i hm
      cases hs₁
      exact ⟨hi, fun _ _ _ _ _ hc => hc, hm⟩
    · rename_i hm
      exact pagefault_spec hi hv (by simpa using hm) hs₁
  have hsame := sameStore_setReferenced s₁ v true
  cases write with
  | false =>
    refine ⟨⟨hsame.repInv hi₁, hk₁.trans hsame.keeps, ?_, by simp⟩, rfl⟩
    simpa [hsame.inmemory] using hm₁
  | true =>
    refine ⟨⟨setModified_repInv (hsame.repInv hi₁) v, (hk₁.trans hsame.keeps).trans (setModified_keeps _ v), ?_, ?_⟩,
      rfl⟩
    · simp [setEntry_pageTable, hm₁]
    · simp [setEntry_pageTable]

end Edaf35.Machine
