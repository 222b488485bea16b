import Edaf35.Ssfs.Consistency

/-!
# What `do_rename` does

`do_rename` looks up the old name, removes the file of the new name and then writes the new name into the entry whose
index it found before.  If the removed entry came after that index, or there was none, this renames the file.  If it
came before, `scooch_dir_entries` has moved the entry down by one place, the old name stays, and the new name is
written into the entry after it.
-/

namespace Edaf35.Ssfs

variable {bs : Nat} {δ : Type} [RawDisk bs δ]

/-- The file named `o` is now named `nm`: it keeps its size, mode and first block, an old file `nm` is gone and its
blocks are free, and the other files keep their name, size and first block. -/
structure Renamed (d : δ) (o nm : List UInt8) (d' : δ) : Prop where
  found : ∃ i j, lookup d o = some i ∧ lookup d' nm = some j ∧ (diskDir d' j).sizeBytes = (diskDir d i).sizeBytes ∧
    (diskDir d' j).mode = (diskDir d i).mode ∧ (diskDir d' j).firstBlock = (diskDir d i).firstBlock
  gone : lookup d' o = none
  freed : ∀ j c, lookup d nm = some j → IsChain (diskMap d) eofBlock (diskDir d j).firstBlock c →
    ∃ free, IsChain (diskMap d') 0 (diskMap d' 0) free ∧ ∀ id ∈ c, id ∈ free
  others : ∀ p k, nameKey fsNameLen p ≠ nameKey fsNameLen o → nameKey fsNameLen p ≠ nameKey fsNameLen nm →
    lookup d p = some k → ∃ k', lookup d' p = some k' ∧ (diskDir d' k').name = (diskDir d k).name ∧
      (diskDir d' k').sizeBytes = (diskDir d k).sizeBytes ∧ (diskDir d' k').firstBlock = (diskDir d k).firstBlock
  wellFormed : WellFormed d'

/-- A used entry with the name is found if the entries before it are used. -/
private theorem findLoop_ne_none {b : Block bs} {path : List UInt8} {m k di : Nat} (hle : di ≤ m) (hlt : m < di + k)
    (hused : ∀ j, di ≤ j → j ≤ m → (b.entry j).isEmpty = false) (hname : HasName (b.entry m) path) :
    findLoop b path k di ≠ none := by
  induction k generalizing di with
  | zero => omega
  | succ k ih =>
    rw [findLoop, if_neg (by rw [hused di (Nat.le_refl _) hle]; decide)]
    by_cases hdi : HasName (b.entry di) path
    · rw [if_pos (strncmp_path_iff.2 hdi)]
      simp
    · have hne : di ≠ m := by rintro rfl; exact hdi hname
      rw [if_neg (fun hc => hdi (strncmp_path_iff.1 hc))]
      exact ih (by omega) (by omega) fun j hj hjm => hused j (by omega) hjm

/-- The entry of a file that got the name `nm`. -/
def DirEntry.named (e : DirEntry) (nm : List UInt8) (now : UInt64) : DirEntry :=
  { e with name := padName (cstr nm), lastMod := now.toNat }

theorem DirEntry.named_hasName (e : DirEntry) (nm : List UInt8) (now : UInt64) : HasName (e.named nm now) nm :=
  nameKey_padName nm

variable {n i : Nat} {free : List Nat} {file : Nat → List Nat} {nm : List UInt8} {now : UInt64}

/-- An entry of a table may get a new name that no entry has. -/
private theorem Table.rename {dir : Nat → DirEntry} (h : Table bs dir n) (hne : nameKey fsNameLen nm ≠ [])
    (hnew : ∀ j, j < n → ¬HasName (dir j) nm) (hi : i < n) :
    Table bs (Function.update dir i ((dir i).named nm now)) n := by
  have hdiff : ∀ j, j < n → strncmp (dir j).name ((dir i).named nm now).name fsNameLen ≠ 0 :=
    fun j hj hc => hnew j hj ((strncmp_eq_zero_iff.1 hc).trans (DirEntry.named_hasName ..))
  refine ⟨h.count_le, ?_, ?_, ?_⟩
  · intro j hj
    by_cases hji : j = i
    · subst hji
      rw [Function.update_self, Bool.eq_false_iff, ne_eq, isEmpty_iff, DirEntry.named_hasName]
      exact hne
    · rw [Function.update_of_ne hji]; exact h.used j hj
  · intro j hj hjN
    rw [Function.update_of_ne (by omega)]; exact h.unused j hj hjN
  · intro j k hj hk hjk
    by_cases hji : j = i
    · subst hji
      rw [Function.update_self, Function.update_of_ne (Ne.symm hjk)]
      exact fun hc => hdiff k hk (strncmp_eq_zero_iff.2 (strncmp_eq_zero_iff.1 hc).symm)
    · rw [Function.update_of_ne hji]
      by_cases hki : k = i
      · subst hki; rw [Function.update_self]; exact hdiff j hj
      · rw [Function.update_of_ne hki]; exact h.names j k hj hk hjk

variable [LawfulRawDisk bs δ] {s : Fs bs δ}

/-- The end of `do_rename`: the name and the time of entry `i` are set and the directory is saved. -/
theorem saveNamed_spec (hcached : s.bdir.entry = diskDir s.disk) (hi : i < dirEntriesPerBlock bs)
    (nm : List UInt8) (now : UInt64) :
    ∃ s', saveDirectory { s with bdir := setLastMod (setName s.bdir i (cstr nm)) i now.toNat } = s' ∧
      diskDir s'.disk = Function.update (diskDir s.disk) i ((diskDir s.disk i).named nm now) ∧
      diskMap s'.disk = diskMap s.disk := by
  refine ⟨_, rfl, ?_, diskMap_saveDirectory _⟩
  rw [diskDir_saveDirectory]
  simp only [entry_setLastMod _ hi, entry_setName _ hi, hcached, Function.update_self, Function.update_idem,
    Nat.mod_eq_of_lt now.toNat_lt, DirEntry.named]

/-- What the removal of the new name leaves, when entry `i` stays in its place. -/
structure Vacated (d : δ) (n i : Nat) (file : Nat → List Nat) (nm : List UInt8) (s₁ : Fs bs δ) (n₁ : Nat)
    (free₁ : List Nat) (file₁ : Nat → List Nat) : Prop where
  cached : s₁.bdir.entry = diskDir s₁.disk
  wellFormed : WellFormedAt bs (diskMap s₁.disk) (diskDir s₁.disk) n₁ free₁ file₁
  lt : i < n₁
  entry : diskDir s₁.disk i = diskDir d i
  absent : ∀ k, k < n₁ → ¬HasName (diskDir s₁.disk k) nm
  old : ∀ k, k < n₁ → k ≠ i → ∃ k₀, k₀ < n ∧ k₀ ≠ i ∧ diskDir s₁.disk k = diskDir d k₀
  kept : ∀ k, k < n → k ≠ i → ¬HasName (diskDir d k) nm → ∃ k₁, k₁ < n₁ ∧ k₁ ≠ i ∧ diskDir s₁.disk k₁ = diskDir d k
  freed : ∀ j, lookup d nm = some j → ∀ id ∈ file j, id ∈ free₁

private theorem doUnlink_vacated {npath : List UInt8} {fuel : Nat} (now : UInt64)
    (h : WellFormedAt bs (diskMap s.disk) (diskDir s.disk) n free file) (hfuel : fsNblocks ≤ fuel) (hi : i < n)
    (hafter : ∀ j, lookup s.disk npath.tail = some j → i < j) :
    ∃ r s₁ n₁ free₁ file₁, doUnlink fuel (loadDirectory s) npath now = some (r, s₁) ∧
      Vacated s.disk n i file npath.tail s₁ n₁ free₁ file₁ := by
  have hload : (loadDirectory s).disk = s.disk := rfl
  cases hl : lookup s.disk npath.tail with
  | none =>
    have habs := h.lookup_eq_none.1 hl
    refine ⟨_, _, n, free, file, doUnlink_absent (s := loadDirectory s) fuel h habs, ?_⟩
    exact ⟨loadDirectory_entry _, h, hi, rfl, habs, fun k hk hki => ⟨k, hk, hki, rfl⟩,
      fun k hk hki _ => ⟨k, hk, hki, rfl⟩, fun j hj => by rw [hl] at hj; simp at hj⟩
  | some j =>
    have hij := hafter j hl
    obtain ⟨hj, hnj⟩ := h.lookup_eq_some.1 hl
    obtain ⟨s₁, hs₁, hr⟩ := doUnlink_spec (s := loadDirectory s) now h hj hnj hfuel
    have hskip : ∀ k, k < i → skip j k = k := fun k hk => if_pos (by omega)
    have hdir : ∀ k, k < n - 1 → diskDir s₁.disk k = diskDir s.disk (skip j k) := fun k hk => hr.dir k (by omega)
    have hskipi : skip j i = i := if_pos hij
    refine ⟨_, s₁, n - 1, _, _, hs₁, hr.cached, hr.wellFormed, by omega, ?_, ?_, ?_, ?_, ?_⟩
    · rw [hdir i (by omega), hskipi]
    · intro k hk hname
      rw [hdir k hk] at hname
      exact skip_ne j k (h.table.unique (skip_lt (by omega)) hj hname hnj)
    · intro k hk hki
      exact ⟨skip j k, skip_lt (by omega), hskipi ▸ skip_inj hki, hdir k hk⟩
    · intro k hk hki hname
      have hkj : k ≠ j := by rintro rfl; exact hname hnj
      obtain ⟨k₁, hk₁, rfl⟩ := exists_skip hj hk hkj
      exact ⟨k₁, by omega, by rintro rfl; exact hki hskipi, hdir k₁ (by omega)⟩
    · intro j' hj' id hid
      obtain rfl : j = j' := by rw [hl] at hj'; exact Option.some.inj hj'
      simp [hid]

private theorem doRename_of_after {opath npath : List UInt8} {fuel : Nat} (now now' : UInt64)
    (h : WellFormedAt bs (diskMap s.disk) (diskDir s.disk) n free file) (hfuel : fsNblocks ≤ fuel)
    (hl : lookup s.disk opath.tail = some i) (hne : nameKey fsNameLen npath.tail ≠ [])
    (hon : nameKey fsNameLen npath.tail ≠ nameKey fsNameLen opath.tail)
    (hafter : ∀ j, lookup s.disk npath.tail = some j → i < j) :
    ∃ s', doRename fuel s opath npath now now' = some (0, s') ∧ Renamed s.disk opath.tail npath.tail s'.disk := by
  obtain ⟨hi, hname⟩ := h.lookup_eq_some.1 hl
  have hN : i < dirEntriesPerBlock bs := Nat.lt_of_lt_of_le hi h.table.count_le
  have hfind := (h.findDirEntry_iff s rfl).2 ⟨hi, hname⟩
  obtain ⟨r, s₁, n₁, free₁, file₁, hs₁, hv⟩ := doUnlink_vacated now h hfuel hi hafter
  obtain ⟨s₂, hs₂, hdir, hmap⟩ := saveNamed_spec hv.cached hN npath.tail now'
  have hdiri : diskDir s₂.disk i = (diskDir s.disk i).named npath.tail now' := by
    rw [hdir, Function.update_self, hv.entry]
  have hdirk : ∀ k, k ≠ i → diskDir s₂.disk k = diskDir s₁.disk k :=
    fun k hk => by rw [hdir, Function.update_of_ne hk]
  have hwf₂ : WellFormedAt bs (diskMap s₂.disk) (diskDir s₂.disk) n₁ free₁ file₁ := by
    refine ⟨h.mapHolds, ?_, ?_, ?_⟩
    · rw [hdir]
      exact hv.wellFormed.table.rename hne hv.absent hv.lt
    · rw [hmap]
      apply hv.wellFormed.partition.congr_first
      intro k _
      by_cases hk : k = i
      · subst hk; rw [hdiri, hv.entry]; rfl
      · rw [hdirk k hk]
    · intro k hk hpos
      by_cases hki : k = i
      · subst hki
        rw [hdiri] at hpos ⊢
        exact h.hasBlock k hi hpos
      · rw [hdirk k hki] at hpos ⊢
        exact hv.wellFormed.hasBlock k hk hpos
  refine ⟨s₂, ?_, ?_, ?_, ?_, ?_, ⟨n₁, free₁, file₁, hwf₂⟩⟩
  · unfold doRename
    simp only [hfind, hs₁, Option.bind_eq_bind, Option.bind_some, Option.pure_def]
    rw [hs₂]
  · refine ⟨i, i, hl, hwf₂.lookup_eq_some.2 ⟨hv.lt, ?_⟩, ?_⟩
    · rw [hdiri]; exact DirEntry.named_hasName ..
    · rw [hdiri]; exact ⟨rfl, rfl, rfl⟩
  · apply hwf₂.lookup_eq_none.2
    intro k hk hno
    by_cases hki : k = i
    · subst hki
      rw [hdiri] at hno
      exact hon ((DirEntry.named_hasName ..).symm.trans hno)
    · obtain ⟨k₀, hk₀, hk₀i, hd⟩ := hv.old k hk hki
      rw [hdirk k hki, hd] at hno
      exact hk₀i (h.table.unique hk₀ hi hno hname)
  · intro j c hj hc
    obtain ⟨hjn, -⟩ := h.lookup_eq_some.1 hj
    refine ⟨free₁, hwf₂.partition.freeChain, ?_⟩
    rw [hc.unique (h.partition.fileChain j hjn)]
    exact hv.freed j hj
  · intro p k hpo hpn hp
    obtain ⟨hk, hnp⟩ := h.lookup_eq_some.1 hp
    have hki : k ≠ i := by rintro rfl; exact hpo (hnp.symm.trans hname)
    obtain ⟨k₁, hk₁, hk₁i, hd⟩ := hv.kept k hk hki fun hn => hpn (hnp.symm.trans hn)
    refine ⟨k₁, hwf₂.lookup_eq_some.2 ⟨hk₁, ?_⟩, ?_⟩
    · rw [hdirk k₁ hk₁i, hd]; exact hnp
    · rw [hdirk k₁ hk₁i, hd]; exact ⟨rfl, rfl, rfl⟩

/-- If the removed entry came before, the old name is still found: its entry has moved down. -/
private theorem doRename_of_before {opath npath : List UInt8} {fuel j : Nat} (now now' : UInt64)
    (h : WellFormedAt bs (diskMap s.disk) (diskDir s.disk) n free file) (hfuel : fsNblocks ≤ fuel)
    (hl : lookup s.disk opath.tail = some i) (hj : lookup s.disk npath.tail = some j) (hji : j < i) :
    ∃ s', doRename fuel s opath npath now now' = some (0, s') ∧ lookup s'.disk opath.tail ≠ none := by
  obtain ⟨hi, hname⟩ := h.lookup_eq_some.1 hl
  obtain ⟨hjn, hnj⟩ := h.lookup_eq_some.1 hj
  have hN : i < dirEntriesPerBlock bs := Nat.lt_of_lt_of_le hi h.table.count_le
  have hfind := (h.findDirEntry_iff s rfl).2 ⟨hi, hname⟩
  obtain ⟨s₁, hs₁, hr⟩ := doUnlink_spec (s := loadDirectory s) now h hjn hnj hfuel
  obtain ⟨s₂, hs₂, hdir, -⟩ := saveNamed_spec hr.cached hN npath.tail now'
  have hdirk : ∀ k, k < i → diskDir s₂.disk k = diskDir s₁.disk k :=
    fun k hk => by rw [hdir, Function.update_of_ne (by omega)]
  refine ⟨s₂, ?_, findLoop_ne_none (m := i - 1) (Nat.zero_le _) (by omega) ?_ ?_⟩
  · unfold doRename
    simp only [hfind, hs₁, Option.bind_eq_bind, Option.bind_some, Option.pure_def]
    rw [hs₂]
  · intro k _ hk
    show (diskDir s₂.disk k).isEmpty = false
    rw [hdirk k (by omega)]
    exact hr.wellFormed.table.used k (by omega)
  · show HasName (diskDir s₂.disk (i - 1)) opath.tail
    have hskip : skip j (i - 1) = i := by unfold skip; rw [if_neg (by omega)]; omega
    rw [hdirk _ (by omega), hr.dir (i - 1) (by omega), hskip]
    exact hname

/-- `do_rename` returns 0, and it renames the file if and only if no file of the new name comes before it in the
directory. -/
theorem doRename_iff (opath npath : List UInt8) (fuel : Nat) (now now' : UInt64) (h : WellFormed s.disk)
    (hfuel : fsNblocks ≤ fuel) (hl : lookup s.disk opath.tail = some i) (hne : nameKey fsNameLen npath.tail ≠ [])
    (hon : nameKey fsNameLen npath.tail ≠ nameKey fsNameLen opath.tail) :
    ∃ s', doRename fuel s opath npath now now' = some (0, s') ∧
      (Renamed s.disk opath.tail npath.tail s'.disk ↔ ∀ j, lookup s.disk npath.tail = some j → i < j) := by
  obtain ⟨n, free, file, h⟩ := h
  by_cases hafter : ∀ j, lookup s.disk npath.tail = some j → i < j
  · obtain ⟨s', hs', hr⟩ := doRename_of_after now now' h hfuel hl hne hon hafter
    exact ⟨s', hs', fun _ => hafter, fun _ => hr⟩
  · simp only [not_forall] at hafter
    obtain ⟨j, hj, hle⟩ := hafter
    have hji : j ≠ i := by
      rintro rfl
      exact hon ((h.lookup_eq_some.1 hj).2.symm.trans (h.lookup_eq_some.1 hl).2)
    obtain ⟨s', hs', hfound⟩ := doRename_of_before now now' h hfuel hl hj (by omega)
    exact ⟨s', hs', fun hr => absurd hr.gone hfound, fun hall => absurd (hall j hj) hle⟩

/-! ### Two files -/

/-- The path `/b`. -/
def pathB : List UInt8 := [47, 98]

/-- A disk with the files `b` and `a`, in this order. -/
def twoFiles : Fs 512 (RamDisk 512) := created (created mounted pathB) pathA

theorem wellFormedAt_twoFiles :
    WellFormedAt 512 (diskMap twoFiles.disk) (diskDir twoFiles.disk) 2 (List.range' 2 8) fun _ => [] := by
  have h₁ := created_wellFormedAt pathB wellFormedAt_mounted (by decide) (by decide) (by decide)
  have h₂ := created_wellFormedAt pathA h₁ (by decide) (by decide) (by decide)
  rwa [Function.update_eq_self, Function.update_eq_self] at h₂

theorem doRename_iff_twoFiles :
    (∃ s', doRename 10 twoFiles pathB pathA 0 0 = some (0, s') ∧ Renamed twoFiles.disk [98] [97] s'.disk) ∧
      ∃ s', doRename 10 twoFiles pathA pathB 0 0 = some (0, s') ∧ ¬Renamed twoFiles.disk [97] [98] s'.disk := by
  have ha : lookup twoFiles.disk pathA.tail = some 1 := by decide
  have hb : lookup twoFiles.disk pathB.tail = some 0 := by decide
  constructor
  · obtain ⟨s', hs', hr⟩ := doRename_iff pathB pathA 10 0 0 ⟨_, _, _, wellFormedAt_twoFiles⟩
      (by decide) hb (by decide) (by decide)
    refine ⟨s', hs', hr.2 fun j hj => ?_⟩
    obtain rfl : 1 = j := by rw [ha] at hj; exact Option.some.inj hj
    decide
  · obtain ⟨s', hs', hr⟩ := doRename_iff pathA pathB 10 0 0 ⟨_, _, _, wellFormedAt_twoFiles⟩
      (by decide) ha (by decide) (by decide)
    exact ⟨s', hs', fun h => absurd (hr.1 h 0 hb) (by decide)⟩

/-- Renaming `a` to `b` when `b` comes first: `a` is still found, and block 2 belongs to both. -/
theorem doRename_not_moved :
    WellFormed (wrote twoFiles pathA).disk ∧
      ∃ s', doRename 10 (wrote twoFiles pathA) pathA pathB 0 0 = some (0, s') ∧
        ¬Renamed (wrote twoFiles pathA).disk [97] [98] s'.disk ∧ lookup s'.disk [97] = some 0 ∧
        lookup s'.disk [98] = some 1 ∧ (diskDir s'.disk 0).firstBlock = 2 ∧ (diskDir s'.disk 1).firstBlock = 2 := by
  have hev : (doRename 10 (wrote twoFiles pathA) pathA pathB 0 0).map (fun x => (x.1, lookup x.2.disk [97],
      lookup x.2.disk [98], (diskDir x.2.disk 0).firstBlock, (diskDir x.2.disk 1).firstBlock)) =
      some (0, some 0, some 1, 2, 2) := by decide
  obtain ⟨⟨r, s'⟩, hs', hr⟩ := Option.map_eq_some_iff.1 hev
  simp only [Prod.mk.injEq] at hr
  obtain ⟨rfl, hfound, hr⟩ := hr
  refine ⟨⟨_, _, _, wrote_wellFormedAt wellFormedAt_twoFiles (i := 1) (by decide) rfl⟩, s', hs', ?_, hfound, hr⟩
  intro h
  simp [h.gone] at hfound

end Edaf35.Ssfs
