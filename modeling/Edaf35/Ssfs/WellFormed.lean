import Edaf35.Lib.Chain
import Edaf35.Ssfs.Ops

/-!
# Well-formed disks

A disk is well formed when its directory is a table of `n` entries with different names (`Table`) and its block map
splits the data blocks into the free list, a chain from `blockmap[0]` ending at 0, and one chain for each entry, from
its `first_block`, ending at `EOF_BLOCK` (`Partition`).  The chains are given as lists, `free` and `file i`; that a
chain visits distinct blocks is part of being a chain (`IsChain.nodup`).

A partition survives the three things the file operations do to it: taking the first free block for a file, giving
all blocks of a file back, and adding or removing a file without blocks.
-/

namespace Edaf35.Ssfs

/-- The blocks that belong to files or to the free list. -/
def DataBlock (id : Nat) : Prop := 2 ≤ id ∧ id < fsNblocks

/-- The block map `m` splits the data blocks into `free` and the chains `file i` from `first i`, `i < n`. -/
structure Partition (m first : Nat → Nat) (n : Nat) (free : List Nat) (file : Nat → List Nat) : Prop where
  freeChain : IsChain m 0 (m 0) free
  fileChain : ∀ i, i < n → IsChain m eofBlock (first i) (file i)
  free_data : ∀ id ∈ free, DataBlock id
  file_data : ∀ i, i < n → ∀ id ∈ file i, DataBlock id
  file_free : ∀ i, i < n → ∀ id ∈ file i, id ∉ free
  file_file : ∀ i j, i < n → j < n → i ≠ j → ∀ id ∈ file i, id ∉ file j
  cover : ∀ id, DataBlock id → id ∈ free ∨ ∃ i, i < n ∧ id ∈ file i

/-- The first `n` entries are the used ones and have different names. -/
structure Table (bs : Nat) (dir : Nat → DirEntry) (n : Nat) : Prop where
  count_le : n ≤ dirEntriesPerBlock bs
  used : ∀ i, i < n → (dir i).isEmpty = false
  unused : ∀ i, n ≤ i → i < dirEntriesPerBlock bs → (dir i).isEmpty = true
  names : ∀ i j, i < n → j < n → i ≠ j → strncmp (dir i).name (dir j).name fsNameLen ≠ 0

structure WellFormedAt (bs : Nat) (m : Nat → Nat) (dir : Nat → DirEntry) (n : Nat) (free : List Nat)
    (file : Nat → List Nat) : Prop where
  mapHolds : fsNblocks ≤ blockidsPerBlock bs
  table : Table bs dir n
  partition : Partition m (fun i => (dir i).firstBlock) n free file
  hasBlock : ∀ i, i < n → 0 < (dir i).sizeBytes → (dir i).firstBlock ≠ eofBlock

/-- The first `n` entries are the used ones; several may have the same name. -/
structure Slots (bs : Nat) (dir : Nat → DirEntry) (n : Nat) : Prop where
  count_le : n ≤ dirEntriesPerBlock bs
  used : ∀ i, i < n → (dir i).isEmpty = false
  unused : ∀ i, n ≤ i → i < dirEntriesPerBlock bs → (dir i).isEmpty = true

/-- A disk that is well formed but for entries of the same name. -/
structure SoundAt (bs : Nat) (m : Nat → Nat) (dir : Nat → DirEntry) (n : Nat) (free : List Nat)
    (file : Nat → List Nat) : Prop where
  mapHolds : fsNblocks ≤ blockidsPerBlock bs
  slots : Slots bs dir n
  partition : Partition m (fun i => (dir i).firstBlock) n free file
  hasBlock : ∀ i, i < n → 0 < (dir i).sizeBytes → (dir i).firstBlock ≠ eofBlock

variable {bs : Nat} {δ : Type}

theorem Table.slots {dir : Nat → DirEntry} {n : Nat} (h : Table bs dir n) : Slots bs dir n :=
  ⟨h.count_le, h.used, h.unused⟩

section Sound

variable {m : Nat → Nat} {dir : Nat → DirEntry} {n i : Nat} {free : List Nat} {file : Nat → List Nat}

theorem WellFormedAt.sound (h : WellFormedAt bs m dir n free file) : SoundAt bs m dir n free file :=
  ⟨h.mapHolds, h.table.slots, h.partition, h.hasBlock⟩

theorem SoundAt.wellFormed (h : SoundAt bs m dir n free file) (ht : Table bs dir n) :
    WellFormedAt bs m dir n free file :=
  ⟨h.mapHolds, ht, h.partition, h.hasBlock⟩

/-- An entry without blocks has size 0. -/
theorem SoundAt.sizeBytes_of_nil (h : SoundAt bs m dir n free file) (hi : i < n) (hcf : file i = []) :
    (dir i).sizeBytes = 0 := by
  have hfirst := h.partition.fileChain i hi
  rw [hcf] at hfirst
  by_contra hne
  exact h.hasBlock i hi (by omega) hfirst

theorem WellFormedAt.sizeBytes_of_nil (h : WellFormedAt bs m dir n free file) (hi : i < n) (hcf : file i = []) :
    (dir i).sizeBytes = 0 := h.sound.sizeBytes_of_nil hi hcf

end Sound

section Disk

variable [RawDisk bs δ]

/-- Block `id` of the disk. -/
def diskBlock (d : δ) (id : Nat) : Block bs := readBlock d id fun _ => 0

/-- The block map on the disk. -/
def diskMap (d : δ) : Nat → Nat := (diskBlock d blkmapBid).ids

/-- The directory on the disk. -/
def diskDir (d : δ) : Nat → DirEntry := (diskBlock d rootdirBid).entry

def WellFormed (d : δ) : Prop := ∃ n free file, WellFormedAt bs (diskMap d) (diskDir d) n free file

variable [LawfulRawDisk bs δ]

theorem readBlock_eq (d : δ) {id : Nat} (h : id < fsNblocks) (buf : Block bs) : readBlock d id buf = diskBlock d id :=
  LawfulRawDisk.read_whole d id buf _ h

theorem diskBlock_write_same (d : δ) {id : Nat} (h : id < fsNblocks) (b : Block bs) :
    diskBlock (writeBlock d id b) id = b := LawfulRawDisk.read_write_same d id b _ h

theorem diskBlock_write_other (d : δ) {id id' : Nat} (h : id' < fsNblocks) (hne : id' ≠ id) (b : Block bs) :
    diskBlock (writeBlock d id b) id' = diskBlock d id' := LawfulRawDisk.read_write_other d id id' b _ h hne

@[simp] theorem loadDirectory_entry (s : Fs bs δ) : (loadDirectory s).bdir.entry = diskDir s.disk := by
  simp only [loadDirectory, diskDir, readBlock_eq s.disk (show rootdirBid < fsNblocks by decide)]

@[simp] theorem loadBlockmap_ids (s : Fs bs δ) : (loadBlockmap s).bmap.ids = diskMap s.disk := by
  simp only [loadBlockmap, diskMap, readBlock_eq s.disk (show blkmapBid < fsNblocks by decide)]

@[simp] theorem diskDir_saveDirectory (s : Fs bs δ) : diskDir (saveDirectory s).disk = s.bdir.entry := by
  simp only [diskDir, saveDirectory, diskBlock_write_same s.disk (show rootdirBid < fsNblocks by decide)]

@[simp] theorem diskMap_saveDirectory (s : Fs bs δ) : diskMap (saveDirectory s).disk = diskMap s.disk := by
  simp only [diskMap, saveDirectory,
    diskBlock_write_other s.disk (show blkmapBid < fsNblocks by decide) (show blkmapBid ≠ rootdirBid by decide)]

@[simp] theorem diskMap_saveBlockmap (s : Fs bs δ) : diskMap (saveBlockmap s).disk = s.bmap.ids := by
  simp only [diskMap, saveBlockmap, diskBlock_write_same s.disk (show blkmapBid < fsNblocks by decide)]

@[simp] theorem diskDir_saveBlockmap (s : Fs bs δ) : diskDir (saveBlockmap s).disk = diskDir s.disk := by
  simp only [diskDir, saveBlockmap,
    diskBlock_write_other s.disk (show rootdirBid < fsNblocks by decide) (show rootdirBid ≠ blkmapBid by decide)]

theorem DataBlock.ne_blkmap {id : Nat} (h : DataBlock id) : id ≠ blkmapBid := by
  have := h.1
  simp only [blkmapBid]; omega

theorem DataBlock.ne_rootdir {id : Nat} (h : DataBlock id) : id ≠ rootdirBid := by
  have := h.1
  simp only [rootdirBid]; omega

theorem DataBlock.ne_eof {id : Nat} (h : DataBlock id) : id ≠ eofBlock := by
  have := h.2
  simp only [fsNblocks, eofBlock] at *; omega

end Disk

/-! ### Changing a partition -/

section Partition

variable {m m' first first' : Nat → Nat} {n i : Nat} {free : List Nat} {file : Nat → List Nat}

theorem Partition.congr_first (h : Partition m first n free file) (hf : ∀ j, j < n → first' j = first j) :
    Partition m first' n free file :=
  { h with fileChain := fun j hj => by rw [hf j hj]; exact h.fileChain j hj }

theorem Partition.data_of_mem {a : Nat} (h : Partition m first n free file) (hi : i < n)
    (ha : a ∈ file i ++ free) : DataBlock a := by
  rcases List.mem_append.1 ha with hm | hm
  · exact h.file_data i hi a hm
  · exact h.free_data a hm

private theorem Partition.zero_notMem_file (h : Partition m first n free file) (hi : i < n) : 0 ∉ file i :=
  fun hm => by have := (h.file_data i hi 0 hm).1; omega

private theorem Partition.zero_notMem_free (h : Partition m first n free file) : 0 ∉ free :=
  fun hm => by have := (h.free_data 0 hm).1; omega

private theorem mem_extended {a id j : Nat} :
    id ∈ Function.update file i (file i ++ [a]) j ↔ id ∈ file j ∨ j = i ∧ id = a := by
  by_cases hji : j = i
  · subst hji
    rw [Function.update_self, List.mem_append, List.mem_singleton]
    simp
  · rw [Function.update_of_ne hji]
    simp [hji]

/-- The chain of the file that takes the block `a`. -/
private theorem Partition.extend_chain {a : Nat} {l : List Nat} (h : Partition m first n (a :: l) file) (hi : i < n)
    (ha : m' a = eofBlock) (hlast : ∀ pre b, file i = pre ++ [b] → m' b = a)
    (hother : ∀ id, id ≠ 0 → id ≠ a → (∀ pre b, file i = pre ++ [b] → id ≠ b) → m' id = m id) :
    IsChain m' eofBlock (if file i = [] then a else first i) (file i ++ [a]) := by
  have hda := h.free_data a (by simp)
  refine (h.fileChain i hi).snoc hda.ne_eof ha (fun c hc => ?_) (fun hnil => if_pos hnil) fun hne => if_neg hne
  split
  · next hl =>
    obtain ⟨pre, hpre⟩ := List.getLast?_eq_some_iff.1 hl
    exact hlast pre c hpre
  · next hl =>
    refine hother c ?_ ?_ ?_
    · rintro rfl
      exact h.zero_notMem_file hi hc
    · rintro rfl
      exact h.file_free i hi c hc (by simp)
    · rintro pre b hb rfl
      exact hl (List.getLast?_eq_some_iff.2 ⟨pre, hb⟩)

variable (m') in
/-- Taking the first free block `a` and appending it to file `i`.  The map `m'` links the rest of the free list from
0, ends file `i` at `a` and links the old last block of the file, if there is one, to `a`. -/
theorem Partition.extend {a : Nat} {l : List Nat} (h : Partition m first n (a :: l) file) (hi : i < n)
    (h0 : m' 0 = m a) (ha : m' a = eofBlock)
    (hlast : ∀ pre b, file i = pre ++ [b] → m' b = a)
    (hother : ∀ id, id ≠ 0 → id ≠ a → (∀ pre b, file i = pre ++ [b] → id ≠ b) → m' id = m id) :
    Partition m' (if file i = [] then Function.update first i a else first) n l
      (Function.update file i (file i ++ [a])) := by
  have hda := h.free_data a (by simp)
  have hnd := h.freeChain.nodup
  rw [List.nodup_cons] at hnd
  have hafile : ∀ j, j < n → a ∉ file j := fun j hj hm => h.file_free j hj a hm (by simp)
  refine ⟨?_, ?_, fun id hid => h.free_data id (by simp [hid]), ?_, ?_, ?_, ?_⟩
  · rw [h0]
    refine h.freeChain.tail.congr fun b hb => hother b ?_ ?_ ?_
    · rintro rfl; exact h.zero_notMem_free (by simp [hb])
    · rintro rfl; exact hnd.1 hb
    · rintro pre c hc rfl
      exact h.file_free i hi b (by simp [hc]) (by simp [hb])
  · intro j hj
    by_cases hji : j = i
    · subst hji
      have hchain := h.extend_chain hj ha hlast hother
      rw [Function.update_self]
      split
      · rw [Function.update_self]
        rwa [if_pos ‹_›] at hchain
      · rwa [if_neg ‹_›] at hchain
    · have hfirst : (if file i = [] then Function.update first i a else first) j = first j := by
        split
        · rw [Function.update_of_ne hji]
        · rfl
      rw [Function.update_of_ne hji, hfirst]
      refine (h.fileChain j hj).congr fun c hc => hother c ?_ ?_ ?_
      · rintro rfl; exact h.zero_notMem_file hj hc
      · rintro rfl; exact hafile j hj hc
      · rintro pre b hb rfl
        exact h.file_file i j hi hj (Ne.symm hji) c (by simp [hb]) hc
  · intro j hj id hid
    rcases mem_extended.1 hid with hid | ⟨-, rfl⟩
    · exact h.file_data j hj id hid
    · exact hda
  · intro j hj id hid
    rcases mem_extended.1 hid with hid | ⟨-, rfl⟩
    · exact fun hm => h.file_free j hj id hid (by simp [hm])
    · exact hnd.1
  · intro j k hj hk hjk id hid hid'
    rcases mem_extended.1 hid with hold | ⟨rfl, rfl⟩
    · rcases mem_extended.1 hid' with hold' | ⟨-, rfl⟩
      · exact h.file_file j k hj hk hjk id hold hold'
      · exact hafile j hj hold
    · rcases mem_extended.1 hid' with hold' | ⟨rfl, -⟩
      · exact hafile k hk hold'
      · exact hjk rfl
  · intro id hid
    rcases h.cover id hid with hm | ⟨j, hj, hm⟩
    · rw [List.mem_cons] at hm
      rcases hm with rfl | hm
      · exact Or.inr ⟨i, hi, mem_extended.2 (Or.inr ⟨rfl, rfl⟩)⟩
      · exact Or.inl hm
    · exact Or.inr ⟨j, hj, mem_extended.2 (Or.inl hm)⟩

/-- Giving all blocks of file `i` back: the free list grows by them in reverse order. -/
theorem Partition.release (h : Partition m first n free file) (hi : i < n)
    (hfree : IsChain m' 0 (m' 0) ((file i).reverse ++ free))
    (hother : ∀ id, id ≠ 0 → id ∉ file i → m' id = m id) :
    Partition m' (Function.update first i eofBlock) n ((file i).reverse ++ free) (Function.update file i []) := by
  refine ⟨hfree, ?_, ?_, ?_, ?_, ?_, ?_⟩
  · intro j hj
    by_cases hji : j = i
    · subst hji; simp
    · rw [Function.update_of_ne hji, Function.update_of_ne hji]
      refine (h.fileChain j hj).congr fun c hc => hother c ?_ ?_
      · rintro rfl; exact h.zero_notMem_file hj hc
      · exact h.file_file j i hj hi hji c hc
  · intro id hid
    simp only [List.mem_append, List.mem_reverse] at hid
    rcases hid with hid | hid
    · exact h.file_data i hi id hid
    · exact h.free_data id hid
  · intro j hj id hid
    by_cases hji : j = i
    · subst hji; simp at hid
    · rw [Function.update_of_ne hji] at hid
      exact h.file_data j hj id hid
  · intro j hj id hid
    by_cases hji : j = i
    · subst hji; simp at hid
    · rw [Function.update_of_ne hji] at hid
      simp only [List.mem_append, List.mem_reverse, not_or]
      exact ⟨h.file_file j i hj hi hji id hid, h.file_free j hj id hid⟩
  · intro j k hj hk hjk id hid
    by_cases hji : j = i
    · subst hji; simp at hid
    · rw [Function.update_of_ne hji] at hid
      by_cases hki : k = i
      · subst hki; simp
      · rw [Function.update_of_ne hki]
        exact h.file_file j k hj hk hjk id hid
  · intro id hid
    rcases h.cover id hid with hm | ⟨j, hj, hm⟩
    · exact Or.inl (by simp [hm])
    · by_cases hji : j = i
      · subst hji; exact Or.inl (by simp [hm])
      · exact Or.inr ⟨j, hj, by rwa [Function.update_of_ne hji]⟩

/-- A new file without blocks. -/
theorem Partition.add (h : Partition m first n free file) (hfirst : first n = eofBlock) :
    Partition m first (n + 1) free (Function.update file n []) := by
  have hcase : ∀ j, j < n + 1 → j = n ∨ j < n := fun j hj => by omega
  have hne : ∀ j, j < n → Function.update file n [] j = file j :=
    fun j hj => Function.update_of_ne (by omega) _ _
  refine ⟨h.freeChain, ?_, h.free_data, ?_, ?_, ?_, ?_⟩
  · intro j hj
    rcases hcase j hj with rfl | hj
    · simpa using hfirst
    · rw [hne j hj]; exact h.fileChain j hj
  · intro j hj id hid
    rcases hcase j hj with rfl | hj
    · simp at hid
    · rw [hne j hj] at hid; exact h.file_data j hj id hid
  · intro j hj id hid
    rcases hcase j hj with rfl | hj
    · simp at hid
    · rw [hne j hj] at hid; exact h.file_free j hj id hid
  · intro j k hj hk hjk id hid
    rcases hcase j hj with rfl | hj
    · simp at hid
    · rw [hne j hj] at hid
      rcases hcase k hk with rfl | hk
      · simp
      · rw [hne k hk]; exact h.file_file j k hj hk hjk id hid
  · intro id hid
    rcases h.cover id hid with hm | ⟨j, hj, hm⟩
    · exact Or.inl hm
    · exact Or.inr ⟨j, by omega, by rwa [hne j hj]⟩

/-- The index of the entry that takes the place `j` when entry `i` is removed. -/
def skip (i j : Nat) : Nat := if j < i then j else j + 1

theorem skip_lt {j : Nat} (hj : j + 1 < n) : skip i j < n := by unfold skip; split <;> omega

theorem skip_ne (i j : Nat) : skip i j ≠ i := by unfold skip; split <;> omega

theorem skip_inj {j k : Nat} (h : j ≠ k) : skip i j ≠ skip i k := by unfold skip; split <;> split <;> omega

/-- Every place but `i` is taken by somebody. -/
theorem exists_skip {j : Nat} (hi : i < n) (hj : j < n) (hne : j ≠ i) : ∃ k, k + 1 < n ∧ skip i k = j := by
  by_cases h : j < i
  · exact ⟨j, by omega, if_pos h⟩
  · exact ⟨j - 1, by omega, by unfold skip; rw [if_neg (by omega)]; omega⟩

/-- Removing file `i`, which has no blocks. -/
theorem Partition.remove (h : Partition m first n free file) (hi : i < n) (hnil : file i = [])
    (hfirst : ∀ j, j + 1 < n → first' j = first (skip i j)) :
    Partition m first' (n - 1) free (fun j => file (skip i j)) := by
  refine ⟨h.freeChain, ?_, h.free_data, ?_, ?_, ?_, ?_⟩
  · intro j hj
    rw [hfirst j (by omega)]
    exact h.fileChain _ (skip_lt (by omega))
  · intro j hj id hid
    exact h.file_data _ (skip_lt (by omega)) id hid
  · intro j hj id hid
    exact h.file_free _ (skip_lt (by omega)) id hid
  · intro j k hj hk hjk id hid
    exact h.file_file _ _ (skip_lt (by omega)) (skip_lt (by omega)) (skip_inj hjk) id hid
  · intro id hid
    rcases h.cover id hid with hm | ⟨j, hj, hm⟩
    · exact Or.inl hm
    · have hji : j ≠ i := by rintro rfl; simp [hnil] at hm
      obtain ⟨k, hk, rfl⟩ := exists_skip hi hj hji
      exact Or.inr ⟨k, by omega, hm⟩

end Partition

end Edaf35.Ssfs
