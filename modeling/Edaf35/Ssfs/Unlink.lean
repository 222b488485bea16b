import Edaf35.Ssfs.Rename

/-!
# What `do_unlink` removes and frees

The directory of a disk lists the entries before its first empty one.  `do_unlink` takes the entry of the given name
out of this list, puts the blocks of its chain on the free list, and writes the block map and the directory only.
That every data block is in some chain is not needed: blocks that no chain reaches stay lost.
-/

namespace Edaf35.Ssfs

variable {bs : Nat} {δ : Type} [RawDisk bs δ]

/-- The entries the directory lists. -/
def listed (d : δ) : List DirEntry := ((List.range (dirEntriesPerBlock bs)).map (diskDir d)).takeWhile (!·.isEmpty)

private theorem Slots.listed_eq {d : δ} {n : Nat} (h : Slots bs (diskDir d) n) :
    listed d = (List.range n).map (diskDir d) := by
  have hsplit : List.range (dirEntriesPerBlock bs) = List.range n ++ List.range' n (dirEntriesPerBlock bs - n) := by
    have happ : List.range' 0 n ++ List.range' (0 + n) (dirEntriesPerBlock bs - n) =
        List.range' 0 (n + (dirEntriesPerBlock bs - n)) := List.range'_append_1
    rw [Nat.zero_add, Nat.add_sub_cancel' h.count_le] at happ
    rw [List.range_eq_range', List.range_eq_range', happ]
  have hused : ∀ e ∈ (List.range n).map (diskDir d), (!e.isEmpty) = true := by
    intro e he
    obtain ⟨j, hj, rfl⟩ := List.mem_map.1 he
    rw [h.used j (List.mem_range.1 hj)]
    rfl
  have hrest : ((List.range' n (dirEntriesPerBlock bs - n)).map (diskDir d)).takeWhile (!·.isEmpty) = [] := by
    cases hk : dirEntriesPerBlock bs - n with
    | zero => rfl
    | succ k =>
      rw [List.range'_succ, List.map_cons, List.takeWhile_cons, h.unused n (Nat.le_refl _) (by omega)]
      rfl
  rw [listed, hsplit, List.map_append, List.takeWhile_append_of_pos hused, hrest, List.append_nil]

/-- The table without entry `i` is the list without it. -/
private theorem map_range_skip {f g : Nat → DirEntry} {n i : Nat} (hi : i < n)
    (h : ∀ j, j + 1 < n → g j = f (skip i j)) : (List.range (n - 1)).map g = ((List.range n).map f).eraseIdx i := by
  apply List.ext_getElem
  · rw [List.length_eraseIdx_of_lt (by simpa using hi)]
    simp
  · intro j hj _
    have hlt : j + 1 < n := by
      rw [List.length_map, List.length_range] at hj
      omega
    rw [List.getElem_eraseIdx]
    simp only [List.getElem_map, List.getElem_range, h j hlt, skip]
    split <;> rfl

/-- The free list and the files are chains without a common block; the blocks of the files are data blocks. -/
structure Chained (m first : Nat → Nat) (n : Nat) (free : List Nat) (file : Nat → List Nat) : Prop where
  freeChain : IsChain m 0 (m 0) free
  fileChain : ∀ i, i < n → IsChain m eofBlock (first i) (file i)
  file_data : ∀ i, i < n → ∀ id ∈ file i, DataBlock id
  file_free : ∀ i, i < n → ∀ id ∈ file i, id ∉ free
  file_file : ∀ i j, i < n → j < n → i ≠ j → ∀ id ∈ file i, id ∉ file j

private theorem Partition.chained {m first : Nat → Nat} {n : Nat} {free : List Nat} {file : Nat → List Nat}
    (h : Partition m first n free file) : Chained m first n free file :=
  ⟨h.freeChain, h.fileChain, h.file_data, h.file_free, h.file_file⟩

/-- The disk `d'` is `d` without the file of entry `i`: the directory lists the others in their old order, the blocks
of the file are free and all other links stay; the block map was written once and the directory twice. -/
structure Unlinked (d : δ) (n : Nat) (free : List Nat) (file : Nat → List Nat) (i : Nat) (d' : δ) : Prop where
  listed : listed d' = (listed d).eraseIdx i
  free : ∃ free', IsChain (diskMap d') 0 (diskMap d' 0) free' ∧ ∀ id, id ∈ free' ↔ id ∈ free ∨ id ∈ file i
  links : ∀ id, id ≠ 0 → id ∉ file i → diskMap d' id = diskMap d id
  chains : ∀ j, j < n → j ≠ i → IsChain (diskMap d') eofBlock (diskDir d j).firstBlock (file j)
  writes : ∃ map dir dir', d' = writeBlock (writeBlock (writeBlock d blkmapBid map) rootdirBid dir) rootdirBid dir'
  data : ∀ id, DataBlock id → diskBlock d' id = diskBlock d id

variable [LawfulRawDisk bs δ] {s : Fs bs δ} {n : Nat} {free : List Nat} {file : Nat → List Nat}

/-- Without a file of the name `do_unlink` changes nothing on the disk.  Otherwise its loop ends after as many
iterations as the file has blocks, the condition being evaluated once more, and it removes this file. -/
theorem doUnlink_removes (path : List UInt8) (now : UInt64) (hmap : fsNblocks ≤ blockidsPerBlock bs)
    (ht : Table bs (diskDir s.disk) n)
    (hc : Chained (diskMap s.disk) (fun i => (diskDir s.disk i).firstBlock) n free file) :
    ((∀ i, i < n → ¬HasName (diskDir s.disk i) path.tail) →
      ∀ fuel, ∃ s', doUnlink fuel s path now = some (-enoent, s') ∧ s'.disk = s.disk) ∧
      ∀ i, i < n → HasName (diskDir s.disk i) path.tail →
        ∃ s', (∀ fuel, doUnlink fuel s path now = if (file i).length < fuel then some (0, s') else none) ∧
          Unlinked s.disk n free file i s'.disk := by
  constructor
  · intro habs fuel
    exact ⟨_, doUnlink_none fuel ((findDirEntry_eq_none ht).2 habs), rfl⟩
  · intro i hi hname
    obtain ⟨s', hs', ⟨map, dir, dir', hwrite⟩, hdir, -, hfree, hlinks⟩ := doUnlink_writes now hmap ht.slots
      ((findDirEntry_eq_some ht).2 ⟨hi, hname⟩) (hc.fileChain i hi) hc.freeChain (hc.file_data i hi) (hc.file_free i hi)
    have hslots : Slots bs (Function.update (diskDir s.disk) i ((diskDir s.disk i).truncated now)) n :=
      ht.slots.setEntry rfl
    have hslots' : Slots bs (diskDir s'.disk) (n - 1) := by rw [hdir]; exact hslots.remove hi
    have hfirst : ∀ j, j + 1 < n → diskDir s'.disk j = diskDir s.disk (skip i j) := by
      intro j hj
      rw [hdir, removed_of_lt _ hj, Function.update_of_ne (skip_ne i j)]
    refine ⟨s', hs', ?_, ⟨_, hfree, ?_⟩, hlinks, ?_, ⟨map, dir, dir', hwrite⟩, ?_⟩
    · rw [hslots'.listed_eq, ht.slots.listed_eq]
      exact map_range_skip hi hfirst
    · intro id
      rw [List.mem_append, List.mem_reverse]
      exact or_comm
    · intro j hj hji
      refine (hc.fileChain j hj).congr fun id hid => hlinks id ?_ (hc.file_file j i hj hi hji id hid)
      have := (hc.file_data j hj id hid).1
      omega
    · intro id hid
      rw [hwrite, diskBlock_write_other _ hid.2 hid.ne_rootdir]
      exact diskBlock_of_writes rfl hid

/-- The file `a` has the block 2 and comes after the file `b`; there is no file `c`. -/
theorem doUnlink_removes_wrote :
    (∃ s', doUnlink 1 (wrote twoFiles pathA) [47, 99] 0 = some (-enoent, s') ∧ s'.disk = (wrote twoFiles pathA).disk) ∧
      ∃ s', (∀ fuel, doUnlink fuel (wrote twoFiles pathA) pathA 0 = if 1 < fuel then some (0, s') else none) ∧
        Unlinked (wrote twoFiles pathA).disk 2 (List.range' 3 7) (Function.update (fun _ => []) 1 [2]) 1 s'.disk := by
  have hlookup : lookup twoFiles.disk pathA.tail = some 1 := by decide
  have h := wrote_wellFormedAt wellFormedAt_twoFiles hlookup rfl
  have habs := h.lookup_eq_none.1 (show lookup (wrote twoFiles pathA).disk [99] = none by decide)
  obtain ⟨hi, hname⟩ := h.lookup_eq_some.1 (show lookup (wrote twoFiles pathA).disk [97] = some 1 by decide)
  exact ⟨(doUnlink_removes [47, 99] 0 h.mapHolds h.table h.partition.chained).1 habs 1,
    (doUnlink_removes pathA 0 h.mapHolds h.table h.partition.chained).2 1 hi hname⟩

end Edaf35.Ssfs
