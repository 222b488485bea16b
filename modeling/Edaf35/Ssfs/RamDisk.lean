import Edaf35.Ssfs.Shrink

/-!
# A disk in memory

`RamDisk` is a disk of `FS_NBLOCKS` blocks; a transfer of a block past the end of it has no effect.  It is the disk on
which the operations run when they are evaluated; the disk image of the repository has the block size 512.
-/

namespace Edaf35.Ssfs

structure RamDisk (bs : Nat) where
  block : Nat → Block bs

namespace RamDisk

variable {bs : Nat}

instance : RawDisk bs (RamDisk bs) where
  readBlock d id buf := if id < fsNblocks then d.block id else buf
  writeBlock d id b := if id < fsNblocks then ⟨Function.update d.block id b⟩ else d

private theorem readBlock_of_lt (d : RamDisk bs) {id : Nat} (h : id < fsNblocks) (buf : Block bs) :
    readBlock d id buf = d.block id := if_pos h

theorem lawful (hpos : 0 < bs) (hlt : bs < 65536) : LawfulRawDisk bs (RamDisk bs) where
  blockSize_pos := hpos
  blockSize_lt := hlt
  read_whole d id buf buf' h := by rw [readBlock_of_lt d h, readBlock_of_lt d h]
  read_write_same d id b buf h := by
    rw [readBlock_of_lt _ h]
    simp only [writeBlock, if_pos h, Function.update_self]
  read_write_other d id id' b buf h hne := by
    rw [readBlock_of_lt _ h, readBlock_of_lt _ h]
    simp only [writeBlock]
    split
    · simp only [Function.update_of_ne hne]
    · rfl

instance : LawfulRawDisk 512 (RamDisk 512) := lawful (by decide) (by decide)

/-! ### The disk without files -/

/-- The map of a disk without files: the free list is 2, 3, ..., 9. -/
def freeMap (id : Nat) : Nat := if id = 0 then 2 else if 2 ≤ id ∧ id + 1 < fsNblocks then id + 1 else 0

/-- The block whose first ids are those of `freeMap`. -/
def freeBlocksMap (bs : Nat) : Block bs := .ofBytes fun k => if k % 2 = 0 then (freeMap (k / 2)).toUInt8 else 0

/-- A disk without files. -/
def formatted (bs : Nat) : RamDisk bs where
  block id := if id = blkmapBid then freeBlocksMap bs else fun _ => 0

private theorem formatted_map {id : Nat} (hid : id < blockidsPerBlock bs) : diskMap (formatted bs) id = freeMap id := by
  unfold blockidsPerBlock at hid
  have hsmall : freeMap id < 256 := by
    unfold freeMap fsNblocks
    split <;> [omega; split <;> omega]
  have h₀ : (freeBlocksMap bs).byte (2 * id) = (freeMap id).toUInt8 := by
    rw [freeBlocksMap, Block.byte_ofBytes _ (by omega), if_pos (by omega), Nat.mul_div_cancel_left _ (by decide)]
  have h₁ : (freeBlocksMap bs).byte (2 * id + 1) = 0 := by
    rw [freeBlocksMap, Block.byte_ofBytes _ (by omega), if_neg (by omega)]
  show Edaf35.load (freeBlocksMap bs).byte (2 * id) 2 = _
  simp only [Edaf35.load, h₀, h₁]
  simp [Nat.mod_eq_of_lt hsmall]

theorem wellFormedAt_formatted (hbs : 2 * fsNblocks ≤ bs) :
    WellFormedAt bs (diskMap (formatted bs)) (diskDir (formatted bs)) 0 (List.range' 2 8) fun _ => [] := by
  have hmap : fsNblocks ≤ blockidsPerBlock bs := by unfold blockidsPerBlock; omega
  have hids : ∀ id, id < fsNblocks → diskMap (formatted bs) id = freeMap id :=
    fun id hid => formatted_map (Nat.lt_of_lt_of_le hid hmap)
  have hchain : IsChain freeMap 0 (freeMap 0) (List.range' 2 8) := by
    simp [List.range', IsChain, freeMap, fsNblocks]
  have hmem : ∀ id, id ∈ List.range' 2 8 ↔ DataBlock id := by
    intro id
    rw [List.mem_range', DataBlock, fsNblocks]
    constructor
    · rintro ⟨k, hk, rfl⟩; omega
    · rintro ⟨h₂, h₁₀⟩; exact ⟨id - 2, by omega, by omega⟩
  have hempty : ∀ i, (diskDir (formatted bs) i).isEmpty = true := fun _ => by
    simp [diskDir, diskBlock, readBlock, formatted, rootdirBid, blkmapBid, fsNblocks, DirEntry.isEmpty, Block.entry,
      Block.byte, fsNameLen, List.range_succ_eq_map]
  refine ⟨hmap, ⟨Nat.zero_le _, ?_, fun i _ _ => hempty i, ?_⟩, ?_, ?_⟩
  · intro i hi; omega
  · intro i j hi; omega
  · refine ⟨?_, ?_, fun id hid => (hmem id).1 hid, ?_, ?_, ?_, fun id hid => Or.inl ((hmem id).2 hid)⟩
    · rw [hids 0 (by decide)]
      exact hchain.congr fun id hid => hids id ((hmem id).1 hid).2
    all_goals intro i hi; omega
  · intro i hi; omega

end RamDisk

end Edaf35.Ssfs
