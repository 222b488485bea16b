import Mathlib.Logic.Function.Basic
import Mathlib.Data.List.Basic
import Edaf35.Lib.Bytes

/-!
# Blocks, directory entries and the block map of `fs_support.h`

A block is `BLOCK_SIZE` bytes; `union fs_block_t` reads the same bytes as characters, as a table of block ids (two
bytes each) or as a table of directory entries.  A `dir_entry` takes 48 bytes in the LP64 layout: the name in bytes
0 to 11, `last_mod` at 16, `mode` at 24, `size_bytes` at 32 and `first_block` at 40.  `rawdisk.h` is not in the
repository: `BLOCK_SIZE` is the parameter `bs`, and `readBlock` and `writeBlock` are the class `RawDisk`.
-/

namespace Edaf35.Ssfs

def fsNblocks : Nat := 10
def blkmapBid : Nat := 0
def rootdirBid : Nat := 1
def fsNameLen : Nat := 12
def eofBlock : Nat := 0xFFFF

/-- `sizeof(dir_entry)`. -/
def dirEntrySize : Nat := 48

/-! ### Blocks -/

/-- `char bytes[BLOCK_SIZE]`. -/
abbrev Block (bs : Nat) := Fin bs → UInt8

/-- The `readBlock` and `writeBlock` of `rawdisk.c`, which is missing: `readBlock d id buf` is what the buffer `buf`
holds after block `id` was read into it, `writeBlock d id b` the disk after `b` was written to block `id`. -/
class RawDisk (bs : outParam Nat) (δ : Type) where
  readBlock : δ → Nat → Block bs → Block bs
  writeBlock : δ → Nat → Block bs → δ

export RawDisk (readBlock writeBlock)

/-- What the file system relies on: the blocks of the disk are read and written as a whole, and writing one block
leaves the others alone.  `BLOCK_SIZE` is positive and fits an `unsigned short`. -/
class LawfulRawDisk (bs : outParam Nat) (δ : Type) [RawDisk bs δ] : Prop where
  blockSize_pos : 0 < bs
  blockSize_lt : bs < 65536
  read_whole : ∀ (d : δ) id buf buf', id < fsNblocks → readBlock d id buf = readBlock d id buf'
  read_write_same : ∀ (d : δ) id b buf, id < fsNblocks → readBlock (writeBlock d id b) id buf = b
  read_write_other : ∀ (d : δ) id id' b buf, id' < fsNblocks → id' ≠ id →
    readBlock (writeBlock d id b) id' buf = readBlock d id' buf

variable {bs : Nat}

namespace Block

/-- The byte at index `k`. -/
def byte (b : Block bs) (k : Nat) : UInt8 := if h : k < bs then b ⟨k, h⟩ else 0

def ofBytes (m : Nat → UInt8) : Block bs := fun k => m k

@[simp] theorem byte_ofBytes (m : Nat → UInt8) {k : Nat} (h : k < bs) : (ofBytes m : Block bs).byte k = m k := by
  simp [byte, ofBytes, h]

@[simp] theorem ofBytes_byte (b : Block bs) : ofBytes b.byte = b := by
  funext k
  simp [byte, ofBytes]

theorem byte_injective {b b' : Block bs} (h : b.byte = b'.byte) : b = b' := by
  rw [← ofBytes_byte b, h, ofBytes_byte]

/-- A number read from a block. -/
def load (b : Block bs) (a n : Nat) : Nat := Edaf35.load b.byte a n

/-- A number stored into a block. -/
def store (b : Block bs) (a n v : Nat) : Block bs := ofBytes (Edaf35.store b.byte a n v)

private theorem byte_store (b : Block bs) (a n v : Nat) {k : Nat} (h : k < bs) :
    (b.store a n v).byte k = Edaf35.store b.byte a n v k := byte_ofBytes _ h

private theorem byte_of_le (b : Block bs) {k : Nat} (h : bs ≤ k) : b.byte k = 0 := dif_neg (by omega)

private theorem byte_store_of_notMem (b : Block bs) {a n v k : Nat} (h : k < a ∨ a + n ≤ k) :
    (b.store a n v).byte k = b.byte k := by
  by_cases hk : k < bs
  · rw [byte_store b a n v hk, store_of_notMem h]
  · rw [byte_of_le _ (by omega), byte_of_le _ (by omega)]

theorem byte_store_eq (b : Block bs) {a n : Nat} (v : Nat) (h : a + n ≤ bs) :
    (b.store a n v).byte = Edaf35.store b.byte a n v := by
  funext k
  by_cases hk : k < bs
  · exact byte_store b a n v hk
  · rw [store_of_notMem (by omega), byte_of_le _ (by omega), byte_of_le _ (by omega)]

private theorem load_lt (b : Block bs) (a n : Nat) : b.load a n < 256 ^ n := Edaf35.load_lt _ _ _

private theorem load_store_same (b : Block bs) {a n v : Nat} (h : a + n ≤ bs) :
    (b.store a n v).load a n = v % 256 ^ n := by
  rw [load, load_congr (fun k _ h₂ => b.byte_store a n v (k := k) (by omega)), Edaf35.load_store_same]

private theorem load_store_disjoint (b : Block bs) {a n v c k : Nat} (h : a + n ≤ c ∨ c + k ≤ a) :
    (b.store a n v).load c k = b.load c k :=
  load_congr fun i h₁ h₂ => b.byte_store_of_notMem (by omega)

end Block

/-! ### The block map -/

/-- `BLOCKIDS_PER_BLOCK`. -/
def blockidsPerBlock (bs : Nat) : Nat := bs / 2

/-- `blockmap[id]`, as the number it holds. -/
def Block.ids (b : Block bs) (id : Nat) : Nat := b.load (2 * id) 2

/-- Reading `blockmap[id]`; `none` past the end of the array. -/
def getId (b : Block bs) (id : Nat) : Option Nat := if id < blockidsPerBlock bs then some (b.ids id) else none

/-- The assignment `blockmap[id] = v`; `none` past the end of the array. -/
def setId (b : Block bs) (id v : Nat) : Option (Block bs) :=
  if id < blockidsPerBlock bs then some (b.store (2 * id) 2 v) else none

theorem ids_lt (b : Block bs) (id : Nat) : b.ids id < 65536 := b.load_lt _ 2

theorem getId_of_lt (b : Block bs) {id : Nat} (h : id < blockidsPerBlock bs) : getId b id = some (b.ids id) :=
  if_pos h

theorem ids_store (b : Block bs) {id v : Nat} (h : id < blockidsPerBlock bs) (hv : v < 65536) :
    (b.store (2 * id) 2 v).ids = Function.update b.ids id v := by
  unfold blockidsPerBlock at h
  funext j
  by_cases hj : j = id
  · subst hj
    rw [Function.update_self, Block.ids, b.load_store_same (by omega)]
    exact Nat.mod_eq_of_lt hv
  · rw [Function.update_of_ne hj, Block.ids, Block.ids, b.load_store_disjoint (by omega)]

theorem setId_of_lt (b : Block bs) (id v : Nat) (h : id < blockidsPerBlock bs) (hv : v < 65536) :
    ∃ b', setId b id v = some b' ∧ b'.ids = Function.update b.ids id v := ⟨_, if_pos h, ids_store b h hv⟩

/-! ### Directory entries -/

/-- `DIR_ENTRIES_PER_BLOCK`. -/
def dirEntriesPerBlock (bs : Nat) : Nat := bs / dirEntrySize

/-- `dir_entry`; the name is the list of its `FS_NAME_LEN` characters. -/
@[ext] structure DirEntry where
  name : List UInt8
  lastMod : Nat
  mode : Nat
  sizeBytes : Nat
  firstBlock : Nat
  deriving DecidableEq

/-- `directory[i]`. -/
def Block.entry (b : Block bs) (i : Nat) : DirEntry where
  name := (List.range fsNameLen).map fun k => b.byte (dirEntrySize * i + k)
  lastMod := b.load (dirEntrySize * i + 16) 8
  mode := b.load (dirEntrySize * i + 24) 4
  sizeBytes := b.load (dirEntrySize * i + 32) 8
  firstBlock := b.load (dirEntrySize * i + 40) 2

/-- The macro `dir_entry_is_empty`. -/
def DirEntry.isEmpty (e : DirEntry) : Bool := e.name.headD 0 = 0

def setLastMod (b : Block bs) (i v : Nat) : Block bs := b.store (dirEntrySize * i + 16) 8 v
def setMode (b : Block bs) (i v : Nat) : Block bs := b.store (dirEntrySize * i + 24) 4 v
def setSizeBytes (b : Block bs) (i v : Nat) : Block bs := b.store (dirEntrySize * i + 32) 8 v
def setFirstBlock (b : Block bs) (i v : Nat) : Block bs := b.store (dirEntrySize * i + 40) 2 v

/-- The characters `l`, padded with zeros to `FS_NAME_LEN`, written to the name of entry `i`. -/
def setName (b : Block bs) (i : Nat) (l : List UInt8) : Block bs :=
  .ofBytes fun k => if dirEntrySize * i ≤ k ∧ k < dirEntrySize * i + fsNameLen
    then l.getD (k - dirEntrySize * i) 0 else b.byte k

/-- `directory[i].name[0] = 0`. -/
def clearName (b : Block bs) (i : Nat) : Block bs := b.store (dirEntrySize * i) 1 0

/-- `directory[i] = directory[j]`. -/
def copyEntry (b : Block bs) (i j : Nat) : Block bs :=
  .ofBytes fun k => if dirEntrySize * i ≤ k ∧ k < dirEntrySize * i + dirEntrySize
    then b.byte (dirEntrySize * j + (k - dirEntrySize * i)) else b.byte k

private theorem entry_congr {b b' : Block bs} {i j : Nat}
    (h : ∀ k, k < dirEntrySize → b.byte (dirEntrySize * i + k) = b'.byte (dirEntrySize * j + k)) :
    b.entry i = b'.entry j := by
  have hload : ∀ o n, o + n ≤ dirEntrySize →
      b.load (dirEntrySize * i + o) n = b'.load (dirEntrySize * j + o) n := by
    intro o n ho
    induction n generalizing o with
    | zero => rfl
    | succ n ih =>
      have := ih (o + 1) (by omega)
      simp only [Block.load, Edaf35.load, Nat.add_assoc] at this ⊢
      rw [h o (by omega), this]
  ext1
  · exact List.map_congr_left fun k hk => h k (by simp [fsNameLen] at hk; simp [dirEntrySize]; omega)
  all_goals exact hload _ _ (by decide)

/-- A store inside entry `i` does not touch the other entries. -/
private theorem entry_store_other (b : Block bs) {i j o n v : Nat} (ho : o + n ≤ dirEntrySize) (hj : j ≠ i) :
    (b.store (dirEntrySize * i + o) n v).entry j = b.entry j := by
  refine entry_congr fun k hk => b.byte_store_of_notMem ?_
  simp only [dirEntrySize] at *
  omega

/-- A store to the fields after the name keeps the name. -/
private theorem name_store (b : Block bs) {i o n v : Nat} (ho : fsNameLen ≤ o) :
    ((b.store (dirEntrySize * i + o) n v).entry i).name = (b.entry i).name := by
  refine List.map_congr_left fun k hk => b.byte_store_of_notMem ?_
  simp [fsNameLen] at hk ho
  omega

/-- An update of entry `i` is a new table of entries if the other entries stay. -/
private theorem entry_eq_update {b b' : Block bs} {i : Nat} {e : DirEntry}
    (hother : ∀ j, j ≠ i → b'.entry j = b.entry j) (he : b'.entry i = e) :
    b'.entry = Function.update b.entry i e := by
  funext j
  by_cases hj : j = i
  · rw [hj, Function.update_self, he]
  · rw [Function.update_of_ne hj, hother j hj]

section SetField

variable (b : Block bs) {i : Nat} (hi : i < dirEntriesPerBlock bs) (v : Nat)

include hi in
private theorem entry_end_le : dirEntrySize * i + dirEntrySize ≤ bs := by
  simp only [dirEntriesPerBlock, dirEntrySize] at *
  omega

include hi in
theorem entry_setLastMod : (setLastMod b i v).entry =
    Function.update b.entry i { b.entry i with lastMod := v % 2 ^ 64 } := by
  have hend := entry_end_le hi
  apply entry_eq_update (fun j hj => entry_store_other b (by decide) hj)
  ext1
  · exact name_store b (by decide)
  · exact b.load_store_same (by simp only [dirEntrySize] at *; omega)
  all_goals exact b.load_store_disjoint (by omega)

include hi in
theorem entry_setMode : (setMode b i v).entry =
    Function.update b.entry i { b.entry i with mode := v % 2 ^ 32 } := by
  have hend := entry_end_le hi
  apply entry_eq_update (fun j hj => entry_store_other b (by decide) hj)
  ext1
  · exact name_store b (by decide)
  rotate_left
  · exact b.load_store_same (by simp only [dirEntrySize] at *; omega)
  all_goals exact b.load_store_disjoint (by omega)

include hi in
theorem entry_setSizeBytes : (setSizeBytes b i v).entry =
    Function.update b.entry i { b.entry i with sizeBytes := v % 2 ^ 64 } := by
  have hend := entry_end_le hi
  apply entry_eq_update (fun j hj => entry_store_other b (by decide) hj)
  ext1
  · exact name_store b (by decide)
  rotate_left 2
  · exact b.load_store_same (by simp only [dirEntrySize] at *; omega)
  all_goals exact b.load_store_disjoint (by omega)

include hi in
theorem entry_setFirstBlock (hv : v < 65536) : (setFirstBlock b i v).entry =
    Function.update b.entry i { b.entry i with firstBlock := v } := by
  have hend := entry_end_le hi
  apply entry_eq_update (fun j hj => entry_store_other b (by decide) hj)
  ext1
  · exact name_store b (by decide)
  rotate_left 3
  · apply (b.load_store_same (by simp only [dirEntrySize] at *; omega)).trans
    exact Nat.mod_eq_of_lt hv
  all_goals exact b.load_store_disjoint (by omega)

/-- What the name of an entry holds after the characters `l` were written to it. -/
def padName (l : List UInt8) : List UInt8 := (List.range fsNameLen).map fun k => l.getD k 0

/-- Bytes of a block that a function on indices writes inside entry `i` only. -/
private theorem byte_ofBytes_outside {m : Nat → UInt8} {k : Nat} (h : m k = b.byte k) :
    (Block.ofBytes m : Block bs).byte k = b.byte k := by
  by_cases hk : k < bs
  · rw [Block.byte_ofBytes _ hk, h]
  · rw [Block.byte_of_le _ (by omega), Block.byte_of_le _ (by omega)]

include hi in
theorem entry_setName (l : List UInt8) : (setName b i l).entry =
    Function.update b.entry i { b.entry i with name := padName l } := by
  have hend := entry_end_le hi
  simp only [dirEntrySize] at hend
  have hout : ∀ k, ¬(dirEntrySize * i ≤ k ∧ k < dirEntrySize * i + fsNameLen) →
      (setName b i l).byte k = b.byte k := fun k hk => byte_ofBytes_outside b (if_neg hk)
  refine entry_eq_update (fun j hj => entry_congr fun k hk => hout _ ?_) ?_
  · simp only [dirEntrySize, fsNameLen] at *
    omega
  · ext1
    · show (List.range fsNameLen).map (fun k => (setName b i l).byte (dirEntrySize * i + k)) = padName l
      apply List.map_congr_left
      intro k hk
      simp only [List.mem_range, fsNameLen] at hk
      rw [setName, Block.byte_ofBytes _ (by simp only [dirEntrySize]; omega),
        if_pos (by simp only [fsNameLen]; omega), Nat.add_sub_cancel_left]
    all_goals
      refine load_congr fun k h₁ h₂ => hout k ?_
      simp only [dirEntrySize, fsNameLen] at *
      omega

include hi in
theorem entry_clearName : (clearName b i).entry =
    Function.update b.entry i { b.entry i with name := 0 :: (b.entry i).name.tail } := by
  have hend := entry_end_le hi
  simp only [dirEntrySize] at hend
  refine entry_eq_update (fun j hj => entry_store_other (o := 0) b (by decide) hj) ?_
  ext1
  · have hrange : List.range fsNameLen = 0 :: (List.range (fsNameLen - 1)).map (· + 1) := by decide
    simp only [Block.entry, hrange, List.map_cons, List.tail_cons, List.map_map]
    congr 1
    · rw [clearName, b.byte_store _ _ _ (by simp only [dirEntrySize]; omega), store_of_mem (by omega) (by omega)]
      simp
    · refine List.map_congr_left fun k _ => b.byte_store_of_notMem (Or.inr ?_)
      show dirEntrySize * i + 1 ≤ dirEntrySize * i + (k + 1)
      omega
  all_goals exact b.load_store_disjoint (by omega)

include hi in
theorem entry_copyEntry (j : Nat) : (copyEntry b i j).entry = Function.update b.entry i (b.entry j) := by
  have hend := entry_end_le hi
  refine entry_eq_update (fun j hj => entry_congr fun k hk => byte_ofBytes_outside b (if_neg ?_)) ?_
  · simp only [dirEntrySize] at *
    omega
  · apply entry_congr
    intro k hk
    rw [copyEntry, Block.byte_ofBytes _ (by omega), if_pos (by omega), Nat.add_sub_cancel_left]

end SetField

end Edaf35.Ssfs
