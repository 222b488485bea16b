import Mathlib.Data.List.Perm.Subperm
import Edaf35.Ssfs.Directory

/-!
# Truncating, unlinking and creating on a well-formed disk

`do_truncate` frees the blocks of a file while walking its chain; each iteration moves the first block of what is
left of the chain to the front of the free list.  On a well-formed disk it ends after as many iterations as the file
has blocks, and `do_truncate`, `do_unlink` and `do_create` lead to well-formed disks again.
-/

namespace Edaf35.Ssfs

variable {bs : Nat} {δ : Type}

/-- An operation has one result. -/
theorem result_eq {x : Option (Int × Fs bs δ)} {r₁ r₂ : Int} {s₁ s₂ : Fs bs δ} (h₁ : x = some (r₁, s₁))
    (h₂ : x = some (r₂, s₂)) : r₁ = r₂ ∧ s₁ = s₂ := Prod.mk.inj (Option.some.inj (h₁.symm.trans h₂))

/-! ### The block map functions -/

theorem freeBlock_spec (b : Block bs) {id : Nat} (hmap : fsNblocks ≤ blockidsPerBlock bs) (hid : DataBlock id) :
    ∃ b', freeBlock b id = some (b.ids id, b') ∧
      b'.ids = Function.update (Function.update b.ids id (b.ids 0)) 0 id := by
  obtain ⟨h₂, h₁₀⟩ := hid
  simp only [fsNblocks] at hmap h₁₀
  refine ⟨_, freeBlock_of_lt b (by omega), ?_⟩
  rw [ids_store _ (by omega) (by omega), ids_store b (by omega) (ids_lt b 0)]

theorem allocateBlock_none (b : Block bs) (hmap : fsNblocks ≤ blockidsPerBlock bs) (h : b.ids 0 = 0) :
    allocateBlock b = some (eofBlock, b) := by
  simp only [fsNblocks] at hmap
  exact allocateBlock_zero b (by omega) h

theorem allocateBlock_some (b : Block bs) (hmap : fsNblocks ≤ blockidsPerBlock bs) {a : Nat} (h : b.ids 0 = a)
    (ha : DataBlock a) :
    ∃ b', allocateBlock b = some (a, b') ∧
      b'.ids = Function.update (Function.update b.ids 0 (b.ids a)) a eofBlock := by
  obtain ⟨h₂, h₁₀⟩ := ha
  simp only [fsNblocks] at hmap h₁₀
  refine ⟨_, allocateBlock_of_lt b h (by omega) (by omega), ?_⟩
  rw [ids_store _ (by omega) (by decide), ids_store b (by omega) (ids_lt b a)]

/-! ### Freeing a chain -/

/-- The loop ends after as many iterations as the chain has blocks; the condition is evaluated once more. -/
theorem freeBlocks_spec (hmap : fsNblocks ≤ blockidsPerBlock bs) {di : Nat} (hdi : di < dirEntriesPerBlock bs)
    {c free : List Nat} {s : Fs bs δ} (hc : IsChain s.bmap.ids eofBlock (s.bdir.entry di).firstBlock c)
    (hf : IsChain s.bmap.ids 0 (s.bmap.ids 0) free) (hdata : ∀ id ∈ c, DataBlock id) (hcf : ∀ id ∈ c, id ∉ free) :
    ∃ s', (∀ fuel, freeBlocks di fuel s = if c.length < fuel then some s' else none) ∧ s'.disk = s.disk ∧
      s'.bdir.entry = Function.update s.bdir.entry di { s.bdir.entry di with firstBlock := eofBlock } ∧
      IsChain s'.bmap.ids 0 (s'.bmap.ids 0) (c.reverse ++ free) ∧
      ∀ id, id ≠ 0 → id ∉ c → s'.bmap.ids id = s.bmap.ids id := by
  -- induction on the chain that is left; each iteration pushes its first block on the free list
  induction c generalizing s free with
  | nil =>
    have hfirst : (s.bdir.entry di).firstBlock = eofBlock := hc
    refine ⟨s, ?_, rfl, ?_, by simpa using hf, fun _ _ _ => rfl⟩
    · intro fuel
      cases fuel with
      | zero => rfl
      | succ fuel => simp [freeBlocks, hfirst]
    · rw [← hfirst, Function.update_eq_self]
  | cons fb c ih =>
    have hfb := hdata fb (by simp)
    have hnd := hc.nodup
    rw [List.nodup_cons] at hnd
    obtain ⟨hfirst, hne, htail⟩ := hc
    have h0c : 0 ∉ c := fun hm => by have := (hdata 0 (by simp [hm])).1; omega
    have h0f : 0 ∉ fb :: free := by
      rw [List.mem_cons, not_or]
      exact ⟨fun h => by have := hfb.1; omega, hf.stop_notMem⟩
    obtain ⟨bmap, hfree, hids⟩ := freeBlock_spec s.bmap hmap hfb
    have hlt : fb < blockidsPerBlock bs := by have := hfb.2; omega
    have hdir := entry_setFirstBlock s.bdir hdi (s.bmap.ids fb) (ids_lt _ _)
    have htail' : IsChain (Function.update (Function.update s.bmap.ids fb (s.bmap.ids 0)) 0 fb) eofBlock
        (s.bmap.ids fb) c := (htail.update hnd.1).update h0c
    have hpush : IsChain (Function.update (Function.update s.bmap.ids fb (s.bmap.ids 0)) 0 fb) 0 fb (fb :: free) :=
      (hf.push (hcf fb (by simp)) (by have := hfb.1; omega)).update h0f
    have hcf' : ∀ id ∈ c, id ∉ fb :: free := fun id hid => by
      rw [List.mem_cons, not_or]
      exact ⟨by rintro rfl; exact hnd.1 hid, hcf id (by simp [hid])⟩
    obtain ⟨s', hs', hdisk, hent, hchain, hother⟩ := ih
      (s := { s with bmap := bmap, bdir := setFirstBlock s.bdir di (s.bmap.ids fb) })
      (by simpa only [hdir, Function.update_self, hids] using htail')
      (by simpa only [hids, Function.update_self] using hpush) (fun id hid => hdata id (by simp [hid])) hcf'
    refine ⟨s', ?_, hdisk, ?_, by simpa using hchain, ?_⟩
    · intro fuel
      cases fuel with
      | zero => rfl
      | succ fuel => simp [freeBlocks, hfirst, hne, getId_of_lt s.bmap hlt, hfree, hs']
    · simp only [hent, hdir, Function.update_self, Function.update_idem]
    · intro id h0 hid
      rw [List.mem_cons, not_or] at hid
      rw [hother id h0 hid.2]
      simp only [hids]
      rw [Function.update_of_ne h0, Function.update_of_ne hid.1]

/-! ### `do_truncate` -/

section Disk

variable [RawDisk bs δ] [LawfulRawDisk bs δ]

theorem WellFormedAt.findDirEntry_iff {d : δ} {n : Nat} {free : List Nat} {file : Nat → List Nat}
    (h : WellFormedAt bs (diskMap d) (diskDir d) n free file) (s : Fs bs δ) (hs : s.disk = d) {path : List UInt8}
    {i : Nat} :
    findDirEntry (loadDirectory s).bdir path = some i ↔ i < n ∧ HasName (diskDir d i) path := by
  rw [findDirEntry_eq_some (n := n) (by rw [loadDirectory_entry, hs]; exact h.table), loadDirectory_entry, hs]

theorem WellFormedAt.findDirEntry_none {d : δ} {n : Nat} {free : List Nat} {file : Nat → List Nat}
    (h : WellFormedAt bs (diskMap d) (diskDir d) n free file) (s : Fs bs δ) (hs : s.disk = d) {path : List UInt8} :
    findDirEntry (loadDirectory s).bdir path = none ↔ ∀ i, i < n → ¬HasName (diskDir d i) path := by
  rw [findDirEntry_eq_none (n := n) (by rw [loadDirectory_entry, hs]; exact h.table), loadDirectory_entry, hs]

omit [LawfulRawDisk bs δ] in
/-- The file found under a name, when entries may share names. -/
theorem SoundAt.of_findDirEntry {d : δ} {n : Nat} {free : List Nat} {file : Nat → List Nat}
    (h : SoundAt bs (diskMap d) (diskDir d) n free file) {path : List UInt8} {i : Nat}
    (hf : findDirEntry (diskBlock d rootdirBid) path = some i) : i < n ∧ HasName (diskDir d i) path :=
  Slots.of_findDirEntry (b := diskBlock d rootdirBid) h.slots hf

theorem loadDirectory_bdir (s : Fs bs δ) : (loadDirectory s).bdir = diskBlock s.disk rootdirBid :=
  readBlock_eq s.disk (by decide) _

/-- The entry of a truncated file. -/
def DirEntry.truncated (e : DirEntry) (now : UInt64) : DirEntry :=
  { e with sizeBytes := 0, firstBlock := eofBlock, lastMod := now.toNat }

variable {s : Fs bs δ} {n : Nat} {free : List Nat} {file : Nat → List Nat}

/-- A chain has at most as many blocks as the disk. -/
theorem Partition.length_lt {m first : Nat → Nat} {i : Nat} (h : Partition m first n free file) (hi : i < n) :
    (file i).length < fsNblocks := by
  have hnd := (h.fileChain i hi).nodup
  have hsub : file i ⊆ (List.range fsNblocks).erase 0 := by
    intro id hid
    have := h.file_data i hi id hid
    rw [List.mem_erase_of_ne (by have := this.1; omega)]
    exact List.mem_range.2 this.2
  exact Nat.lt_of_le_of_lt (List.subperm_of_subset hnd hsub).length_le (by decide)

/-- What `do_truncate` leaves of a disk: entry `i` is truncated, its blocks are free, the links of all other blocks
stay and no data block is written. -/
structure TruncatedAt (s : Fs bs δ) (n : Nat) (free : List Nat) (file : Nat → List Nat) (i : Nat) (now : UInt64)
    (s' : Fs bs δ) : Prop where
  dir : diskDir s'.disk = Function.update (diskDir s.disk) i ((diskDir s.disk i).truncated now)
  cached : s'.bdir.entry = diskDir s'.disk
  sound : SoundAt bs (diskMap s'.disk) (diskDir s'.disk) n ((file i).reverse ++ free) (Function.update file i [])
  links : ∀ id, id ≠ 0 → id ∉ file i → diskMap s'.disk id = diskMap s.disk id
  data : ∀ id, DataBlock id → diskBlock s'.disk id = diskBlock s.disk id

/-- A save of the block map and the directory leaves the data blocks alone. -/
theorem diskBlock_of_writes {d d' : δ} {map dir : Block bs}
    (h : d' = writeBlock (writeBlock d blkmapBid map) rootdirBid dir) {id : Nat} (hid : DataBlock id) :
    diskBlock d' id = diskBlock d id := by
  rw [h, diskBlock_write_other _ hid.2 hid.ne_rootdir, diskBlock_write_other _ hid.2 hid.ne_blkmap]

/-- `do_truncate` frees the blocks of the chain `c` in as many iterations as there are; it writes the block map and the
directory. -/
theorem doTruncate_writes {path : List UInt8} {i : Nat} {c : List Nat} (now : UInt64)
    (hmap : fsNblocks ≤ blockidsPerBlock bs) (hi : i < dirEntriesPerBlock bs)
    (hfind : findDirEntry (diskBlock s.disk rootdirBid) path.tail = some i)
    (hc : IsChain (diskMap s.disk) eofBlock (diskDir s.disk i).firstBlock c)
    (hf : IsChain (diskMap s.disk) 0 (diskMap s.disk 0) free) (hdata : ∀ id ∈ c, DataBlock id)
    (hcf : ∀ id ∈ c, id ∉ free) :
    ∃ s', (∀ fuel, doTruncate fuel s path now = if c.length < fuel then some (0, s') else none) ∧
      (∃ map dir, s'.disk = writeBlock (writeBlock s.disk blkmapBid map) rootdirBid dir) ∧
      diskDir s'.disk = Function.update (diskDir s.disk) i ((diskDir s.disk i).truncated now) ∧
      s'.bdir.entry = diskDir s'.disk ∧ IsChain (diskMap s'.disk) 0 (diskMap s'.disk 0) (c.reverse ++ free) ∧
      ∀ id, id ≠ 0 → id ∉ c → diskMap s'.disk id = diskMap s.disk id := by
  rw [← loadDirectory_bdir] at hfind
  have hsize := entry_setSizeBytes (loadDirectory s).bdir hi 0
  rw [loadDirectory_entry] at hsize
  set s₁ : Fs bs δ := loadBlockmap { loadDirectory s with bdir := setSizeBytes (loadDirectory s).bdir i 0 } with hs₁
  have hids : s₁.bmap.ids = diskMap s.disk := loadBlockmap_ids _
  have hdir : s₁.bdir.entry = Function.update (diskDir s.disk) i { diskDir s.disk i with sizeBytes := 0 } := hsize
  have hchain : IsChain s₁.bmap.ids eofBlock (s₁.bdir.entry i).firstBlock c := by
    rw [hids, hdir, Function.update_self]; exact hc
  have hfreeChain : IsChain s₁.bmap.ids 0 (s₁.bmap.ids 0) free := by rw [hids]; exact hf
  obtain ⟨s₂, hfree, hdisk₂, hent₂, hchain₂, hother₂⟩ := freeBlocks_spec hmap hi hchain hfreeChain hdata hcf
  rw [hids] at hother₂
  have hlast := entry_setLastMod s₂.bdir hi now.toNat
  set s₃ : Fs bs δ := saveDirectory { saveBlockmap s₂ with bdir := setLastMod s₂.bdir i now.toNat } with hs₃
  have hent₃ : s₃.bdir.entry = Function.update (diskDir s.disk) i ((diskDir s.disk i).truncated now) := by
    show (setLastMod s₂.bdir i now.toNat).entry = _
    rw [hlast, hent₂, hdir]
    simp only [Function.update_self, Function.update_idem, DirEntry.truncated, Nat.mod_eq_of_lt now.toNat_lt]
  have hdir₃ : diskDir s₃.disk = Function.update (diskDir s.disk) i ((diskDir s.disk i).truncated now) := by
    rw [hs₃, diskDir_saveDirectory]; exact hent₃
  have hmap₃ : diskMap s₃.disk = s₂.bmap.ids := by
    rw [hs₃, diskMap_saveDirectory]; exact diskMap_saveBlockmap s₂
  refine ⟨s₃, ?_, ⟨s₂.bmap, s₃.bdir, by rw [← show s₂.disk = s.disk from hdisk₂]; rfl⟩, hdir₃,
    hent₃.trans hdir₃.symm, by rw [hmap₃]; exact hchain₂, ?_⟩
  · intro fuel
    unfold doTruncate
    simp only [hfind, ← hs₁, hfree]
    split <;> rfl
  · intro id h0 hid
    rw [hmap₃]; exact hother₂ id h0 hid

theorem doTruncate_sound {path : List UInt8} {i fuel : Nat} (now : UInt64)
    (h : SoundAt bs (diskMap s.disk) (diskDir s.disk) n free file)
    (hfind : findDirEntry (diskBlock s.disk rootdirBid) path.tail = some i) (hfuel : fsNblocks ≤ fuel) :
    ∃ s', doTruncate fuel s path now = some (0, s') ∧ TruncatedAt s n free file i now s' := by
  have hi := (h.of_findDirEntry hfind).1
  have hlen := h.partition.length_lt hi
  obtain ⟨s', hs', ⟨map, dir, hwrite⟩, hdir, hcached, hfree, hlinks⟩ := doTruncate_writes now h.mapHolds
    (Nat.lt_of_lt_of_le hi h.slots.count_le) hfind (h.partition.fileChain i hi) h.partition.freeChain
    (h.partition.file_data i hi) (h.partition.file_free i hi)
  refine ⟨s', by rw [hs', if_pos (by omega)], hdir, hcached, ⟨h.mapHolds, ?_, ?_, ?_⟩, hlinks,
    fun id hid => diskBlock_of_writes hwrite hid⟩
  · rw [hdir]; exact h.slots.setEntry rfl
  · rw [hdir]
    apply (h.partition.release hi hfree hlinks).congr_first
    intro j _
    by_cases hj : j = i
    · subst hj; simp [DirEntry.truncated]
    · simp [Function.update_of_ne hj]
  · intro j hj hpos
    rw [hdir] at hpos ⊢
    by_cases hji : j = i
    · subst hji; simp [DirEntry.truncated] at hpos
    · rw [Function.update_of_ne hji] at hpos ⊢
      exact h.hasBlock j hj hpos

/-- What `do_truncate` leaves of a well-formed disk. -/
structure Truncation (s : Fs bs δ) (n : Nat) (free : List Nat) (file : Nat → List Nat) (i : Nat) (now : UInt64)
    (s' : Fs bs δ) : Prop where
  dir : diskDir s'.disk = Function.update (diskDir s.disk) i ((diskDir s.disk i).truncated now)
  cached : s'.bdir.entry = diskDir s'.disk
  wellFormed : WellFormedAt bs (diskMap s'.disk) (diskDir s'.disk) n ((file i).reverse ++ free)
    (Function.update file i [])
  links : ∀ id, id ≠ 0 → id ∉ file i → diskMap s'.disk id = diskMap s.disk id
  data : ∀ id, DataBlock id → diskBlock s'.disk id = diskBlock s.disk id

theorem doTruncate_spec {path : List UInt8} {i fuel : Nat} (now : UInt64)
    (h : WellFormedAt bs (diskMap s.disk) (diskDir s.disk) n free file) (hi : i < n)
    (hname : HasName (diskDir s.disk i) path.tail) (hfuel : fsNblocks ≤ fuel) :
    ∃ s', doTruncate fuel s path now = some (0, s') ∧ Truncation s n free file i now s' := by
  have hfind := (findDirEntry_eq_some h.table).2 ⟨hi, hname⟩
  obtain ⟨s', hs', ht⟩ := doTruncate_sound now h.sound hfind hfuel
  refine ⟨s', hs', ht.dir, ht.cached, ht.sound.wellFormed ?_, ht.links, ht.data⟩
  rw [ht.dir]
  exact h.table.setEntry rfl

theorem doTruncate_none {path : List UInt8} {now : UInt64} (fuel : Nat)
    (hf : findDirEntry (diskBlock s.disk rootdirBid) path.tail = none) :
    doTruncate fuel s path now = some (-enoent, loadDirectory s) := by
  unfold doTruncate
  simp only [loadDirectory_bdir, hf]

theorem doTruncate_absent {path : List UInt8} {now : UInt64} (fuel : Nat)
    (h : WellFormedAt bs (diskMap s.disk) (diskDir s.disk) n free file)
    (hname : ∀ i, i < n → ¬HasName (diskDir s.disk i) path.tail) :
    doTruncate fuel s path now = some (-enoent, loadDirectory s) :=
  doTruncate_none fuel ((findDirEntry_eq_none h.table).2 hname)

/-! ### `do_unlink` -/

/-- What `do_unlink` leaves of a disk: entry `i` is removed and its blocks are free. -/
structure RemovedAt (s : Fs bs δ) (n : Nat) (free : List Nat) (file : Nat → List Nat) (i : Nat) (now : UInt64)
    (s' : Fs bs δ) : Prop where
  whole : diskDir s'.disk = removed (Function.update (diskDir s.disk) i ((diskDir s.disk i).truncated now)) n i
  dir : ∀ j, j + 1 < n → diskDir s'.disk j = diskDir s.disk (skip i j)
  cached : s'.bdir.entry = diskDir s'.disk
  sound : SoundAt bs (diskMap s'.disk) (diskDir s'.disk) (n - 1) ((file i).reverse ++ free) fun j => file (skip i j)
  links : ∀ id, id ≠ 0 → id ∉ file i → diskMap s'.disk id = diskMap s.disk id
  data : ∀ id, DataBlock id → diskBlock s'.disk id = diskBlock s.disk id

/-- `do_unlink` writes what `do_truncate` writes, and the directory once more. -/
theorem doUnlink_writes {path : List UInt8} {i : Nat} {c : List Nat} (now : UInt64)
    (hmap : fsNblocks ≤ blockidsPerBlock bs) (hslots : Slots bs (diskDir s.disk) n)
    (hfind : findDirEntry (diskBlock s.disk rootdirBid) path.tail = some i)
    (hc : IsChain (diskMap s.disk) eofBlock (diskDir s.disk i).firstBlock c)
    (hf : IsChain (diskMap s.disk) 0 (diskMap s.disk 0) free) (hdata : ∀ id ∈ c, DataBlock id)
    (hcf : ∀ id ∈ c, id ∉ free) :
    ∃ s', (∀ fuel, doUnlink fuel s path now = if c.length < fuel then some (0, s') else none) ∧
      (∃ map dir dir',
        s'.disk = writeBlock (writeBlock (writeBlock s.disk blkmapBid map) rootdirBid dir) rootdirBid dir') ∧
      diskDir s'.disk = removed (Function.update (diskDir s.disk) i ((diskDir s.disk i).truncated now)) n i ∧
      s'.bdir.entry = diskDir s'.disk ∧ IsChain (diskMap s'.disk) 0 (diskMap s'.disk 0) (c.reverse ++ free) ∧
      ∀ id, id ≠ 0 → id ∉ c → diskMap s'.disk id = diskMap s.disk id := by
  have hi : i < n := (Slots.of_findDirEntry (b := diskBlock s.disk rootdirBid) hslots hfind).1
  have hload : (loadDirectory s).disk = s.disk := rfl
  obtain ⟨s₁, htrunc, ⟨map, dir, hwrite⟩, hdir₁, hcached, hfree, hlinks⟩ :=
    doTruncate_writes (s := loadDirectory s) now hmap (Nat.lt_of_lt_of_le hi hslots.count_le) (hload ▸ hfind)
      (hload ▸ hc) (hload ▸ hf) hdata hcf
  rw [← loadDirectory_bdir] at hfind
  have hslots₁ : Slots bs s₁.bdir.entry n := by rw [hcached, hdir₁]; exact hslots.setEntry rfl
  have hscooch := scoochDirEntries_entry hslots₁ hi
  set s₂ : Fs bs δ := saveDirectory { s₁ with bdir := scoochDirEntries s₁.bdir i } with hs₂
  have hdir₂ : diskDir s₂.disk = removed (diskDir s₁.disk) n i := by
    rw [hs₂, diskDir_saveDirectory, ← hcached]; exact hscooch
  have hmap₂ : diskMap s₂.disk = diskMap s₁.disk := by rw [hs₂, diskMap_saveDirectory]
  refine ⟨s₂, ?_, ⟨map, dir, s₂.bdir, by rw [← hload, ← hwrite]; rfl⟩, by rw [hdir₂, hdir₁, hload], ?_,
    by rw [hmap₂]; exact hfree, by rw [hmap₂]; exact hlinks⟩
  · intro fuel
    unfold doUnlink
    simp only [hfind, htrunc]
    split <;> rfl
  · rw [hdir₂, ← hcached]; exact hscooch

theorem doUnlink_sound {path : List UInt8} {i fuel : Nat} (now : UInt64)
    (h : SoundAt bs (diskMap s.disk) (diskDir s.disk) n free file)
    (hfind : findDirEntry (diskBlock s.disk rootdirBid) path.tail = some i) (hfuel : fsNblocks ≤ fuel) :
    ∃ s', doUnlink fuel s path now = some (0, s') ∧ RemovedAt s n free file i now s' := by
  have hi := (h.of_findDirEntry hfind).1
  have hlen := h.partition.length_lt hi
  obtain ⟨s', hs', ⟨map, dir, dir', hwrite⟩, hdir, hcached, hfree, hlinks⟩ :=
    doUnlink_writes now h.mapHolds h.slots hfind (h.partition.fileChain i hi) h.partition.freeChain
      (h.partition.file_data i hi) (h.partition.file_free i hi)
  have hfirst : ∀ j, j + 1 < n → diskDir s'.disk j = diskDir s.disk (skip i j) := by
    intro j hj
    rw [hdir, removed_of_lt _ hj, Function.update_of_ne (skip_ne i j)]
  refine ⟨s', by rw [hs', if_pos (by omega)], hdir, hfirst, hcached, ⟨h.mapHolds, ?_, ?_, ?_⟩, hlinks, ?_⟩
  · have hslots : Slots bs (Function.update (diskDir s.disk) i ((diskDir s.disk i).truncated now)) n :=
      h.slots.setEntry rfl
    rw [hdir]
    exact hslots.remove hi
  · have hp : Partition (diskMap s'.disk) (fun j => (diskDir s'.disk j).firstBlock) (n - 1) ((file i).reverse ++ free)
        fun j => Function.update file i [] (skip i j) :=
      (h.partition.release hi hfree hlinks).remove hi (Function.update_self ..) fun j hj => by
        rw [hfirst j hj, Function.update_of_ne (skip_ne i j)]
    have hfile : (fun j => Function.update file i [] (skip i j)) = fun j => file (skip i j) := by
      funext j; rw [Function.update_of_ne (skip_ne i j)]
    exact hfile ▸ hp
  · intro j hj hpos
    rw [hfirst j (by omega)] at hpos ⊢
    exact h.hasBlock _ (skip_lt (by omega)) hpos
  · intro id hid
    rw [hwrite, diskBlock_write_other _ hid.2 hid.ne_rootdir]
    exact diskBlock_of_writes rfl hid

/-- What `do_unlink` leaves of a well-formed disk. -/
structure Removal (s : Fs bs δ) (n : Nat) (free : List Nat) (file : Nat → List Nat) (i : Nat) (s' : Fs bs δ) :
    Prop where
  dir : ∀ j, j + 1 < n → diskDir s'.disk j = diskDir s.disk (skip i j)
  cached : s'.bdir.entry = diskDir s'.disk
  wellFormed : WellFormedAt bs (diskMap s'.disk) (diskDir s'.disk) (n - 1) ((file i).reverse ++ free)
    (fun j => file (skip i j))
  links : ∀ id, id ≠ 0 → id ∉ file i → diskMap s'.disk id = diskMap s.disk id
  data : ∀ id, DataBlock id → diskBlock s'.disk id = diskBlock s.disk id

theorem doUnlink_spec {path : List UInt8} {i fuel : Nat} (now : UInt64)
    (h : WellFormedAt bs (diskMap s.disk) (diskDir s.disk) n free file) (hi : i < n)
    (hname : HasName (diskDir s.disk i) path.tail) (hfuel : fsNblocks ≤ fuel) :
    ∃ s', doUnlink fuel s path now = some (0, s') ∧ Removal s n free file i s' := by
  have hfind := (findDirEntry_eq_some h.table).2 ⟨hi, hname⟩
  obtain ⟨s', hs', hr⟩ := doUnlink_sound now h.sound hfind hfuel
  obtain ⟨hcount, hused, hunused⟩ := hr.sound.slots
  refine ⟨s', hs', hr.dir, hr.cached, hr.sound.wellFormed ⟨hcount, hused, hunused, ?_⟩, hr.links, hr.data⟩
  intro j k hj hk hjk
  rw [hr.dir j (by omega), hr.dir k (by omega)]
  exact h.table.names _ _ (skip_lt (by omega)) (skip_lt (by omega)) (skip_inj hjk)

theorem doUnlink_none {path : List UInt8} {now : UInt64} (fuel : Nat)
    (hf : findDirEntry (diskBlock s.disk rootdirBid) path.tail = none) :
    doUnlink fuel s path now = some (-enoent, loadDirectory s) := by
  unfold doUnlink
  simp only [loadDirectory_bdir, hf]

theorem doUnlink_absent {path : List UInt8} {now : UInt64} (fuel : Nat)
    (h : WellFormedAt bs (diskMap s.disk) (diskDir s.disk) n free file)
    (hname : ∀ i, i < n → ¬HasName (diskDir s.disk i) path.tail) :
    doUnlink fuel s path now = some (-enoent, loadDirectory s) :=
  doUnlink_none fuel ((findDirEntry_eq_none h.table).2 hname)

/-! ### `do_create` -/

/-- The entry of a new file. -/
def newEntry (path : List UInt8) (m : UInt32) (now : UInt64) : DirEntry where
  name := padName (cstr path)
  lastMod := now.toNat
  mode := m.toNat
  sizeBytes := 0
  firstBlock := eofBlock

theorem newEntry_hasName (path : List UInt8) (m : UInt32) (now : UInt64) : HasName (newEntry path m now) path :=
  nameKey_padName path

theorem doCreate_sound {path : List UInt8} (m : UInt32) (now : UInt64)
    (h : SoundAt bs (diskMap s.disk) (diskDir s.disk) n free file) (hn : n < dirEntriesPerBlock bs)
    (hne : nameKey fsNameLen path.tail ≠ []) :
    ∃ s', doCreate s path m now = some (0, s') ∧
      diskDir s'.disk = Function.update (diskDir s.disk) n (newEntry path.tail m now) ∧
      diskMap s'.disk = diskMap s.disk ∧
      SoundAt bs (diskMap s'.disk) (diskDir s'.disk) (n + 1) free (Function.update file n []) ∧
      ∀ id, DataBlock id → diskBlock s'.disk id = diskBlock s.disk id := by
  have hempty : firstEmptyDirEntry (loadDirectory s).bdir = some n := by
    rw [firstEmptyDirEntry_eq (n := n) (by rw [loadDirectory_entry]; exact h.slots), if_pos hn]
  set bdir := setLastMod (setFirstBlock (setSizeBytes (setMode (setName (loadDirectory s).bdir n (cstr path.tail)) n
    m.toNat) n 0) n eofBlock) n now.toNat with hbdir
  have hent : bdir.entry = Function.update (diskDir s.disk) n (newEntry path.tail m now) := by
    rw [hbdir, entry_setLastMod _ hn, entry_setFirstBlock _ hn _ (by decide), entry_setSizeBytes _ hn,
      entry_setMode _ hn, entry_setName _ hn, loadDirectory_entry]
    simp only [Function.update_self, Function.update_idem, newEntry, Nat.mod_eq_of_lt now.toNat_lt,
      Nat.mod_eq_of_lt m.toNat_lt, Nat.zero_mod]
  set s₁ : Fs bs δ := saveDirectory { loadDirectory s with bdir := bdir } with hs₁
  have hdir₁ : diskDir s₁.disk = Function.update (diskDir s.disk) n (newEntry path.tail m now) := by
    rw [hs₁, diskDir_saveDirectory]; exact hent
  have hmap₁ : diskMap s₁.disk = diskMap s.disk := by rw [hs₁, diskMap_saveDirectory]; rfl
  refine ⟨s₁, ?_, hdir₁, hmap₁, ⟨h.mapHolds, ?_, ?_, ?_⟩, ?_⟩
  · unfold doCreate
    simp only [hempty]
    rfl
  · rw [hdir₁]; exact h.slots.add hn (newEntry_hasName _ m now) hne
  · rw [hdir₁, hmap₁]
    have hp : Partition (diskMap s.disk) (fun j => (Function.update (diskDir s.disk) n
        (newEntry path.tail m now) j).firstBlock) n free file :=
      h.partition.congr_first fun j hj => by rw [Function.update_of_ne (by omega)]
    exact hp.add (by simp [newEntry])
  · intro j hj hpos
    rw [hdir₁] at hpos ⊢
    by_cases hjn : j = n
    · subst hjn; simp [newEntry] at hpos
    · rw [Function.update_of_ne hjn] at hpos ⊢
      exact h.hasBlock j (by omega) hpos
  · intro id hid
    rw [hs₁]
    simp only [saveDirectory]
    exact diskBlock_write_other _ hid.2 hid.ne_rootdir _

theorem doCreate_spec {path : List UInt8} (m : UInt32) (now : UInt64)
    (h : WellFormedAt bs (diskMap s.disk) (diskDir s.disk) n free file) (hn : n < dirEntriesPerBlock bs)
    (hne : nameKey fsNameLen path.tail ≠ []) (hnew : ∀ i, i < n → ¬HasName (diskDir s.disk i) path.tail) :
    ∃ s', doCreate s path m now = some (0, s') ∧
      diskDir s'.disk = Function.update (diskDir s.disk) n (newEntry path.tail m now) ∧
      diskMap s'.disk = diskMap s.disk ∧
      WellFormedAt bs (diskMap s'.disk) (diskDir s'.disk) (n + 1) free (Function.update file n []) ∧
      ∀ id, DataBlock id → diskBlock s'.disk id = diskBlock s.disk id := by
  obtain ⟨s', hs', hdir, hmap, h', hdata⟩ := doCreate_sound m now h.sound hn hne
  refine ⟨s', hs', hdir, hmap, h'.wellFormed ?_, hdata⟩
  rw [hdir]
  exact h.table.add hn (newEntry_hasName _ m now) hne hnew

theorem doCreate_full {path : List UInt8} {m : UInt32} {now : UInt64}
    (h : SoundAt bs (diskMap s.disk) (diskDir s.disk) n free file) (hn : ¬n < dirEntriesPerBlock bs) :
    doCreate s path m now = some (-enfile, loadDirectory s) := by
  have hempty : firstEmptyDirEntry (loadDirectory s).bdir = none := by
    rw [firstEmptyDirEntry_eq (n := n) (by rw [loadDirectory_entry]; exact h.slots), if_neg hn]
  unfold doCreate
  simp only [hempty]

end Disk

end Edaf35.Ssfs
