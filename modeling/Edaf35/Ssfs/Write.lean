import Edaf35.Ssfs.Shrink

/-!
# What `do_write` does on a well-formed disk

Let `c` be the chain of the file, `free` the free list and `k` the block number the offset is mapped to.  The file
may first grow (new size, and a first block if it has none); then the loop `while (blkoffs)` reaches block number `k`
of `c ++ free`, linking blocks of the free list to the file as it goes, and one block is read, modified and written.
When `c ++ free` has no block number `k`, the loop returns -ENOSPC.
-/

namespace Edaf35.Ssfs

variable {bs : Nat} {δ : Type}

/-! ### Where the write starts -/

section Offsets

variable {offset : Int64} (size : UInt64) (hbs : bs < 65536) (h0 : 0 < bs) (hoff : 0 ≤ offset.toInt)

include hoff in
theorem blkoffs_eq : blkoffs bs offset = offset.toInt.toNat / bs % 65536 := by
  obtain ⟨o, ho⟩ := Int.eq_ofNat_of_zero_le hoff
  rw [blkoffs, Int.tdiv_eq_ediv_of_nonneg hoff, ho]
  norm_cast

include hbs h0 hoff in
theorem byteoffs_eq : byteoffs bs offset = offset.toInt.toNat % bs := by
  obtain ⟨o, ho⟩ := Int.eq_ofNat_of_zero_le hoff
  have hlt := Nat.mod_lt o h0
  rw [byteoffs, Int.tmod_eq_emod_of_nonneg hoff, ho, Int.toNat_natCast]
  norm_cast
  exact Nat.mod_eq_of_lt (by omega)

include hbs h0 hoff in
theorem crtsize_eq : crtsize bs size offset = min size.toNat (bs - offset.toInt.toNat % bs) := by
  have hlt := Nat.mod_lt offset.toInt.toNat h0
  rw [crtsize, byteoffs_eq hbs h0 hoff]
  omega

include hbs h0 hoff in
/-- A write at a position of a file stays inside the block. -/
theorem fits_of_nonneg : byteoffs bs offset + crtsize bs size offset ≤ bs := by
  have hlt := Nat.mod_lt offset.toInt.toNat h0
  rw [byteoffs_eq hbs h0 hoff, crtsize_eq size hbs h0 hoff]
  omega

end Offsets

/-! ### The loop that navigates to the block -/

section Navigate

variable {b : Block bs} {first : Nat → Nat} {n i : Nat} {free : List Nat} {file : Nat → List Nat}

/-- One iteration at the end of the chain: the first free block is linked to the last block of the file. -/
private theorem link_spec (hmap : fsNblocks ≤ blockidsPerBlock bs) {a crt : Nat} {l pre : List Nat}
    (hp : Partition b.ids first n (a :: l) file) (hi : i < n) (hfile : file i = pre ++ [crt]) :
    ∃ b₁ b₂, allocateBlock b = some (a, b₁) ∧ setId b₁ crt a = some b₂ ∧
      Partition b₂.ids first n l (Function.update file i (file i ++ [a])) := by
  have hda := hp.free_data a (by simp)
  have hdc := hp.file_data i hi crt (by simp [hfile])
  have hca : crt ≠ a := fun h => hp.file_free i hi crt (by simp [hfile]) (by simp [h])
  obtain ⟨b₁, hb₁, he₁⟩ := allocateBlock_some b hmap hp.freeChain.head_eq hda
  obtain ⟨b₂, hb₂, he₂⟩ := setId_of_lt b₁ crt a (by have := hdc.2; omega)
    (by have := hda.2; simp only [fsNblocks] at this; omega)
  refine ⟨b₁, b₂, hb₁, hb₂, ?_⟩
  have hne : file i ≠ [] := by rw [hfile]; simp
  have hlast : ∀ pre' b', file i = pre' ++ [b'] → b' = crt := by
    intro pre' b' h
    obtain ⟨-, hbb⟩ := List.append_inj' (hfile.symm.trans h) rfl
    simpa using hbb.symm
  have hext := hp.extend b₂.ids (a := a) hi
    (by
      rw [he₂, he₁, Function.update_of_ne (by have := hdc.1; omega), Function.update_of_ne (by have := hda.1; omega),
        Function.update_self])
    (by rw [he₂, he₁, Function.update_of_ne (Ne.symm hca), Function.update_self])
    (by
      intro pre' b' h
      rw [hlast pre' b' h, he₂, Function.update_self])
    (by
      intro id h0 hida hidlast
      rw [he₂, he₁, Function.update_of_ne (hidlast pre crt hfile), Function.update_of_ne hida,
        Function.update_of_ne h0])
  rwa [if_neg hne] at hext

private theorem navigate_found (hmap : fsNblocks ≤ blockidsPerBlock bs) (hp : Partition b.ids first n free file)
    (hi : i < n) {pre post : List Nat} {crt k : Nat} (hfile : file i = pre ++ crt :: post)
    (hk : k < post.length + 1 + free.length) :
    ∃ b' blk, navigate k b crt = some (some blk, b') ∧ (crt :: post ++ free)[k]? = some blk ∧
      Partition b'.ids first n (free.drop (k - post.length))
        (Function.update file i (file i ++ free.take (k - post.length))) ∧
      (k ≤ post.length → b' = b) := by
  induction k generalizing b pre crt post free file with
  | zero => exact ⟨b, crt, rfl, rfl, by simpa [Function.update_eq_self] using hp, fun _ => rfl⟩
  | succ k ih =>
    have hdc := hp.file_data i hi crt (by simp [hfile])
    have hget := getId_of_lt b (show crt < blockidsPerBlock bs by have := hdc.2; omega)
    have hend := (hfile ▸ hp.fileChain i hi).next_eq_stop_iff
    rw [navigate, hget]
    cases post with
    | cons next post =>
      have hnext : b.ids crt = next := (hfile ▸ hp.fileChain i hi).suffix.tail.head_eq
      have hne : b.ids crt ≠ eofBlock := fun h => by simpa using hend.1 h
      have hfile' : file i = (pre ++ [crt]) ++ next :: post := by simp [hfile]
      obtain ⟨b', blk, hnav, hblk, hp', hb'⟩ := ih hp hfile' (by simp at hk; omega)
      refine ⟨b', blk, ?_, by simpa using hblk, by simpa using hp', by simpa using hb'⟩
      simp only [Option.bind_eq_bind, Option.bind_some, if_pos hne]
      rw [hnext]; exact hnav
    | nil =>
      have heof : b.ids crt = eofBlock := hend.2 rfl
      cases free with
      | nil => simp at hk
      | cons a l =>
        have hda := hp.free_data a (by simp)
        obtain ⟨b₁, b₂, hb₁, hb₂, hp₂⟩ := link_spec hmap hp hi hfile
        have hfile' : Function.update file i (file i ++ [a]) i = file i ++ a :: [] := Function.update_self ..
        obtain ⟨b', blk, hnav, hblk, hp', -⟩ := ih hp₂ hfile' (by simp at hk ⊢; omega)
        refine ⟨b', blk, ?_, by simpa using hblk, by simpa using hp', by simp⟩
        simp only [Option.bind_eq_bind, Option.bind_some, heof, ne_eq, not_true_eq_false, if_false, hb₁, hb₂,
          if_neg hda.ne_eof]
        exact hnav

private theorem navigate_full (hmap : fsNblocks ≤ blockidsPerBlock bs) (hp : Partition b.ids first n free file)
    (hi : i < n) {pre post : List Nat} {crt k : Nat} (hfile : file i = pre ++ crt :: post)
    (hk : post.length + 1 + free.length ≤ k) : ∃ b', navigate k b crt = some (none, b') := by
  induction k generalizing b pre crt post free file with
  | zero => omega
  | succ k ih =>
    have hdc := hp.file_data i hi crt (by simp [hfile])
    have hget := getId_of_lt b (show crt < blockidsPerBlock bs by have := hdc.2; omega)
    have hend := (hfile ▸ hp.fileChain i hi).next_eq_stop_iff
    rw [navigate, hget]
    cases post with
    | cons next post =>
      have hnext : b.ids crt = next := (hfile ▸ hp.fileChain i hi).suffix.tail.head_eq
      have hne : b.ids crt ≠ eofBlock := fun h => by simpa using hend.1 h
      have hfile' : file i = (pre ++ [crt]) ++ next :: post := by simp [hfile]
      obtain ⟨b', hnav⟩ := ih hp hfile' (by simp at hk; omega)
      refine ⟨b', ?_⟩
      simp only [Option.bind_eq_bind, Option.bind_some, if_pos hne]
      rw [hnext]; exact hnav
    | nil =>
      have heof : b.ids crt = eofBlock := hend.2 rfl
      cases free with
      | nil =>
        have hnone := allocateBlock_none b hmap hp.freeChain
        exact ⟨b, by simp [heof, hnone]⟩
      | cons a l =>
        have hda := hp.free_data a (by simp)
        obtain ⟨b₁, b₂, hb₁, hb₂, hp₂⟩ := link_spec hmap hp hi hfile
        have hfile' : Function.update file i (file i ++ [a]) i = file i ++ a :: [] := Function.update_self ..
        obtain ⟨b', hnav⟩ := ih hp₂ hfile' (by simp at hk ⊢; omega)
        refine ⟨b', ?_⟩
        simp only [Option.bind_eq_bind, Option.bind_some, heof, ne_eq, not_true_eq_false, if_false, hb₁, hb₂,
          if_neg hda.ne_eof]
        exact hnav

end Navigate

/-! ### The growth of the file -/

/-- The entry of a file of which `do_write` writes bytes up to `newSize`; `first` is its first block. -/
def DirEntry.written (e : DirEntry) (newSize first : Nat) (now : UInt64) : DirEntry :=
  if e.sizeBytes < newSize then { e with sizeBytes := newSize, firstBlock := first, lastMod := now.toNat } else e

@[simp] theorem DirEntry.written_name (e : DirEntry) (newSize first : Nat) (now : UInt64) :
    (e.written newSize first now).name = e.name := by
  unfold written
  split <;> rfl

theorem DirEntry.written_firstBlock (e : DirEntry) {newSize first : Nat} (now : UInt64)
    (h : ¬e.sizeBytes < newSize → e.firstBlock = first) : (e.written newSize first now).firstBlock = first := by
  unfold written
  split
  · rfl
  · exact h ‹_›

section Disk

variable [RawDisk bs δ] [LawfulRawDisk bs δ] {s : Fs bs δ} {n i : Nat} {free : List Nat} {file : Nat → List Nat}

/-- What `growFile` leaves: the directory with the entry of the file brought up to date, also on the disk, and a map
in memory that gives the file its first block if it had none. -/
structure Grown (s : Fs bs δ) (n i : Nat) (free : List Nat) (file : Nat → List Nat) (e : DirEntry) (s' : Fs bs δ) :
    Prop where
  cached : s'.bdir.entry = Function.update (diskDir s.disk) i e
  dir : diskDir s'.disk = Function.update (diskDir s.disk) i e
  blocks : ∀ id, id < fsNblocks → id ≠ rootdirBid → diskBlock s'.disk id = diskBlock s.disk id
  bmap : file i ≠ [] → s'.bmap = diskBlock s.disk blkmapBid
  partition : Partition s'.bmap.ids (fun j => (s'.bdir.entry j).firstBlock) n (free.drop (1 - (file i).length))
    (Function.update file i (file i ++ free.take (1 - (file i).length)))

/-- The end of the growth: the entry gets its new size and time and the directory is saved. -/
private theorem saveGrown_spec (s₁ : Fs bs δ) {di newSize : Nat} (now : UInt64) (hdi : di < dirEntriesPerBlock bs)
    (hnew : newSize < 2 ^ 64) :
    ∃ s', saveDirectory { s₁ with bdir := setLastMod (setSizeBytes s₁.bdir di newSize) di now.toNat } = s' ∧
      s'.bdir.entry = Function.update s₁.bdir.entry di
        { s₁.bdir.entry di with sizeBytes := newSize, lastMod := now.toNat } ∧
      diskDir s'.disk = s'.bdir.entry ∧ s'.bmap = s₁.bmap ∧
      ∀ id, id < fsNblocks → id ≠ rootdirBid → diskBlock s'.disk id = diskBlock s₁.disk id := by
  refine ⟨_, rfl, ?_, diskDir_saveDirectory _, rfl, fun id hid hne => diskBlock_write_other _ hid hne _⟩
  show (setLastMod (setSizeBytes s₁.bdir di newSize) di now.toNat).entry = _
  rw [entry_setLastMod _ hdi, entry_setSizeBytes _ hdi]
  simp only [Function.update_self, Function.update_idem, Nat.mod_eq_of_lt hnew, Nat.mod_eq_of_lt now.toNat_lt]

/-- The state in which the file grows: directory and map are loaded. -/
private theorem loaded (s : Fs bs δ) :
    (loadBlockmap (loadDirectory s)).disk = s.disk ∧
      (loadBlockmap (loadDirectory s)).bdir.entry = diskDir s.disk ∧
      (loadBlockmap (loadDirectory s)).bmap = diskBlock s.disk blkmapBid :=
  ⟨rfl, loadDirectory_entry s, readBlock_eq s.disk (by decide) _⟩

/-- An updated entry changes no first block but its own. -/
private theorem firstBlock_update {dir : Nat → DirEntry} {e : DirEntry} {first : Nat} (he : e.firstBlock = first)
    (j : Nat) :
    (Function.update dir i e j).firstBlock = Function.update (fun j => (dir j).firstBlock) i first j := by
  by_cases hj : j = i
  · subst hj; rw [Function.update_self, Function.update_self, he]
  · rw [Function.update_of_ne hj, Function.update_of_ne hj]

/-- The growth of an empty file: its first block is the first free one. -/
private theorem growFile_empty {a newSize : Nat} {l : List Nat} (now : UInt64)
    (h : SoundAt bs (diskMap s.disk) (diskDir s.disk) n (a :: l) file) (hi : i < n) (hnew : newSize < 2 ^ 64)
    (hgrow : (diskDir s.disk i).sizeBytes < newSize) (hcf : file i = []) :
    ∃ s', growFile (loadBlockmap (loadDirectory s)) i newSize now = some (true, s') ∧
      Grown s n i (a :: l) file ((diskDir s.disk i).written newSize a now) s' := by
  have hN : i < dirEntriesPerBlock bs := Nat.lt_of_lt_of_le hi h.slots.count_le
  obtain ⟨hdisk, hent, hbmap⟩ := loaded s
  have hids : (loadBlockmap (loadDirectory s)).bmap.ids = diskMap s.disk := congrArg Block.ids hbmap
  have hfirst : (diskDir s.disk i).firstBlock = eofBlock := by
    have := h.partition.fileChain i hi
    rwa [hcf] at this
  have hda := h.partition.free_data a (by simp)
  set s₁ := loadBlockmap (loadDirectory s)
  obtain ⟨b', hb', hids'⟩ := allocateBlock_some s₁.bmap h.mapHolds
    (by rw [hids]; exact h.partition.freeChain.head_eq) hda
  have hset := entry_setFirstBlock s₁.bdir hN a (by have := hda.2; simp only [fsNblocks] at this; omega)
  obtain ⟨s', hs', hent', hdir', hbmap', hblk'⟩ :=
    saveGrown_spec { s₁ with bmap := b', bdir := setFirstBlock s₁.bdir i a } now hN hnew
  have hcached : s'.bdir.entry = Function.update (diskDir s.disk) i ((diskDir s.disk i).written newSize a now) := by
    rw [hent']
    simp only [hset, hent, Function.update_self, Function.update_idem, DirEntry.written, if_pos hgrow]
  refine ⟨s', ?_, hcached, hdir'.trans hcached, hblk', fun hne => absurd hcf hne, ?_⟩
  · unfold growFile
    rw [hent, if_pos hgrow, if_pos hfirst]
    simp only [hb', Option.bind_eq_bind, Option.bind_some, Option.pure_def, bne_iff_ne, ne_eq, hda.ne_eof,
      not_false_eq_true, if_true]
    rw [hs']
  · have hext := h.partition.extend s'.bmap.ids (a := a) hi
      (by rw [hbmap', hids', hids, Function.update_of_ne (by have := hda.1; omega), Function.update_self])
      (by rw [hbmap', hids', Function.update_self])
      (fun pre b hb => by rw [hcf] at hb; simp at hb)
      (fun id h0 hida _ => by rw [hbmap', hids', hids, Function.update_of_ne hida, Function.update_of_ne h0])
    rw [if_pos hcf] at hext
    simp only [hcf] at hext ⊢
    apply hext.congr_first
    intro j _
    rw [hcached]
    exact firstBlock_update (DirEntry.written_firstBlock _ _ fun hn => absurd hgrow hn) j

omit [LawfulRawDisk bs δ] in
/-- A file that has blocks, or does not grow, keeps its map. -/
private theorem Grown.of_map {a newSize : Nat} {now : UInt64} {s' : Fs bs δ}
    (h : SoundAt bs (diskMap s.disk) (diskDir s.disk) n free file) (hne : file i ≠ [])
    (ha : (diskDir s.disk i).firstBlock = a)
    (hcached : s'.bdir.entry = Function.update (diskDir s.disk) i ((diskDir s.disk i).written newSize a now))
    (hdir : diskDir s'.disk = s'.bdir.entry)
    (hblk : ∀ id, id < fsNblocks → id ≠ rootdirBid → diskBlock s'.disk id = diskBlock s.disk id)
    (hbmap : s'.bmap = diskBlock s.disk blkmapBid) :
    Grown s n i free file ((diskDir s.disk i).written newSize a now) s' := by
  have hlen : 1 - (file i).length = 0 := by
    have := List.length_pos_iff.2 hne
    omega
  refine ⟨hcached, hdir.trans hcached, hblk, fun _ => hbmap, ?_⟩
  rw [hlen, List.drop_zero, List.take_zero, List.append_nil, Function.update_eq_self, hbmap]
  apply h.partition.congr_first
  intro j _
  rw [hcached, firstBlock_update (DirEntry.written_firstBlock _ _ fun _ => ha) j, ← ha,
    Function.update_eq_self (f := fun j => (diskDir s.disk j).firstBlock)]

theorem growFile_spec (now : UInt64) (h : SoundAt bs (diskMap s.disk) (diskDir s.disk) n free file) (hi : i < n)
    {newSize a : Nat} {l : List Nat} (hnew : newSize < 2 ^ 64) (ha : file i ++ free = a :: l)
    (hc : file i ≠ [] ∨ (diskDir s.disk i).sizeBytes < newSize) :
    ∃ s', growFile (loadBlockmap (loadDirectory s)) i newSize now = some (true, s') ∧
      Grown s n i free file ((diskDir s.disk i).written newSize a now) s' ∧
      (¬(diskDir s.disk i).sizeBytes < newSize → s'.disk = s.disk) := by
  by_cases hcf : file i = []
  · have hgrow := hc.resolve_left (not_not.2 hcf)
    obtain rfl : free = a :: l := by rwa [hcf] at ha
    obtain ⟨s', hs', hg⟩ := growFile_empty now h hi hnew hgrow hcf
    exact ⟨s', hs', hg, fun hn => absurd hgrow hn⟩
  have hN : i < dirEntriesPerBlock bs := Nat.lt_of_lt_of_le hi h.slots.count_le
  obtain ⟨hdisk, hent, hbmap⟩ := loaded s
  obtain ⟨b, c, hbc⟩ := List.exists_cons_of_ne_nil hcf
  obtain ⟨rfl, -⟩ : b = a ∧ c ++ free = l := by simpa [hbc] using ha
  have hchain := h.partition.fileChain i hi
  rw [hbc] at hchain
  have hfirst : (diskDir s.disk i).firstBlock = b := hchain.head_eq
  set s₁ := loadBlockmap (loadDirectory s)
  by_cases hgrow : (diskDir s.disk i).sizeBytes < newSize
  · obtain ⟨s', hs', hent', hdir', hbmap', hblk'⟩ := saveGrown_spec s₁ now hN hnew
    refine ⟨s', ?_, Grown.of_map h hcf hfirst ?_ hdir' hblk' (hbmap'.trans hbmap), fun hn => absurd hgrow hn⟩
    · unfold growFile
      rw [hent, if_pos hgrow, if_neg (by rw [hfirst]; exact hchain.2.1)]
      simp only [Option.bind_eq_bind, Option.bind_some, Option.pure_def, if_true]
      rw [hs']
    · rw [hent']
      simp only [hent, DirEntry.written, if_pos hgrow, hfirst]
  · refine ⟨s₁, ?_, Grown.of_map h hcf hfirst ?_ hent.symm (fun _ _ _ => rfl) hbmap, fun _ => rfl⟩
    · unfold growFile
      rw [hent, if_neg hgrow]
    · rw [hent, DirEntry.written, if_neg hgrow, Function.update_eq_self]

/-- An empty file cannot grow on a full disk. -/
private theorem growFile_full (now : UInt64) (h : SoundAt bs (diskMap s.disk) (diskDir s.disk) n [] file) (hi : i < n)
    {newSize : Nat} (hcf : file i = []) (hgrow : (diskDir s.disk i).sizeBytes < newSize) :
    ∃ s', growFile (loadBlockmap (loadDirectory s)) i newSize now = some (false, s') ∧ s'.disk = s.disk := by
  obtain ⟨hdisk, hent, hbmap⟩ := loaded s
  have hids : (loadBlockmap (loadDirectory s)).bmap.ids = diskMap s.disk := congrArg Block.ids hbmap
  have hfirst : (diskDir s.disk i).firstBlock = eofBlock := by
    have := h.partition.fileChain i hi
    rwa [hcf] at this
  have hnone := allocateBlock_none (loadBlockmap (loadDirectory s)).bmap h.mapHolds
    (by rw [hids]; exact h.partition.freeChain)
  refine ⟨{ loadBlockmap (loadDirectory s) with
    bdir := setFirstBlock (loadBlockmap (loadDirectory s)).bdir i eofBlock }, ?_, rfl⟩
  unfold growFile
  rw [hent, if_pos hgrow, if_pos hfirst, hnone]
  rfl

/-! ### The write as a whole -/

variable {path : List UInt8} {buffer : Nat → UInt8} {size : UInt64} {offset : Int64} {now : UInt64} {stack : Block bs}

/-- What a write that reaches block `k` of the file leaves: `blk` is the block written, `new` what it holds then, and
`e` the new entry. -/
structure WrittenAt (s : Fs bs δ) (n i : Nat) (free : List Nat) (file : Nat → List Nat) (k : Nat) (e : DirEntry)
    (blk : Nat) (new : Block bs) (s' : Fs bs δ) : Prop where
  dir : diskDir s'.disk = Function.update (diskDir s.disk) i e
  sound : SoundAt bs (diskMap s'.disk) (diskDir s'.disk) n (free.drop (k + 1 - (file i).length))
    (Function.update file i (file i ++ free.take (k + 1 - (file i).length)))
  block : diskBlock s'.disk blk = new
  data : ∀ id, DataBlock id → id ≠ blk → diskBlock s'.disk id = diskBlock s.disk id
  map : k < (file i).length → diskBlock s'.disk blkmapBid = diskBlock s.disk blkmapBid

/-- What such a write leaves of a well-formed disk. -/
structure Written (s : Fs bs δ) (n i : Nat) (free : List Nat) (file : Nat → List Nat) (k : Nat) (e : DirEntry)
    (blk : Nat) (new : Block bs) (s' : Fs bs δ) : Prop where
  dir : diskDir s'.disk = Function.update (diskDir s.disk) i e
  wellFormed : WellFormedAt bs (diskMap s'.disk) (diskDir s'.disk) n (free.drop (k + 1 - (file i).length))
    (Function.update file i (file i ++ free.take (k + 1 - (file i).length)))
  block : diskBlock s'.disk blk = new
  data : ∀ id, DataBlock id → id ≠ blk → diskBlock s'.disk id = diskBlock s.disk id
  map : k < (file i).length → diskBlock s'.disk blkmapBid = diskBlock s.disk blkmapBid

omit [RawDisk bs δ] [LawfulRawDisk bs δ] in
theorem endOffset_lt (size : UInt64) (offset : Int64) : endOffset size offset < 2 ^ 64 := by
  unfold endOffset
  omega

omit [LawfulRawDisk bs δ] in
/-- The chain of a file that has grown starts with the first block of its entry. -/
private theorem Grown.exists_cons {e : DirEntry} {s' : Fs bs δ} (hg : Grown s n i free file e s') (hi : i < n)
    (hne : file i ++ free ≠ []) :
    ∃ post, file i ++ free.take (1 - (file i).length) = (s'.bdir.entry i).firstBlock :: post := by
  have hchain := hg.partition.fileChain i hi
  rw [Function.update_self] at hchain
  cases hf : file i ++ free.take (1 - (file i).length) with
  | nil =>
    obtain ⟨hc, ht⟩ := List.append_eq_nil_iff.1 hf
    rw [hc, List.nil_append] at hne
    simp [hc, hne] at ht
  | cons crt post =>
    rw [hf] at hchain
    exact ⟨post, by rw [hchain.head_eq]⟩

omit [LawfulRawDisk bs δ] in
/-- The block at which the loop ends, after the file has grown. -/
theorem Grown.navigate {e : DirEntry} {s' : Fs bs δ} (hg : Grown s n i free file e s')
    (hmap : fsNblocks ≤ blockidsPerBlock bs) (hi : i < n) {k blk : Nat} (hk : (file i ++ free)[k]? = some blk) :
    ∃ b', navigate k s'.bmap (s'.bdir.entry i).firstBlock = some (some blk, b') ∧
      Partition b'.ids (fun j => (s'.bdir.entry j).firstBlock) n (free.drop (k + 1 - (file i).length))
        (Function.update file i (file i ++ free.take (k + 1 - (file i).length))) ∧
      (k < (file i).length → b' = diskBlock s.disk blkmapBid) := by
  have hne : file i ++ free ≠ [] := by rintro hn; simp [hn] at hk
  obtain ⟨post, hpost⟩ := hg.exists_cons hi hne
  obtain ⟨hkl, -⟩ := List.getElem?_eq_some_iff.1 hk
  have hlen := congrArg List.length hpost
  simp only [List.length_append, List.length_take, List.length_cons] at hlen hkl
  have hpos : 0 < (file i).length + free.length := by omega
  have hfile : Function.update file i (file i ++ free.take (1 - (file i).length)) i =
      [] ++ (s'.bdir.entry i).firstBlock :: post := by
    rw [Function.update_self, hpost, List.nil_append]
  obtain ⟨b', blk', hnav, hblk, hp, hb'⟩ := navigate_found (k := k) hmap hg.partition hi hfile
    (by rw [List.length_drop]; omega)
  obtain rfl : blk = blk' := by
    rw [← hpost, List.append_assoc, List.take_append_drop, hk] at hblk
    exact Option.some.inj hblk
  -- the blocks taken for the growth and those taken on the way
  have hadd : 1 - (file i).length + (k - post.length) = k + 1 - (file i).length := by omega
  refine ⟨b', hnav, ?_, fun hlt => ?_⟩
  · rwa [Function.update_self, Function.update_idem, List.append_assoc, ← List.take_add, List.drop_drop, hadd] at hp
  · rw [hb' (by omega)]
    exact hg.bmap fun hnil => by simp [hnil] at hlt

omit [LawfulRawDisk bs δ] in
/-- After the growth the loop runs out of blocks. -/
theorem Grown.navigate_full {e : DirEntry} {s' : Fs bs δ} (hg : Grown s n i free file e s')
    (hmap : fsNblocks ≤ blockidsPerBlock bs) (hi : i < n) (hne : file i ++ free ≠ []) {k : Nat}
    (hk : (file i ++ free).length ≤ k) :
    ∃ b', Ssfs.navigate k s'.bmap (s'.bdir.entry i).firstBlock = some (none, b') := by
  obtain ⟨post, hpost⟩ := hg.exists_cons hi hne
  have hlen := congrArg List.length hpost
  simp only [List.length_append, List.length_take, List.length_cons] at hlen hk
  have hfile : Function.update file i (file i ++ free.take (1 - (file i).length)) i =
      [] ++ (s'.bdir.entry i).firstBlock :: post := by
    rw [Function.update_self, hpost, List.nil_append]
  exact Ssfs.navigate_full (k := k) hmap hg.partition hi hfile (by rw [List.length_drop]; omega)

variable (buffer now stack) in
theorem doWrite_done_sound {blk : Nat} (h : SoundAt bs (diskMap s.disk) (diskDir s.disk) n free file)
    (hfind : findDirEntry (diskBlock s.disk rootdirBid) path.tail = some i)
    (hc : file i ≠ [] ∨ (diskDir s.disk i).sizeBytes < endOffset size offset)
    (hk : (file i ++ free)[blkoffs bs offset]? = some blk)
    (hfit : byteoffs bs offset + crtsize bs size offset ≤ bs) :
    ∃ s', doWrite s path buffer size offset now stack = some (asInt size.toNat, s') ∧
      WrittenAt s n i free file (blkoffs bs offset)
        ((diskDir s.disk i).written (endOffset size offset) ((file i ++ free).headD eofBlock) now) blk
        (overwrite (diskBlock s.disk blk) (byteoffs bs offset) buffer (crtsize bs size offset)) s' ∧
      (¬(diskDir s.disk i).sizeBytes < endOffset size offset →
        diskBlock s'.disk rootdirBid = diskBlock s.disk rootdirBid) := by
  have hi := (h.of_findDirEntry hfind).1
  rw [← loadDirectory_bdir] at hfind
  have hne : file i ++ free ≠ [] := by rintro hn; simp [hn] at hk
  obtain ⟨a, l, hal⟩ := List.exists_cons_of_ne_nil hne
  obtain ⟨s₁, hgrow, hg, hsame⟩ := growFile_spec now h hi (endOffset_lt size offset) hal hc
  obtain ⟨b', hnav, hp, hb'⟩ := hg.navigate h.mapHolds hi hk
  have hdata : DataBlock blk := h.partition.data_of_mem hi (List.mem_of_getElem? hk)
  set new := overwrite (diskBlock s.disk blk) (byteoffs bs offset) buffer (crtsize bs size offset) with hnew
  have hread : readBlock s₁.disk blk stack = diskBlock s.disk blk := by
    rw [readBlock_eq _ hdata.2, hg.blocks _ hdata.2 hdata.ne_rootdir]
  set s₂ : Fs bs δ := saveBlockmap { s₁ with bmap := b', disk := writeBlock s₁.disk blk new } with hs₂
  have hroot : diskBlock s₂.disk rootdirBid = diskBlock s₁.disk rootdirBid := by
    rw [hs₂]
    simp only [saveBlockmap]
    rw [diskBlock_write_other _ (by decide) (by decide), diskBlock_write_other _ (by decide) hdata.ne_rootdir.symm]
  have hdir : diskDir s₂.disk = diskDir s₁.disk := congrArg Block.entry hroot
  have hmap : diskBlock s₂.disk blkmapBid = b' := diskBlock_write_same _ (by decide) _
  rw [hal, List.headD_cons]
  refine ⟨s₂, ?_, ⟨hdir.trans hg.dir, ⟨h.mapHolds, ?_, ?_, ?_⟩, ?_, ?_, ?_⟩, fun hn => by rw [hroot, hsame hn]⟩
  · unfold doWrite
    simp only [hfind, Option.bind_eq_bind, hgrow, Option.bind_some, Bool.not_true, Bool.false_eq_true, if_false, hnav,
      hread, memcpyBlock, if_pos hfit]
    rfl
  · rw [hdir, hg.dir]
    exact h.slots.setEntry (DirEntry.written_name ..)
  · rw [hdir, hg.dir, ← hg.cached, diskMap, hmap]
    exact hp
  · intro j hj hpos
    rw [hdir, hg.dir] at hpos ⊢
    by_cases hji : j = i
    · subst hji
      rw [Function.update_self] at hpos ⊢
      unfold DirEntry.written at hpos ⊢
      split
      · exact (h.partition.data_of_mem hi (a := a) (by simp [hal])).ne_eof
      · rw [if_neg ‹_›] at hpos
        exact h.hasBlock j hi hpos
    · rw [Function.update_of_ne hji] at hpos ⊢
      exact h.hasBlock j hj hpos
  · rw [hs₂]
    simp only [saveBlockmap]
    rw [diskBlock_write_other _ hdata.2 hdata.ne_blkmap, diskBlock_write_same _ hdata.2]
  · intro id hid hne
    rw [hs₂]
    simp only [saveBlockmap]
    rw [diskBlock_write_other _ hid.2 hid.ne_blkmap, diskBlock_write_other _ hid.2 hne,
      hg.blocks _ hid.2 hid.ne_rootdir]
  · intro hlt
    rw [hmap, hb' hlt]

variable (buffer now stack) in
theorem doWrite_done {blk : Nat} (h : WellFormedAt bs (diskMap s.disk) (diskDir s.disk) n free file) (hi : i < n)
    (hname : HasName (diskDir s.disk i) path.tail)
    (hc : file i ≠ [] ∨ (diskDir s.disk i).sizeBytes < endOffset size offset)
    (hk : (file i ++ free)[blkoffs bs offset]? = some blk)
    (hfit : byteoffs bs offset + crtsize bs size offset ≤ bs) :
    ∃ s', doWrite s path buffer size offset now stack = some (asInt size.toNat, s') ∧
      Written s n i free file (blkoffs bs offset)
        ((diskDir s.disk i).written (endOffset size offset) ((file i ++ free).headD eofBlock) now) blk
        (overwrite (diskBlock s.disk blk) (byteoffs bs offset) buffer (crtsize bs size offset)) s' ∧
      (¬(diskDir s.disk i).sizeBytes < endOffset size offset →
        diskBlock s'.disk rootdirBid = diskBlock s.disk rootdirBid) := by
  have hfind := (findDirEntry_eq_some h.table).2 ⟨hi, hname⟩
  obtain ⟨s', hs', hw, hroot⟩ := doWrite_done_sound buffer now stack h.sound hfind hc hk hfit
  refine ⟨s', hs', ⟨hw.dir, hw.sound.wellFormed ?_, hw.block, hw.data, hw.map⟩, hroot⟩
  rw [hw.dir]
  exact h.table.setEntry (DirEntry.written_name ..)

/-- A write that would go past the end of `bcache`. -/
theorem doWrite_fault_sound (h : SoundAt bs (diskMap s.disk) (diskDir s.disk) n free file)
    (hfind : findDirEntry (diskBlock s.disk rootdirBid) path.tail = some i)
    (hc : file i ≠ [] ∨ (diskDir s.disk i).sizeBytes < endOffset size offset)
    (hk : blkoffs bs offset < (file i ++ free).length)
    (hfit : ¬byteoffs bs offset + crtsize bs size offset ≤ bs) :
    doWrite s path buffer size offset now stack = none := by
  have hi := (h.of_findDirEntry hfind).1
  rw [← loadDirectory_bdir] at hfind
  have hne : file i ++ free ≠ [] := by rintro hn; simp [hn] at hk
  obtain ⟨a, l, hal⟩ := List.exists_cons_of_ne_nil hne
  obtain ⟨s₁, hgrow, hg, -⟩ := growFile_spec now h hi (endOffset_lt size offset) hal hc
  obtain ⟨b', hnav, -⟩ := hg.navigate h.mapHolds hi (List.getElem?_eq_getElem hk)
  unfold doWrite
  simp only [hfind, Option.bind_eq_bind, hgrow, Option.bind_some, Bool.not_true, Bool.false_eq_true, if_false, hnav,
    memcpyBlock, if_neg hfit, Option.bind_none]

private theorem doWrite_fault (h : WellFormedAt bs (diskMap s.disk) (diskDir s.disk) n free file) (hi : i < n)
    (hname : HasName (diskDir s.disk i) path.tail)
    (hc : file i ≠ [] ∨ (diskDir s.disk i).sizeBytes < endOffset size offset)
    (hk : blkoffs bs offset < (file i ++ free).length)
    (hfit : ¬byteoffs bs offset + crtsize bs size offset ≤ bs) :
    doWrite s path buffer size offset now stack = none :=
  doWrite_fault_sound h.sound ((findDirEntry_eq_some h.table).2 ⟨hi, hname⟩) hc hk hfit

variable (buffer now stack) in
/-- The loop runs out of blocks: the growth stays, the map is not saved. -/
theorem doWrite_full_sound (h : SoundAt bs (diskMap s.disk) (diskDir s.disk) n free file)
    (hfind : findDirEntry (diskBlock s.disk rootdirBid) path.tail = some i)
    (hc : file i ≠ [] ∨ (diskDir s.disk i).sizeBytes < endOffset size offset) (hne : file i ++ free ≠ [])
    (hk : (file i ++ free).length ≤ blkoffs bs offset) :
    ∃ s', doWrite s path buffer size offset now stack = some (-enospc, s') ∧
      diskDir s'.disk = Function.update (diskDir s.disk) i
        ((diskDir s.disk i).written (endOffset size offset) ((file i ++ free).headD eofBlock) now) ∧
      (∀ id, id < fsNblocks → id ≠ rootdirBid → diskBlock s'.disk id = diskBlock s.disk id) ∧
      (¬(diskDir s.disk i).sizeBytes < endOffset size offset → s'.disk = s.disk) := by
  have hi := (h.of_findDirEntry hfind).1
  rw [← loadDirectory_bdir] at hfind
  obtain ⟨a, l, hal⟩ := List.exists_cons_of_ne_nil hne
  obtain ⟨s₁, hgrow, hg, hsame⟩ := growFile_spec now h hi (endOffset_lt size offset) hal hc
  obtain ⟨b', hnav⟩ := hg.navigate_full h.mapHolds hi hne hk
  rw [hal, List.headD_cons]
  refine ⟨{ s₁ with bmap := b' }, ?_, hg.dir, hg.blocks, hsame⟩
  unfold doWrite
  simp only [hfind, Option.bind_eq_bind, hgrow, Option.bind_some, Bool.not_true, Bool.false_eq_true, if_false, hnav]
  rfl

variable (buffer now stack) in
theorem doWrite_full (h : WellFormedAt bs (diskMap s.disk) (diskDir s.disk) n free file) (hi : i < n)
    (hname : HasName (diskDir s.disk i) path.tail)
    (hc : file i ≠ [] ∨ (diskDir s.disk i).sizeBytes < endOffset size offset) (hne : file i ++ free ≠ [])
    (hk : (file i ++ free).length ≤ blkoffs bs offset) :
    ∃ s', doWrite s path buffer size offset now stack = some (-enospc, s') ∧
      diskDir s'.disk = Function.update (diskDir s.disk) i
        ((diskDir s.disk i).written (endOffset size offset) ((file i ++ free).headD eofBlock) now) ∧
      (∀ id, id < fsNblocks → id ≠ rootdirBid → diskBlock s'.disk id = diskBlock s.disk id) ∧
      (¬(diskDir s.disk i).sizeBytes < endOffset size offset → s'.disk = s.disk) :=
  doWrite_full_sound buffer now stack h.sound ((findDirEntry_eq_some h.table).2 ⟨hi, hname⟩) hc hne hk

variable (buffer now stack) in
/-- An empty file on a full disk: nothing is saved. -/
theorem doWrite_noBlock_sound (h : SoundAt bs (diskMap s.disk) (diskDir s.disk) n free file)
    (hfind : findDirEntry (diskBlock s.disk rootdirBid) path.tail = some i) (hnil : file i ++ free = [])
    (hgrow : (diskDir s.disk i).sizeBytes < endOffset size offset) :
    ∃ s', doWrite s path buffer size offset now stack = some (-enospc, s') ∧ s'.disk = s.disk := by
  have hi := (h.of_findDirEntry hfind).1
  rw [← loadDirectory_bdir] at hfind
  obtain ⟨hcf, rfl⟩ := List.append_eq_nil_iff.1 hnil
  obtain ⟨s', hs', hdisk⟩ := growFile_full now h hi hcf hgrow
  refine ⟨s', ?_, hdisk⟩
  unfold doWrite
  simp only [hfind, Option.bind_eq_bind, hs', Option.bind_some, Bool.not_false, if_true]
  rfl

variable (buffer now stack) in
theorem doWrite_noBlock (h : WellFormedAt bs (diskMap s.disk) (diskDir s.disk) n free file) (hi : i < n)
    (hname : HasName (diskDir s.disk i) path.tail) (hnil : file i ++ free = [])
    (hgrow : (diskDir s.disk i).sizeBytes < endOffset size offset) :
    ∃ s', doWrite s path buffer size offset now stack = some (-enospc, s') ∧ s'.disk = s.disk :=
  doWrite_noBlock_sound buffer now stack h.sound ((findDirEntry_eq_some h.table).2 ⟨hi, hname⟩) hnil hgrow

/-- A file without blocks that does not grow has no block to write; at block offset 0 the write goes past the disk. -/
theorem doWrite_empty_sound (h : SoundAt bs (diskMap s.disk) (diskDir s.disk) n free file)
    (hfind : findDirEntry (diskBlock s.disk rootdirBid) path.tail = some i) (hcf : file i = [])
    (hgrow : ¬(diskDir s.disk i).sizeBytes < endOffset size offset) {r : Int} {s' : Fs bs δ}
    (hw : doWrite s path buffer size offset now stack = some (r, s')) :
    r = asInt size.toNat ∧ ∀ id, id < fsNblocks → diskBlock s'.disk id = diskBlock s.disk id := by
  have hi := (h.of_findDirEntry hfind).1
  rw [← loadDirectory_bdir] at hfind
  obtain ⟨hdisk, hent, hbmap⟩ := loaded s
  have hfirst : (diskDir s.disk i).firstBlock = eofBlock := by
    have := h.partition.fileChain i hi
    rwa [hcf] at this
  unfold doWrite at hw
  simp only [hfind, growFile, hent, if_neg hgrow, hfirst, Option.bind_eq_bind, Option.bind_some, Bool.not_true,
    Bool.false_eq_true, if_false] at hw
  cases hk : blkoffs bs offset with
  | zero =>
    simp only [hk, navigate, Option.bind_some, memcpyBlock] at hw
    split at hw
    · simp only [Option.bind_some, Option.pure_def, Option.some.injEq, Prod.mk.injEq] at hw
      obtain ⟨rfl, rfl⟩ := hw
      refine ⟨rfl, fun id hid => ?_⟩
      have heof : id ≠ eofBlock := by simp only [fsNblocks] at hid; simp only [eofBlock]; omega
      simp only [saveBlockmap, hbmap, hdisk]
      by_cases h0 : id = blkmapBid
      · rw [h0, diskBlock_write_same _ (by decide)]
      · rw [diskBlock_write_other _ hid h0, diskBlock_write_other _ hid heof]
    · simp at hw
  | succ k =>
    -- `bmap[EOF_BLOCK]` lies past the end of the block map
    have hbs : bs < 65536 := LawfulRawDisk.blockSize_lt (δ := δ)
    have hget : getId (loadBlockmap (loadDirectory s)).bmap eofBlock = none :=
      if_neg (by simp only [blockidsPerBlock, eofBlock]; omega)
    simp [hk, navigate, hget] at hw

private theorem doWrite_empty (h : WellFormedAt bs (diskMap s.disk) (diskDir s.disk) n free file) (hi : i < n)
    (hname : HasName (diskDir s.disk i) path.tail) (hcf : file i = [])
    (hgrow : ¬(diskDir s.disk i).sizeBytes < endOffset size offset) {r : Int} {s' : Fs bs δ}
    (hw : doWrite s path buffer size offset now stack = some (r, s')) :
    r = asInt size.toNat ∧ ∀ id, id < fsNblocks → diskBlock s'.disk id = diskBlock s.disk id :=
  doWrite_empty_sound h.sound ((findDirEntry_eq_some h.table).2 ⟨hi, hname⟩) hcf hgrow hw

theorem doWrite_none (hf : findDirEntry (diskBlock s.disk rootdirBid) path.tail = none) :
    doWrite s path buffer size offset now stack = some (-enoent, loadDirectory s) := by
  unfold doWrite
  simp only [loadDirectory_bdir, hf]

theorem doWrite_absent (h : WellFormedAt bs (diskMap s.disk) (diskDir s.disk) n free file)
    (hname : ∀ i, i < n → ¬HasName (diskDir s.disk i) path.tail) :
    doWrite s path buffer size offset now stack = some (-enoent, loadDirectory s) :=
  doWrite_none ((findDirEntry_eq_none h.table).2 hname)

omit [RawDisk bs δ] [LawfulRawDisk bs δ] in
/-- The four ways a write to an existing file goes: no block to write, no first block to allocate, out of blocks on
the way, a block reached. -/
theorem write_cases (c free : List Nat) (grow : Prop) (k : Nat) :
    (c = [] ∧ ¬grow) ∨ (c ++ free = [] ∧ grow) ∨
      ((c ≠ [] ∨ grow) ∧ c ++ free ≠ [] ∧ (c ++ free).length ≤ k) ∨
      ((c ≠ [] ∨ grow) ∧ ∃ blk, (c ++ free)[k]? = some blk) := by
  by_cases hc : c ≠ [] ∨ grow
  · by_cases hnil : c ++ free = []
    · refine Or.inr (Or.inl ⟨hnil, hc.resolve_left (not_not.2 ?_)⟩)
      exact (List.append_eq_nil_iff.1 hnil).1
    · by_cases hk : k < (c ++ free).length
      · exact Or.inr (Or.inr (Or.inr ⟨hc, _, List.getElem?_eq_getElem hk⟩))
      · exact Or.inr (Or.inr (Or.inl ⟨hc, hnil, Nat.not_lt.1 hk⟩))
  · rw [not_or, not_not] at hc
    exact Or.inl hc

/-- What a write to an existing file returns and leaves: a write that has no block to write changes no block, one that
finds no first block changes nothing, one that runs out of blocks on the way changes the directory only, and any other
writes the block it reaches. -/
theorem doWrite_cases (h : WellFormedAt bs (diskMap s.disk) (diskDir s.disk) n free file) (hi : i < n)
    (hname : HasName (diskDir s.disk i) path.tail) {r : Int} {s' : Fs bs δ}
    (hw : doWrite s path buffer size offset now stack = some (r, s')) :
    (file i = [] ∧ ¬(diskDir s.disk i).sizeBytes < endOffset size offset ∧ r = asInt size.toNat ∧
      ∀ id, id < fsNblocks → diskBlock s'.disk id = diskBlock s.disk id) ∨
    (file i ++ free = [] ∧ (diskDir s.disk i).sizeBytes < endOffset size offset ∧ r = -enospc ∧
      s'.disk = s.disk) ∨
    ((file i ≠ [] ∨ (diskDir s.disk i).sizeBytes < endOffset size offset) ∧ file i ++ free ≠ [] ∧
      (file i ++ free).length ≤ blkoffs bs offset ∧ r = -enospc ∧
      diskDir s'.disk = Function.update (diskDir s.disk) i
        ((diskDir s.disk i).written (endOffset size offset) ((file i ++ free).headD eofBlock) now) ∧
      (∀ id, id < fsNblocks → id ≠ rootdirBid → diskBlock s'.disk id = diskBlock s.disk id) ∧
      (¬(diskDir s.disk i).sizeBytes < endOffset size offset → s'.disk = s.disk)) ∨
    ((file i ≠ [] ∨ (diskDir s.disk i).sizeBytes < endOffset size offset) ∧
      ∃ blk, (file i ++ free)[blkoffs bs offset]? = some blk ∧
        byteoffs bs offset + crtsize bs size offset ≤ bs ∧ r = asInt size.toNat ∧
        Written s n i free file (blkoffs bs offset)
          ((diskDir s.disk i).written (endOffset size offset) ((file i ++ free).headD eofBlock) now) blk
          (overwrite (diskBlock s.disk blk) (byteoffs bs offset) buffer (crtsize bs size offset)) s' ∧
        (¬(diskDir s.disk i).sizeBytes < endOffset size offset →
          diskBlock s'.disk rootdirBid = diskBlock s.disk rootdirBid)) := by
  rcases write_cases (file i) free ((diskDir s.disk i).sizeBytes < endOffset size offset) (blkoffs bs offset) with
    ⟨hcf, hgrow⟩ | ⟨hnil, hgrow⟩ | ⟨hc, hne, hk⟩ | ⟨hc, blk, hk⟩
  · exact Or.inl ⟨hcf, hgrow, doWrite_empty h hi hname hcf hgrow hw⟩
  · obtain ⟨s₁, hs₁, hdisk⟩ := doWrite_noBlock buffer now stack h hi hname hnil hgrow
    obtain ⟨rfl, rfl⟩ := result_eq hw hs₁
    exact Or.inr (Or.inl ⟨hnil, hgrow, rfl, hdisk⟩)
  · obtain ⟨s₁, hs₁, hdir, hblocks, hsame⟩ := doWrite_full buffer now stack h hi hname hc hne hk
    obtain ⟨rfl, rfl⟩ := result_eq hw hs₁
    exact Or.inr (Or.inr (Or.inl ⟨hc, hne, hk, rfl, hdir, hblocks, hsame⟩))
  · by_cases hfit : byteoffs bs offset + crtsize bs size offset ≤ bs
    · obtain ⟨s₁, hs₁, hwr, hroot⟩ := doWrite_done buffer now stack h hi hname hc hk hfit
      obtain ⟨hr, rfl⟩ := result_eq hw hs₁
      exact Or.inr (Or.inr (Or.inr ⟨hc, blk, hk, hfit, hr, hwr, hroot⟩))
    · -- the copy into `bcache` faults
      rw [doWrite_fault h hi hname hc (List.getElem?_eq_some_iff.1 hk).1 hfit] at hw
      cases hw

end Disk

end Edaf35.Ssfs
