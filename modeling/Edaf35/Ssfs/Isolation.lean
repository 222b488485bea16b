import Edaf35.Ssfs.Atomicity
import Edaf35.Ssfs.ReadBack
import Edaf35.Ssfs.Session

/-!
# What a read can tell about other files

`allocateBlock` hands out blocks as they are, with what an earlier file left in them.  A read of a file shows such
bytes where a write made the file grow past bytes that nobody wrote.  Two runs of the same calls that differ in the
bytes written to other files keep directory and block map alike; as long as no growing write leaves a gap they keep
the bytes of the first block of the file alike, up to its size, and these are the bytes that `do_read` returns.
-/

namespace Edaf35.Ssfs

variable {bs : Nat} {δ : Type}

/-- The two calls are the same but for the bytes of a write to another file than `f`. -/
def Call.SameBut (f : List UInt8) (c' c'' : Call bs) : Prop :=
  c' = c'' ∨ ∃ name buffer buffer' size offset now stack, name ≠ f ∧
    c' = .write name buffer size offset now stack ∧ c'' = .write name buffer' size offset now stack

/-- A write that makes its file grow starts in the file or at its end, unless the first block is full already. -/
def NoGap (bs : Nat) (e : DirEntry) (size : UInt64) (offset : Int64) : Prop :=
  e.sizeBytes < endOffset size offset → 0 ≤ offset.toInt ∧ (offset.toInt.toNat ≤ e.sizeBytes ∨ bs ≤ e.sizeBytes)

/-- After a write without a gap a byte of the first block below the size was below it before, or is written. -/
private theorem NoGap.byte {e : DirEntry} {size : UInt64} {offset : Int64} {first q : Nat} {now : UInt64}
    (hbs : bs < 65536) (hpos : 0 < bs) (h : NoGap bs e size offset) (hq : q < bs)
    (hsize : q < (e.written (endOffset size offset) first now).sizeBytes) :
    q < e.sizeBytes ∨ blkoffs bs offset = 0 ∧ byteoffs bs offset ≤ q ∧
      q < byteoffs bs offset + crtsize bs size offset := by
  unfold DirEntry.written at hsize
  split at hsize
  · next hgrow =>
    obtain ⟨hoff, hle⟩ := h hgrow
    by_cases hfull : bs ≤ e.sizeBytes
    · exact Or.inl (by omega)
    · have hle := hle.resolve_right hfull
      have hlt : offset.toInt.toNat < bs := by omega
      rw [blkoffs_eq hoff, byteoffs_eq hbs hpos hoff, crtsize_eq size hbs hpos hoff, Nat.div_eq_of_lt hlt,
        Nat.mod_eq_of_lt hlt]
      have hend : endOffset size offset ≤ offset.toInt.toNat + size.toNat := by
        unfold endOffset
        omega
      simp only at hsize
      by_cases hin : q < offset.toInt.toNat
      · exact Or.inl (by omega)
      · refine Or.inr ⟨rfl, by omega, ?_⟩
        omega
  · exact Or.inl hsize

section Disk

variable [RawDisk bs δ]

/-- The write takes the first block of an empty file and then runs out of blocks, so that this block stays on the free
list. -/
def Strands (s : Fs bs δ) (name : List UInt8) (size : UInt64) (offset : Int64) : Prop :=
  ∃ n free file i, SoundAt bs (diskMap s.disk) (diskDir s.disk) n free file ∧ lookup s.disk name = some i ∧
    file i = [] ∧ FailsLate bs (diskDir s.disk i) [] free size offset

/-- A write that strands no block and, if it is to the file `f`, leaves no gap. -/
def Call.Careful (f : List UInt8) (s : Fs bs δ) : Call bs → Prop
  | .write name _ size offset _ _ => ¬Strands s name size offset ∧
    (nameKey fsNameLen name = nameKey fsNameLen f → ∀ i, lookup s.disk name = some i →
      NoGap bs (diskDir s.disk i) size offset)
  | _ => True

/-- Two disks with the same directory, free list and chains, on which the files named `f` have the same bytes in the
first block up to their size. -/
structure Alike (f : List UInt8) (s t : Fs bs δ) (n : Nat) (free : List Nat) (file : Nat → List Nat) : Prop where
  sound : SoundAt bs (diskMap s.disk) (diskDir s.disk) n free file
  sound' : SoundAt bs (diskMap t.disk) (diskDir t.disk) n free file
  dir : diskDir t.disk = diskDir s.disk
  same : ∀ i, i < n → HasName (diskDir s.disk i) f → ∀ a, (file i).head? = some a → ∀ q, q < bs →
    q < (diskDir s.disk i).sizeBytes → (diskBlock t.disk a).byte q = (diskBlock s.disk a).byte q

variable [LawfulRawDisk bs δ] {f : List UInt8} {s t s' t' : Fs bs δ} {n i : Nat} {free : List Nat}
  {file : Nat → List Nat}

omit [LawfulRawDisk bs δ] in
private theorem Alike.lookup_eq (h : Alike f s t n free file) (name : List UInt8) :
    lookup t.disk name = lookup s.disk name :=
  findDirEntry_congr h.dir name

omit [LawfulRawDisk bs δ] in
/-- A call that writes no data block, and makes no file longer as far as its first block goes. -/
private theorem Alike.of_untouched {n' : Nat} {free' : List Nat} {file' : Nat → List Nat} (h : Alike f s t n free file)
    (hs : SoundAt bs (diskMap s'.disk) (diskDir s'.disk) n' free' file')
    (ht : SoundAt bs (diskMap t'.disk) (diskDir t'.disk) n' free' file') (hdir : diskDir t'.disk = diskDir s'.disk)
    (hdata : ∀ id, DataBlock id → diskBlock s'.disk id = diskBlock s.disk id)
    (hdata' : ∀ id, DataBlock id → diskBlock t'.disk id = diskBlock t.disk id)
    (hold : ∀ i, i < n' → HasName (diskDir s'.disk i) f → ∀ a, (file' i).head? = some a →
      ∃ j, j < n ∧ HasName (diskDir s.disk j) f ∧ (file j).head? = some a ∧
        ∀ q, q < bs → q < (diskDir s'.disk i).sizeBytes → q < (diskDir s.disk j).sizeBytes) :
    Alike f s' t' n' free' file' := by
  refine ⟨hs, ht, hdir, fun i hi hn a ha q hq hsize => ?_⟩
  obtain ⟨j, hj, hnj, haj, hle⟩ := hold i hi hn a ha
  have hblock := h.sound.partition.file_data j hj a (List.mem_of_mem_head? haj)
  rw [hdata a hblock, hdata' a hblock]
  exact h.same j hj hnj a haj q hq (hle q hq hsize)

omit [LawfulRawDisk bs δ] in
private theorem Alike.of_same (h : Alike f s t n free file)
    (hs : ∀ id, id < fsNblocks → diskBlock s'.disk id = diskBlock s.disk id)
    (ht : ∀ id, id < fsNblocks → diskBlock t'.disk id = diskBlock t.disk id) : Alike f s' t' n free file := by
  have hmap : diskMap s'.disk = diskMap s.disk := congrArg Block.ids (hs blkmapBid (by decide))
  have hdir : diskDir s'.disk = diskDir s.disk := congrArg Block.entry (hs rootdirBid (by decide))
  have hmap' : diskMap t'.disk = diskMap t.disk := congrArg Block.ids (ht blkmapBid (by decide))
  have hdir' : diskDir t'.disk = diskDir t.disk := congrArg Block.entry (ht rootdirBid (by decide))
  refine h.of_untouched (by rw [hmap, hdir]; exact h.sound) (by rw [hmap', hdir']; exact h.sound') ?_
    (fun id hid => hs id hid.2) (fun id hid => ht id hid.2) ?_
  · rw [hdir, hdir', h.dir]
  · intro i hi hf a ha
    rw [hdir] at hf ⊢
    exact ⟨i, hi, hf, ha, fun _ _ hq => hq⟩

omit [LawfulRawDisk bs δ] in
/-- Operations that only read the directory. -/
private theorem Alike.loaded (h : Alike f s t n free file) (hs : s' = loadDirectory s) (ht : t' = loadDirectory t) :
    ∃ n' free' file', Alike f s' t' n' free' file' := by
  rw [hs, ht]
  exact ⟨n, free, file, h.sound, h.sound', h.dir, h.same⟩

omit [LawfulRawDisk bs δ] in
/-- The slot `i` gets an entry for an empty file, and every other file keeps its entry and its blocks. -/
private theorem Alike.of_emptied {n' : Nat} {free' : List Nat} {e : DirEntry} (h : Alike f s t n free file)
    (hs : SoundAt bs (diskMap s'.disk) (diskDir s'.disk) n' free' (Function.update file i []))
    (ht : SoundAt bs (diskMap t'.disk) (diskDir t'.disk) n' free' (Function.update file i []))
    (hdir : diskDir s'.disk = Function.update (diskDir s.disk) i e)
    (hdir' : diskDir t'.disk = Function.update (diskDir t.disk) i e)
    (hdata : ∀ id, DataBlock id → diskBlock s'.disk id = diskBlock s.disk id)
    (hdata' : ∀ id, DataBlock id → diskBlock t'.disk id = diskBlock t.disk id)
    (hlt : ∀ j, j < n' → j ≠ i → j < n) : Alike f s' t' n' free' (Function.update file i []) := by
  apply h.of_untouched hs ht (by rw [hdir, hdir', h.dir]) hdata hdata'
  intro j hj hf a ha
  have hne : j ≠ i := by
    intro hc
    rw [hc, Function.update_self] at ha
    cases ha
  rw [Function.update_of_ne hne] at ha
  rw [hdir, Function.update_of_ne hne] at hf ⊢
  exact ⟨j, hlt j hj hne, hf, ha, fun _ _ hq => hq⟩

private theorem Alike.create {name : List UInt8} {m : UInt32} {now : UInt64} {r r' : Int} (h : Alike f s t n free file)
    (hname : IsName name) (hs : doCreate s (pathOf name) m now = some (r, s'))
    (ht : doCreate t (pathOf name) m now = some (r', t')) : ∃ n' free' file', Alike f s' t' n' free' file' := by
  have hnil : nameKey fsNameLen (pathOf name).tail ≠ [] := nameKey_ne_nil hname
  by_cases hn : n < dirEntriesPerBlock bs
  · obtain ⟨s₁, hs₁, hdir, -, hsound, hdata⟩ := doCreate_sound m now h.sound hn hnil
    obtain ⟨t₁, ht₁, hdir', -, hsound', hdata'⟩ := doCreate_sound m now h.sound' hn hnil
    obtain ⟨-, rfl⟩ := result_eq hs hs₁
    obtain ⟨-, rfl⟩ := result_eq ht ht₁
    exact ⟨_, _, _, h.of_emptied hsound hsound' hdir hdir' hdata hdata' fun j hj hne => by omega⟩
  · exact h.loaded (result_eq hs (doCreate_full h.sound hn)).2 (result_eq ht (doCreate_full h.sound' hn)).2

private theorem Alike.truncate {name : List UInt8} {now : UInt64} {fuel : Nat} {r r' : Int}
    (h : Alike f s t n free file) (hfuel : fsNblocks ≤ fuel) (hs : doTruncate fuel s (pathOf name) now = some (r, s'))
    (ht : doTruncate fuel t (pathOf name) now = some (r', t')) : ∃ n' free' file', Alike f s' t' n' free' file' := by
  have hlookup := h.lookup_eq (pathOf name).tail
  cases hl : lookup s.disk (pathOf name).tail with
  | none =>
    rw [hl] at hlookup
    exact h.loaded (result_eq hs (doTruncate_none fuel hl)).2 (result_eq ht (doTruncate_none fuel hlookup)).2
  | some i =>
    rw [hl] at hlookup
    obtain ⟨s₁, hs₁, htr⟩ := doTruncate_sound now h.sound hl hfuel
    obtain ⟨t₁, ht₁, htr'⟩ := doTruncate_sound now h.sound' hlookup hfuel
    obtain ⟨-, rfl⟩ := result_eq hs hs₁
    obtain ⟨-, rfl⟩ := result_eq ht ht₁
    have hdir' := htr'.dir
    rw [h.dir] at hdir'
    exact ⟨n, _, _, h.of_emptied htr.sound htr'.sound htr.dir (by rw [hdir', h.dir]) htr.data htr'.data
      fun j hj _ => hj⟩

private theorem Alike.unlink {name : List UInt8} {now : UInt64} {fuel : Nat} {r r' : Int} (h : Alike f s t n free file)
    (hfuel : fsNblocks ≤ fuel) (hs : doUnlink fuel s (pathOf name) now = some (r, s'))
    (ht : doUnlink fuel t (pathOf name) now = some (r', t')) : ∃ n' free' file', Alike f s' t' n' free' file' := by
  have hlookup := h.lookup_eq (pathOf name).tail
  cases hl : lookup s.disk (pathOf name).tail with
  | none =>
    rw [hl] at hlookup
    exact h.loaded (result_eq hs (doUnlink_none fuel hl)).2 (result_eq ht (doUnlink_none fuel hlookup)).2
  | some i =>
    rw [hl] at hlookup
    obtain ⟨s₁, hs₁, hrm⟩ := doUnlink_sound now h.sound hl hfuel
    obtain ⟨t₁, ht₁, hrm'⟩ := doUnlink_sound now h.sound' hlookup hfuel
    obtain ⟨-, rfl⟩ := result_eq hs hs₁
    obtain ⟨-, rfl⟩ := result_eq ht ht₁
    have hdir : diskDir t'.disk = diskDir s'.disk := by rw [hrm.whole, hrm'.whole, h.dir]
    refine ⟨n - 1, _, _, h.of_untouched hrm.sound hrm'.sound hdir hrm.data hrm'.data ?_⟩
    intro j hj hf a ha
    rw [hrm.dir j (by omega)] at hf ⊢
    exact ⟨skip i j, skip_lt (by omega), hf, ha, fun _ _ hq => hq⟩

/-! ### Writes -/

omit [LawfulRawDisk bs δ] in
/-- A write that fails after it recorded the size of a file that has blocks leaves the disk sound. -/
theorem SoundAt.resized {newSize : Nat} {now : UInt64} (h : SoundAt bs (diskMap s.disk) (diskDir s.disk) n free file)
    (hi : i < n) {a : Nat} {l : List Nat} (hc : file i = a :: l)
    (hdir : diskDir s'.disk = Function.update (diskDir s.disk) i ((diskDir s.disk i).written newSize a now))
    (hmap : diskMap s'.disk = diskMap s.disk) : SoundAt bs (diskMap s'.disk) (diskDir s'.disk) n free file := by
  have hchain := h.partition.fileChain i hi
  rw [hc] at hchain
  have hfirst : ∀ j, (diskDir s'.disk j).firstBlock = (diskDir s.disk j).firstBlock := by
    intro j
    rw [hdir]
    by_cases hj : j = i
    · rw [hj, Function.update_self]
      exact (DirEntry.written_firstBlock _ _ fun _ => hchain.head_eq).trans hchain.head_eq.symm
    · rw [Function.update_of_ne hj]
  refine ⟨h.mapHolds, ?_, ?_, fun j hj hpos => ?_⟩
  · rw [hdir]
    exact h.slots.setEntry (DirEntry.written_name ..)
  · rw [hmap]
    exact h.partition.congr_first fun j _ => hfirst j
  · rw [hfirst]
    by_cases hji : j = i
    · rw [hji, hchain.head_eq]
      exact hchain.2.1
    · rw [hdir, Function.update_of_ne hji] at hpos
      exact h.hasBlock j hj hpos

/-- The bytes of the first block of the file written, below its size, after the same bytes were written on both
disks. -/
private theorem same_of_written {buffer : Nat → UInt8} {size : UInt64} {offset : Int64} {now : UInt64} {e e' : DirEntry}
    {blk first : Nat} (h : Alike f s t n free file) (hi : i < n) (hf : HasName (diskDir s.disk i) f)
    (hgap : NoGap bs (diskDir s.disk i) size offset)
    (hk : (file i ++ free)[blkoffs bs offset]? = some blk)
    (he : e = (diskDir s.disk i).written (endOffset size offset) first now)
    (hw : WrittenAt s n i free file (blkoffs bs offset) e blk
      (overwrite (diskBlock s.disk blk) (byteoffs bs offset) buffer (crtsize bs size offset)) s')
    (hw' : WrittenAt t n i free file (blkoffs bs offset) e' blk
      (overwrite (diskBlock t.disk blk) (byteoffs bs offset) buffer (crtsize bs size offset)) t')
    {a : Nat} (ha : (file i ++ free).head? = some a) {q : Nat} (hq : q < bs) (hsize : q < e.sizeBytes) :
    (diskBlock t'.disk a).byte q = (diskBlock s'.disk a).byte q := by
  have hpos : 0 < bs := LawfulRawDisk.blockSize_pos (δ := δ)
  have hbs : bs < 65536 := LawfulRawDisk.blockSize_lt (δ := δ)
  -- a byte below the old size
  have hold : q < (diskDir s.disk i).sizeBytes → (diskBlock t.disk a).byte q = (diskBlock s.disk a).byte q := by
    intro hlt
    have hne : file i ≠ [] := by
      intro hnil
      rw [h.sound.sizeBytes_of_nil hi hnil] at hlt
      exact absurd hlt (Nat.not_lt_zero q)
    rw [List.head?_append_of_ne_nil _ hne] at ha
    exact h.same i hi hf a ha q hq hlt
  rw [he] at hsize
  have hbyte := hgap.byte hbs hpos hq hsize
  by_cases hblk : a = blk
  · subst hblk
    rw [hw.block, hw'.block, byte_overwrite _ hq, byte_overwrite _ hq]
    split
    · rfl
    · next hout =>
      refine hold (hbyte.resolve_right ?_)
      rintro ⟨-, h₁, h₂⟩
      exact hout ⟨h₁, h₂⟩
  · have hdata : DataBlock a := h.sound.partition.data_of_mem hi (List.mem_of_mem_head? ha)
    rw [hw.data a hdata hblk, hw'.data a hdata hblk]
    refine hold (hbyte.resolve_right ?_)
    rintro ⟨h0, -⟩
    rw [h0, ← List.head?_eq_getElem?, ha, Option.some.injEq] at hk
    exact hblk hk

section Write

variable {path : List UInt8} {buffer buffer' : Nat → UInt8} {size : UInt64} {offset : Int64} {now : UInt64}
  {stack : Block bs} {r r' : Int}

/-- Both runs are out of blocks on the way to the one to be written. -/
private theorem Alike.write_full (h : Alike f s t n free file) (hl : lookup s.disk path.tail = some i)
    (hl' : lookup t.disk path.tail = some i)
    (hgap : HasName (diskDir s.disk i) f → NoGap bs (diskDir s.disk i) size offset)
    (hstrand : (diskDir s.disk i).sizeBytes < endOffset size offset → file i ≠ [])
    (hc : file i ≠ [] ∨ (diskDir s.disk i).sizeBytes < endOffset size offset) (hne : file i ++ free ≠ [])
    (hk : (file i ++ free).length ≤ blkoffs bs offset)
    (hs : doWrite s path buffer size offset now stack = some (r, s'))
    (ht : doWrite t path buffer' size offset now stack = some (r', t')) :
    ∃ n' free' file', Alike f s' t' n' free' file' := by
  obtain ⟨s₁, hs₁, hdir, hblk, hsame⟩ := doWrite_full_sound buffer now stack h.sound hl hc hne hk
  obtain ⟨t₁, ht₁, hdir', hblk', hsame'⟩ :=
    doWrite_full_sound buffer' now stack h.sound' hl' (by rw [h.dir]; exact hc) hne hk
  obtain ⟨-, rfl⟩ := result_eq hs hs₁
  obtain ⟨-, rfl⟩ := result_eq ht ht₁
  by_cases hgrow : (diskDir s.disk i).sizeBytes < endOffset size offset
  · obtain ⟨hi, -⟩ := h.sound.of_findDirEntry hl
    obtain ⟨a, l, hal⟩ := List.exists_cons_of_ne_nil (hstrand hgrow)
    have hhead : (file i ++ free).headD eofBlock = a := by rw [hal]; rfl
    rw [hhead] at hdir hdir'
    have hmap : diskMap s'.disk = diskMap s.disk := congrArg Block.ids (hblk blkmapBid (by decide) (by decide))
    have hmap' : diskMap t'.disk = diskMap t.disk := congrArg Block.ids (hblk' blkmapBid (by decide) (by decide))
    refine ⟨n, free, file, h.of_untouched (h.sound.resized hi hal hdir hmap) (h.sound'.resized hi hal hdir' hmap')
      (by rw [hdir, hdir', h.dir]) (fun id hid => hblk id hid.2 hid.ne_rootdir)
      (fun id hid => hblk' id hid.2 hid.ne_rootdir) ?_⟩
    intro j hj hf b hb
    rw [hdir] at hf ⊢
    by_cases hji : j = i
    · subst hji
      rw [Function.update_self, HasName, DirEntry.written_name] at hf
      refine ⟨j, hj, hf, hb, fun q hq hsize => ?_⟩
      rw [Function.update_self] at hsize
      -- the block to be written is not the first one
      apply ((hgap hf).byte (LawfulRawDisk.blockSize_lt δ) (LawfulRawDisk.blockSize_pos δ) hq hsize).resolve_right
      rintro ⟨h0, -⟩
      rw [hal, h0] at hk
      exact absurd hk (by simp)
    · rw [Function.update_of_ne hji] at hf ⊢
      exact ⟨j, hj, hf, hb, fun _ _ hq => hq⟩
  · exact ⟨n, free, file, h.of_same (fun id _ => by rw [hsame hgrow])
      fun id _ => by rw [hsame' (by rw [h.dir]; exact hgrow)]⟩

omit [LawfulRawDisk bs δ] in
private theorem head?_written {k a : Nat} (ha : (file i ++ free.take k).head? = some a) :
    (file i ++ free).head? = some a := by
  cases hcf : file i with
  | nil =>
    rw [hcf, List.nil_append, List.head?_take] at ha
    split at ha
    · cases ha
    · exact ha
  | cons b l =>
    rw [hcf] at ha
    exact ha

/-- Both runs write the block. -/
private theorem Alike.write_done {blk : Nat} (h : Alike f s t n free file) (hl : lookup s.disk path.tail = some i)
    (hl' : lookup t.disk path.tail = some i)
    (hgap : HasName (diskDir s.disk i) f → NoGap bs (diskDir s.disk i) size offset)
    (hbuf : HasName (diskDir s.disk i) f → buffer' = buffer)
    (hc : file i ≠ [] ∨ (diskDir s.disk i).sizeBytes < endOffset size offset)
    (hk : (file i ++ free)[blkoffs bs offset]? = some blk)
    (hs : doWrite s path buffer size offset now stack = some (r, s'))
    (ht : doWrite t path buffer' size offset now stack = some (r', t')) :
    ∃ n' free' file', Alike f s' t' n' free' file' := by
  obtain ⟨hi, -⟩ := h.sound.of_findDirEntry hl
  by_cases hfit : byteoffs bs offset + crtsize bs size offset ≤ bs
  · obtain ⟨s₁, hs₁, hw, -⟩ := doWrite_done_sound buffer now stack h.sound hl hc hk hfit
    obtain ⟨t₁, ht₁, hw', -⟩ :=
      doWrite_done_sound buffer' now stack h.sound' hl' (by rw [h.dir]; exact hc) hk hfit
    obtain ⟨-, rfl⟩ := result_eq hs hs₁
    obtain ⟨-, rfl⟩ := result_eq ht ht₁
    refine ⟨n, _, _, hw.sound, hw'.sound, by rw [hw.dir, hw'.dir, h.dir], fun j hj hf a ha q hq hsize => ?_⟩
    by_cases hji : j = i
    · subst hji
      rw [Function.update_self] at ha
      rw [hw.dir, Function.update_self] at hf hsize
      rw [HasName, DirEntry.written_name] at hf
      obtain rfl := hbuf hf
      exact same_of_written h hi hf (hgap hf) hk rfl hw hw' (head?_written ha) hq hsize
    · rw [hw.dir, Function.update_of_ne hji] at hf hsize
      rw [Function.update_of_ne hji] at ha
      have hmem := List.mem_of_mem_head? ha
      have hdata := h.sound.partition.file_data j hj a hmem
      have hblk : a ≠ blk := by
        rintro rfl
        rcases List.mem_append.1 (List.mem_of_getElem? hk) with hin | hin
        · exact h.sound.partition.file_file j i hj hi hji a hmem hin
        · exact h.sound.partition.file_free j hj a hmem hin
      rw [hw.data a hdata hblk, hw'.data a hdata hblk]
      exact h.same j hj hf a ha q hq hsize
  · rw [doWrite_fault_sound h.sound hl hc (List.getElem?_eq_some_iff.1 hk).1 hfit] at hs
    cases hs

private theorem Alike.write {name : List UInt8} (h : Alike f s t n free file) (hstrand : ¬Strands s name size offset)
    (hgap : nameKey fsNameLen name = nameKey fsNameLen f → ∀ i, lookup s.disk name = some i →
      NoGap bs (diskDir s.disk i) size offset)
    (hbuf : nameKey fsNameLen name = nameKey fsNameLen f → buffer' = buffer)
    (hs : doWrite s (pathOf name) buffer size offset now stack = some (r, s'))
    (ht : doWrite t (pathOf name) buffer' size offset now stack = some (r', t')) :
    ∃ n' free' file', Alike f s' t' n' free' file' := by
  have hlookup := h.lookup_eq (pathOf name).tail
  cases hl : lookup s.disk (pathOf name).tail with
  | none =>
    rw [hl] at hlookup
    exact h.loaded (result_eq hs (doWrite_none hl)).2 (result_eq ht (doWrite_none hlookup)).2
  | some i =>
    rw [hl] at hlookup
    obtain ⟨hi, hname⟩ := h.sound.of_findDirEntry hl
    have hgap : HasName (diskDir s.disk i) f → NoGap bs (diskDir s.disk i) size offset :=
      fun hf => hgap (hname.symm.trans hf) i hl
    have hbuf : HasName (diskDir s.disk i) f → buffer' = buffer := fun hf => hbuf (hname.symm.trans hf)
    rcases write_cases (file i) free ((diskDir s.disk i).sizeBytes < endOffset size offset) (blkoffs bs offset) with
      ⟨hcf, hgrow⟩ | ⟨hnil, hgrow⟩ | ⟨hc, hne, hk⟩ | ⟨hc, blk, hk⟩
    · -- no block to write
      have hsame := (doWrite_empty_sound h.sound hl hcf hgrow hs).2
      have hsame' := (doWrite_empty_sound h.sound' hlookup hcf (by rw [h.dir]; exact hgrow) ht).2
      exact ⟨n, free, file, h.of_same hsame hsame'⟩
    · -- no block to allocate
      obtain ⟨s₁, hs₁, hsame⟩ := doWrite_noBlock_sound buffer now stack h.sound hl hnil hgrow
      obtain ⟨t₁, ht₁, hsame'⟩ :=
        doWrite_noBlock_sound buffer' now stack h.sound' hlookup hnil (by rw [h.dir]; exact hgrow)
      obtain ⟨-, rfl⟩ := result_eq hs hs₁
      obtain ⟨-, rfl⟩ := result_eq ht ht₁
      exact ⟨n, free, file, h.of_same (fun id _ => by rw [hsame]) fun id _ => by rw [hsame']⟩
    · refine h.write_full hl hlookup hgap (fun hgrow hcf => hstrand ?_) hc hne hk hs ht
      exact ⟨n, free, file, i, h.sound, hl, hcf, hgrow, by rwa [hcf] at hne, by rwa [hcf] at hk⟩
    · exact h.write_done hl hlookup hgap hbuf hc hk hs ht

end Write

/-! ### Reads -/

private theorem Alike.read {size : UInt64} {offset : Int64} {stack : Block bs} {r r' : Int}
    {bytes bytes' : List UInt8} (h : Alike f s t n free file) (hoff : 0 ≤ offset.toInt)
    (hs : doRead s (pathOf f) size offset stack = some (r, bytes, s'))
    (ht : doRead t (pathOf f) size offset stack = some (r', bytes', t')) :
    r' = r ∧ ∀ i k, lookup s.disk f = some i →
      offset.toInt.toNat + k < (diskDir s.disk i).sizeBytes → bytes'[k]? = bytes[k]? := by
  have hpos : 0 < bs := LawfulRawDisk.blockSize_pos (δ := δ)
  have hbs : bs < 65536 := LawfulRawDisk.blockSize_lt (δ := δ)
  have hfit := fits_of_nonneg size hbs hpos hoff
  have hlookup := h.lookup_eq f
  unfold doRead at hs ht
  simp only [loadDirectory_bdir, tail_pathOf] at hs ht
  unfold Ssfs.lookup at hlookup ⊢
  rw [hlookup] at ht
  cases hl : findDirEntry (diskBlock s.disk rootdirBid) f with
  | none =>
    simp only [hl, Option.some.injEq, Prod.mk.injEq] at hs ht
    obtain ⟨rfl, -, -⟩ := hs
    obtain ⟨rfl, -, -⟩ := ht
    exact ⟨rfl, fun i k hi => (by cases hi)⟩
  | some i =>
    simp only [hl, if_pos hfit, Option.some.injEq, Prod.mk.injEq] at hs ht
    obtain ⟨rfl, rfl, -⟩ := hs
    obtain ⟨rfl, rfl, -⟩ := ht
    refine ⟨rfl, fun j k hj hsize => ?_⟩
    cases hj
    obtain ⟨hi, hf⟩ := h.sound.of_findDirEntry hl
    by_cases hk : k < crtsize bs size offset
    · rw [List.getElem?_map, List.getElem?_map, List.getElem?_range hk, Option.map_some, Option.map_some]
      -- the byte read lies in the first block, below the size
      obtain ⟨a, l, hal⟩ : ∃ a l, file i = a :: l := by
        apply List.exists_cons_of_ne_nil
        intro hnil
        rw [h.sound.sizeBytes_of_nil hi hnil] at hsize
        exact absurd hsize (Nat.not_lt_zero _)
      have hdata := h.sound.partition.file_data i hi a (by simp [hal])
      have hfirst : (diskDir s.disk i).firstBlock = a := (hal ▸ h.sound.partition.fileChain i hi).head_eq
      have hent : (diskBlock s.disk rootdirBid).entry i = diskDir s.disk i := rfl
      have hent' : (diskBlock t.disk rootdirBid).entry i = diskDir s.disk i := congrFun h.dir i
      rw [hent, hent', hfirst, readBlock_eq _ hdata.2, readBlock_eq _ hdata.2]
      have hq : byteoffs bs offset + k < bs := by omega
      have hle : byteoffs bs offset ≤ offset.toInt.toNat := by
        rw [byteoffs_eq hbs hpos hoff]
        exact Nat.mod_le _ _
      exact congrArg some (h.same i hi hf a (by rw [hal]; rfl) _ hq (by omega))
    · have hnone : (List.range (crtsize bs size offset))[k]? = none :=
        List.getElem?_eq_none (by rw [List.length_range]; omega)
      rw [List.getElem?_map, List.getElem?_map, hnone]
      rfl

/-! ### Runs -/

omit [RawDisk bs δ] [LawfulRawDisk bs δ] in
/-- Calls that are the same, or are to a file that the directory can tell from `f`. -/
def Call.Apart (f : List UInt8) (c' c'' : Call bs) : Prop :=
  c' = c'' ∨ nameKey fsNameLen c'.name ≠ nameKey fsNameLen f

private theorem perform_alike {c' c'' : Call bs} {fuel : Nat} {r r' : Answer} (h : Alike f s t n free file)
    (hfuel : fsNblocks ≤ fuel) (hname : IsName c'.name) (hcareful : c'.Careful f s) (hsame : c'.SameBut f c'')
    (hapart : c'.Apart f c'') (hs : perform fuel s c' = some (r, s')) (ht : perform fuel t c'' = some (r', t')) :
    ∃ n' free' file', Alike f s' t' n' free' file' := by
  rcases hsame with rfl | ⟨name, buffer, buffer', size, offset, now, stack, -, rfl, rfl⟩
  · cases c' with
    | create name m now =>
      obtain ⟨x, hd, he⟩ := Option.map_eq_some_iff.1 hs
      obtain ⟨y, hd', he'⟩ := Option.map_eq_some_iff.1 ht
      cases he
      cases he'
      exact h.create hname hd hd'
    | write name buffer size offset now stack =>
      obtain ⟨x, hd, he⟩ := Option.map_eq_some_iff.1 hs
      obtain ⟨y, hd', he'⟩ := Option.map_eq_some_iff.1 ht
      cases he
      cases he'
      exact h.write hcareful.1 hcareful.2 (fun _ => rfl) hd hd'
    | truncate name now =>
      obtain ⟨x, hd, he⟩ := Option.map_eq_some_iff.1 hs
      obtain ⟨y, hd', he'⟩ := Option.map_eq_some_iff.1 ht
      cases he
      cases he'
      exact h.truncate hfuel hd hd'
    | unlink name now =>
      obtain ⟨x, hd, he⟩ := Option.map_eq_some_iff.1 hs
      obtain ⟨y, hd', he'⟩ := Option.map_eq_some_iff.1 ht
      cases he
      cases he'
      exact h.unlink hfuel hd hd'
    | read name size offset stack =>
      obtain ⟨x, hd, he⟩ := Option.map_eq_some_iff.1 hs
      obtain ⟨y, hd', he'⟩ := Option.map_eq_some_iff.1 ht
      cases he
      cases he'
      have hs' := doRead_state hd
      have ht' := doRead_state hd'
      exact ⟨n, free, file, h.of_same (fun id _ => by rw [hs']; rfl) fun id _ => by rw [ht']; rfl⟩
  · obtain ⟨x, hd, he⟩ := Option.map_eq_some_iff.1 hs
    obtain ⟨y, hd', he'⟩ := Option.map_eq_some_iff.1 ht
    cases he
    cases he'
    refine h.write hcareful.1 hcareful.2 (fun hkey => ?_) hd hd'
    rcases hapart with he | hne
    · cases he
      rfl
    · exact absurd hkey hne

/-- Two runs of the same calls that differ in the bytes written to other files than `f`: every read of `f` returns the
same count in both, and the same bytes below the size of the file.  The writes to `f` leave no gap, no write strands a
block, and the bytes differ only for files that the directory can tell from `f`. -/
theorem read_isolated {s₀ : Fs bs δ} {cs cs' : List (Call bs)} {rs rs' : List Answer} {fuel : Nat}
    (h : SoundAt bs (diskMap s₀.disk) (diskDir s₀.disk) n free file) (hfuel : fsNblocks ≤ fuel)
    (hnames : ∀ c' ∈ cs, IsName c'.name)
    (hpair : List.Forall₂ (fun c' c'' => c'.SameBut f c'' ∧ c'.Apart f c'') cs cs')
    (hcareful : ∀ l c' l' ws s₁, cs = l ++ c' :: l' → run (perform fuel) s₀ l = some (ws, s₁) → c'.Careful f s₁)
    (hrun : run (perform fuel) s₀ cs = some (rs, s)) (hrun' : run (perform fuel) s₀ cs' = some (rs', t)) :
    ∀ l size offset stack l', cs = l ++ .read f size offset stack :: l' → 0 ≤ offset.toInt →
      ∃ ws s₁ r r', run (perform fuel) s₀ l = some (ws, s₁) ∧ rs[l.length]? = some r ∧ rs'[l.length]? = some r' ∧
        r'.ret = r.ret ∧ ∀ i k, lookup s₁.disk f = some i →
          offset.toInt.toNat + k < (diskDir s₁.disk i).sizeBytes → r'.bytes[k]? = r.bytes[k]? := by
  rintro l size offset stack l' rfl hoff
  obtain ⟨s₁, ws, ws', hl, hrest, rfl⟩ := run_append.1 hrun
  obtain ⟨b, s₂, ws₂, hs, -, rfl⟩ := run_cons.1 hrest
  -- the second run is split at the same place
  have hpairl := List.forall₂_take l.length hpair
  have hpairr := List.forall₂_drop l.length hpair
  rw [List.take_left] at hpairl
  rw [List.drop_left] at hpairr
  rw [← List.take_append_drop l.length cs'] at hrun'
  obtain ⟨t₁, us, us', hl', hrest', rfl⟩ := run_append.1 hrun'
  have hlen : us.length = l.length := by
    rw [run_length hl', ← hpairl.length_eq]
  generalize cs'.drop l.length = m at hpairr hrest'
  cases hpairr with
  | @cons _ c'' _ m hc _ =>
    obtain ⟨b', t₂, us₂, ht, -, rfl⟩ := run_cons.1 hrest'
    have hc'' : c'' = .read f size offset stack := by
      rcases hc.1 with he | ⟨_, _, _, _, _, _, _, _, he, -⟩
      · exact he.symm
      · cases he
    subst hc''
    have hok : ∀ x ∈ l, IsName x.name := fun x hx => hnames x (List.mem_append_left _ hx)
    obtain ⟨n', free', file', halike⟩ := run_related
      (R := fun s t => ∃ n free file, Alike f s t n free file)
      (C := fun s c' => IsName c'.name ∧ c'.Careful f s)
      (fun s t c' c'' b b' s' t' ⟨n, free, file, hR⟩ hok hp hs ht =>
        perform_alike hR hfuel hok.1 hok.2 hp.1 hp.2 hs ht)
      ⟨n, free, file, h, h, rfl, fun _ _ _ _ _ _ _ _ => rfl⟩
      (fun k x k' bs₁ s' he hk => ⟨hok x (by rw [he]; simp),
        hcareful k x (k' ++ .read f size offset stack :: l') bs₁ s' (by rw [he]; simp) hk⟩)
      hpairl hl hl'
    obtain ⟨x, hd, he⟩ := Option.map_eq_some_iff.1 hs
    obtain ⟨y, hd', he'⟩ := Option.map_eq_some_iff.1 ht
    cases he
    cases he'
    obtain ⟨hret, hbytes⟩ := Alike.read halike hoff hd hd'
    refine ⟨ws, s₁, ⟨x.1, x.2.1⟩, ⟨y.1, y.2.1⟩, hl, ?_, ?_, hret, hbytes⟩
    · rw [← run_length hl, List.getElem?_append_right (Nat.le_refl _), Nat.sub_self]
      rfl
    · rw [← hlen, List.getElem?_append_right (Nat.le_refl _), Nat.sub_self]
      rfl

omit [LawfulRawDisk bs δ] in
/-- A write at the start of its file is careful. -/
private theorem careful_of_start (f name : List UInt8) (s : Fs bs δ) (buffer : Nat → UInt8) (size now : UInt64)
    (stack : Block bs) : (Call.write name buffer size 0 now stack).Careful f s := by
  have hzero : blkoffs bs 0 = 0 := by
    rw [blkoffs_eq (by decide)]
    simp
  refine ⟨?_, fun _ i _ _ => ⟨by decide, Or.inl ?_⟩⟩
  · rintro ⟨n, free, file, i, -, -, -, -, hne, hle⟩
    rw [hzero] at hle
    exact hne (List.eq_nil_of_length_eq_zero (Nat.le_zero.1 hle))
  · exact Nat.zero_le _

end Disk

/-! ### A file after another one -/

/-- The file b gets the byte `v` and is unlinked; then the byte 9 is written to the file a at `offset`, and two bytes
of a are read. -/
def afterOther (v : UInt8) (offset : Int64) : List (Call 512) :=
  [.create [98] 0o644 0, .write [98] (fun _ => v) 1 0 0 fun _ => 0, .unlink [98] 0, .create [97] 0o644 0,
    .write [97] (fun _ => 9) 1 offset 0 fun _ => 0, .read [97] 2 0 fun _ => 0]

private theorem afterOther_pair (v v' : UInt8) (offset : Int64) : List.Forall₂
    (fun c' c'' : Call 512 => c'.SameBut [97] c'' ∧ c'.Apart [97] c'')
    (afterOther v offset) (afterOther v' offset) := by
  have hkey : nameKey fsNameLen [98] ≠ nameKey fsNameLen [97] := by decide
  refine .cons ⟨Or.inl rfl, Or.inl rfl⟩ (.cons ⟨Or.inr ?_, Or.inr hkey⟩ (.cons ⟨Or.inl rfl, Or.inl rfl⟩
    (.cons ⟨Or.inl rfl, Or.inl rfl⟩ (.cons ⟨Or.inl rfl, Or.inl rfl⟩ (.cons ⟨Or.inl rfl, Or.inl rfl⟩ .nil)))))
  exact ⟨[98], fun _ => v, fun _ => v', 1, 0, 0, fun _ => 0, by decide, rfl, rfl⟩

theorem read_isolated_start :
    ∃ rs s rs' s', run (perform fsNblocks) mounted (afterOther 5 0) = some (rs, s) ∧
      run (perform fsNblocks) mounted (afterOther 6 0) = some (rs', s') ∧
      ∃ r r', rs[5]? = some r ∧ rs'[5]? = some r' ∧ r'.ret = r.ret := by
  have hsome : (run (perform fsNblocks) mounted (afterOther 5 0)).isSome = true := by decide
  have hsome' : (run (perform fsNblocks) mounted (afterOther 6 0)).isSome = true := by decide
  obtain ⟨⟨rs, s⟩, hrun⟩ := Option.isSome_iff_exists.1 hsome
  obtain ⟨⟨rs', s'⟩, hrun'⟩ := Option.isSome_iff_exists.1 hsome'
  have hcareful : ∀ c' ∈ afterOther 5 0, ∀ s : Fs 512 (RamDisk 512), c'.Careful [97] s := by
    intro c' hc s
    simp only [afterOther, List.mem_cons, List.not_mem_nil, or_false] at hc
    rcases hc with rfl | rfl | rfl | rfl | rfl | rfl
    · trivial
    · exact careful_of_start ..
    · trivial
    · trivial
    · exact careful_of_start ..
    · trivial
  obtain ⟨-, -, r, r', -, hr, hr', hret, -⟩ := read_isolated wellFormedAt_mounted.sound (Nat.le_refl _) (by decide)
    (afterOther_pair 5 6 0) (fun l c' l' _ s₁ he _ => hcareful c' (by rw [he]; simp) s₁) hrun hrun'
    ((afterOther 5 0).take 5) 2 0 (fun _ => 0) [] rfl (by decide)
  exact ⟨rs, s, rs', s', hrun, hrun', r, r', hr, hr', hret⟩

/-- When a is first written at position 1, the read returns the byte that was written to b. -/
private theorem afterOther_exposed (v : UInt8) :
    ∃ s s' bytes, run (perform fsNblocks) mounted ((afterOther v 1).take 5) =
        some ([⟨0, []⟩, ⟨1, []⟩, ⟨0, []⟩, ⟨0, []⟩, ⟨1, []⟩], s) ∧
      lookup s.disk [97] = some 0 ∧ (diskDir s.disk 0).sizeBytes = 2 ∧
      perform fsNblocks s (.read [97] 2 0 fun _ => 0) = some (⟨2, bytes⟩, s') ∧ bytes[0]? = some v := by
  obtain ⟨s₁, hs₁, hdir₁, -, h₁, -⟩ := doCreate_spec 0o644 0 wellFormedAt_mounted (by decide)
    (show nameKey fsNameLen (pathOf [98]).tail ≠ [] by decide) fun i hi => absurd hi (Nat.not_lt_zero i)
  have hname₁ : HasName (diskDir s₁.disk 0) (pathOf [98]).tail := by
    rw [hdir₁, Function.update_self]
    exact newEntry_hasName _ _ _
  have hgrow₁ : (diskDir s₁.disk 0).sizeBytes < endOffset 1 0 := by
    rw [hdir₁, Function.update_self]
    decide
  have hk₁ : (Function.update (fun _ => []) 0 [] 0 ++ List.range' 2 8)[blkoffs 512 0]? = some 2 := by decide
  obtain ⟨s₂, hs₂, hw₂, -⟩ := doWrite_done (fun _ => v) 0 (fun _ => 0) h₁ Nat.one_pos hname₁ (Or.inr hgrow₁) hk₁
    (by decide)
  have hname₂ : HasName (diskDir s₂.disk 0) (pathOf [98]).tail := by
    rw [hw₂.dir, Function.update_self, HasName, DirEntry.written_name]
    exact hname₁
  obtain ⟨s₃, hs₃, hr₃⟩ := doUnlink_spec 0 hw₂.wellFormed Nat.one_pos hname₂ (Nat.le_refl fsNblocks)
  obtain ⟨s₄, hs₄, hdir₄, -, h₄, hdata₄⟩ := doCreate_spec 0o644 0 hr₃.wellFormed (by decide)
    (show nameKey fsNameLen (pathOf [97]).tail ≠ [] by decide) fun i hi => absurd hi (Nat.not_lt_zero i)
  have hname₄ : HasName (diskDir s₄.disk 0) (pathOf [97]).tail := by
    rw [hdir₄]
    exact newEntry_hasName [97] 0o644 0
  have hgrow₄ : (diskDir s₄.disk 0).sizeBytes < endOffset 1 1 := by
    rw [hdir₄]
    exact (by decide : 0 < endOffset 1 1)
  obtain ⟨s₅, hs₅, hw₅, -⟩ := doWrite_done (fun _ => 9) 0 (fun _ => 0) h₄ Nat.one_pos hname₄ (Or.inr hgrow₄)
    (show _ = some 2 by rfl) (by decide)
  -- the block of b, with its byte, is the first block of a
  have hdata : DataBlock 2 := ⟨by decide, by decide⟩
  have hbyte : (diskBlock s₅.disk 2).byte 0 = v := by
    rw [hw₅.block, byte_overwrite _ (by decide), if_neg (by decide), hdata₄ 2 hdata, hr₃.data 2 hdata, hw₂.block,
      byte_overwrite _ (by decide), if_pos (by decide)]
  have hl : lookup s₅.disk (pathOf [97]).tail = some 0 := by
    refine hw₅.wellFormed.lookup_eq_some.2 ⟨Nat.one_pos, ?_⟩
    rw [hw₅.dir, Function.update_self, HasName, DirEntry.written_name]
    exact hname₄
  have hsize : (diskDir s₅.disk 0).sizeBytes = 2 := by
    rw [hw₅.dir, Function.update_self, DirEntry.written, if_pos hgrow₄]
    exact (by decide : endOffset 1 1 = 2)
  obtain ⟨bytes, s₆, hread, hbytes⟩ := doRead_spec 2 0 hw₅.wellFormed hl (by decide) fun _ => 0
  refine ⟨s₅, s₆, bytes, ?_, hl, hsize, ?_, hbytes 0 v (by decide) ?_⟩
  · have hone : asInt (1 : UInt64).toNat = 1 := by decide
    simp only [afterOther, List.take, run, perform, hs₁, hs₂, hs₃, hs₄, hs₅, Option.map_some, hone]
  · rw [perform, hread]
    exact congrArg some rfl
  · exact congrArg some hbyte

/-- Two runs that write different bytes to b read different bytes from a, at a position below its size. -/
theorem not_read_isolated :
    List.Forall₂ (Call.SameBut [97]) (afterOther 5 1) (afterOther 6 1) ∧
      ∃ rs s t rs' s' t' r r', run (perform fsNblocks) mounted ((afterOther 5 1).take 5) = some (rs, s) ∧
        run (perform fsNblocks) mounted ((afterOther 6 1).take 5) = some (rs', s') ∧
        lookup s.disk [97] = some 0 ∧ (diskDir s.disk 0).sizeBytes = 2 ∧
        perform fsNblocks s (.read [97] 2 0 fun _ => 0) = some (r, t) ∧
        perform fsNblocks s' (.read [97] 2 0 fun _ => 0) = some (r', t') ∧
        r.bytes[0]? = some 5 ∧ r'.bytes[0]? = some 6 := by
  obtain ⟨s, t, bytes, hrun, hl, hsize, hread, hbyte⟩ := afterOther_exposed 5
  obtain ⟨s', t', bytes', hrun', -, -, hread', hbyte'⟩ := afterOther_exposed 6
  exact ⟨(afterOther_pair 5 6 1).imp fun _ _ h => h.1, _, s, t, _, s', t', _, _, hrun, hrun', hl, hsize, hread, hread',
    hbyte, hbyte'⟩

end Edaf35.Ssfs
