import Edaf35.Ssfs.Refinement

/-!
# What is left when the program is stopped

A request writes its blocks one after the other, so a program that is stopped in a request leaves a disk with the first
few of them.  `Logged` is a disk that remembers what was written to it.  Most requests leave a disk that holds files
wherever they are stopped.  The exceptions are the ones that give the blocks of a file back, since `do_truncate` saves
the block map before the directory, and the ones that allocate the first block of a file, since `do_write` saves the
directory before the block map: in between the first block of the file is also free (`crash_iff`).
-/

namespace Edaf35.Ssfs

variable {bs : Nat} {δ : Type}

/-! ### Disks that remember what was written -/

/-- A disk and the blocks written to it. -/
structure Logged (bs : Nat) (δ : Type) where
  disk : δ
  log : List (Nat × Block bs)

section Logged

variable [RawDisk bs δ]

instance : RawDisk bs (Logged bs δ) where
  readBlock d id buf := readBlock d.disk id buf
  writeBlock d id b := ⟨writeBlock d.disk id b, d.log ++ [(id, b)]⟩

instance [LawfulRawDisk bs δ] : LawfulRawDisk bs (Logged bs δ) where
  blockSize_pos := LawfulRawDisk.blockSize_pos (δ := δ)
  blockSize_lt := LawfulRawDisk.blockSize_lt (δ := δ)
  read_whole d id buf buf' h := LawfulRawDisk.read_whole d.disk id buf buf' h
  read_write_same d id b buf h := LawfulRawDisk.read_write_same d.disk id b buf h
  read_write_other d id id' b buf h hne := LawfulRawDisk.read_write_other d.disk id id' b buf h hne

/-- The program with a disk that remembers what is written from here on. -/
def logged (s : Fs bs δ) : Fs bs (Logged bs δ) := ⟨⟨s.disk, []⟩, s.bdir, s.bmap⟩

/-- The disk after the writes of a log. -/
def image (d : δ) (log : List (Nat × Block bs)) : δ := log.foldl (fun d w => writeBlock d w.1 w.2) d

/-- The disk holds some files. -/
def Consistent (d : δ) : Prop := ∃ n free file, SoundAt bs (diskMap d) (diskDir d) n free file

variable {d d' : δ} {log log' : List (Nat × Block bs)} {σ : Store bs} {n i : Nat} {free : List Nat}
  {file : Nat → List Nat}

private theorem HoldsFiles.consistent (h : HoldsFiles d σ) : Consistent d := by
  obtain ⟨n, free, file, h⟩ := h
  exact ⟨n, free, file, h.sound⟩

private theorem Consistent.exists_holdsFiles (h : Consistent d) : ∃ σ, HoldsFiles d σ := by
  obtain ⟨n, free, file, h⟩ := h
  exact ⟨⟨_, _⟩, n, free, file, h, rfl, rfl⟩

private theorem Consistent.congr (h : Consistent d) (hmap : diskMap d' = diskMap d) (hdir : diskDir d' = diskDir d) :
    Consistent d' := by
  obtain ⟨n, free, file, h⟩ := h
  exact ⟨n, free, file, by rw [hmap, hdir]; exact h⟩

/-- A disk on which the first block of a file is free. -/
theorem not_consistent (hslots : Slots bs (diskDir d) n) (hi : i < n)
    (hfree : IsChain (diskMap d) 0 (diskMap d 0) free) (hmem : (diskDir d i).firstBlock ∈ free) : ¬Consistent d := by
  rintro ⟨n', free', file', h⟩
  obtain rfl := h.partition.freeChain.unique hfree
  have hi' : i < n' := by
    by_contra hle
    have hempty := h.slots.unused i (not_lt.1 hle) (Nat.lt_of_lt_of_le hi hslots.count_le)
    rw [hslots.used i hi] at hempty
    cases hempty
  have hne := (h.partition.free_data _ hmem).ne_eof
  obtain ⟨l, hl, -⟩ := (h.partition.fileChain i hi').exists_cons hne
  exact h.partition.file_free i hi' _ (by rw [hl]; exact List.mem_cons_self) hmem

/-- Wherever the log is cut off, the disk holds files. -/
def Survives (d : δ) (log : List (Nat × Block bs)) : Prop := ∀ j, Consistent (image d (log.take j))

private theorem survives_nil : Survives d ([] : List (Nat × Block bs)) ↔ Consistent d := by
  constructor
  · intro h
    exact h 0
  · intro h j
    rw [List.take_nil]
    exact h

private theorem survives_cons {w : Nat × Block bs} :
    Survives d (w :: log) ↔ Consistent d ∧ Survives (writeBlock d w.1 w.2) log := by
  constructor
  · intro h
    exact ⟨h 0, fun j => h (j + 1)⟩
  · rintro ⟨h₀, h⟩ j
    cases j with
    | zero => exact h₀
    | succ j => exact h j

private theorem survives_snoc {w : Nat × Block bs} :
    Survives d (log ++ [w]) ↔ Survives d log ∧ Consistent (image d (log ++ [w])) := by
  induction log generalizing d with
  | nil =>
    rw [List.nil_append, survives_cons, survives_nil, survives_nil]
    rfl
  | cons w' log ih =>
    rw [List.cons_append, survives_cons, survives_cons, ih, and_assoc]
    rfl

private theorem image_snoc (d : δ) (log : List (Nat × Block bs)) (w : Nat × Block bs) :
    image d (log ++ [w]) = writeBlock (image d log) w.1 w.2 := List.foldl_concat ..

private theorem image_logged (d : δ) (log log' : List (Nat × Block bs)) :
    image (⟨d, log'⟩ : Logged bs δ) log = ⟨image d log, log' ++ log⟩ := by
  induction log generalizing d log' with
  | nil => rw [List.append_nil]; rfl
  | cons w log ih =>
    refine (ih (writeBlock d w.1 w.2) (log' ++ [(w.1, w.2)])).trans ?_
    rw [List.append_assoc]
    rfl

/-- A disk that remembers what is written to it holds the same files. -/
private theorem survives_logged (s : Fs bs δ) (log : List (Nat × Block bs)) :
    Survives (logged s).disk log ↔ Survives s.disk log := by
  refine forall_congr' fun j => ?_
  rw [logged, image_logged]
  rfl

/-- The writes that lead from `d` to `d'` can be cut off anywhere exactly if `P`. -/
def Writes (d d' : δ) (P : Prop) : Prop := ∃ log : List (Nat × Block bs), d' = image d log ∧ (Survives d log ↔ P)

private theorem Writes.refl (h : Consistent d) : Writes d d True :=
  ⟨[], rfl, iff_of_true (survives_nil.2 h) trivial⟩

/-- One more write, that leaves a disk with files. -/
private theorem Writes.snoc {P : Prop} {id : Nat} {b : Block bs} (h : Writes d d' P)
    (h' : P → Consistent (writeBlock d' id b)) : Writes d (writeBlock d' id b) P := by
  obtain ⟨log, rfl, hlog⟩ := h
  rw [← image_snoc d log (id, b)] at h' ⊢
  exact ⟨log ++ [(id, b)], rfl, survives_snoc.trans ((and_congr_left' hlog).trans (and_iff_left_of_imp h'))⟩

private theorem Writes.congr {P Q : Prop} (h : Writes d d' P) (hPQ : P ↔ Q) : Writes d d' Q := by
  obtain ⟨log, hd, hlog⟩ := h
  exact ⟨log, hd, hlog.trans hPQ⟩

end Logged

/-! ### Requests that give blocks back -/

section Requests

variable [RawDisk bs δ] [LawfulRawDisk bs δ] {s : Fs bs δ} {n i : Nat} {free : List Nat} {file : Nat → List Nat}
  {path : List UInt8} {fuel : Nat} {now : UInt64}

/-- `do_truncate` may be stopped anywhere exactly if the file has no blocks. -/
private theorem doTruncate_survives (now : UInt64) (h : SoundAt bs (diskMap s.disk) (diskDir s.disk) n free file)
    (hfind : findDirEntry (diskBlock s.disk rootdirBid) path.tail = some i) (hfuel : fsNblocks ≤ fuel) :
    ∃ s', doTruncate fuel s path now = some (0, s') ∧ TruncatedAt s n free file i now s' ∧
      Writes s.disk s'.disk (file i = []) := by
  obtain ⟨s', hs', ht⟩ := doTruncate_sound now h hfind hfuel
  have hi := (h.of_findDirEntry hfind).1
  obtain ⟨s₁, hcall, ⟨map, dir, hwrite⟩, -, -, hfree, hlinks⟩ := doTruncate_writes now h.mapHolds
    (Nat.lt_of_lt_of_le hi h.slots.count_le) hfind (h.partition.fileChain i hi) h.partition.freeChain
    (h.partition.file_data i hi) (h.partition.file_free i hi)
  have hlen := h.partition.length_lt hi
  have hsame := hs'
  rw [hcall, if_pos (by omega)] at hsame
  cases hsame
  refine ⟨s', hs', ht, ?_⟩
  obtain ⟨d₁, hd₁⟩ : ∃ d₁, d₁ = writeBlock s.disk blkmapBid map := ⟨_, rfl⟩
  have hmap : diskMap d₁ = diskMap s'.disk := by
    refine congrArg Block.ids ?_
    rw [hwrite, ← hd₁]
    exact (diskBlock_write_other _ (by decide) (by decide) _).symm
  have hdir : diskDir d₁ = diskDir s.disk := by
    refine congrArg Block.entry ?_
    rw [hd₁, diskBlock_write_other _ (by decide) (by decide)]
  have hbetween : Consistent d₁ ↔ file i = [] := by
    constructor
    · intro hc
      by_contra hne
      obtain ⟨a, l, hal⟩ := List.exists_cons_of_ne_nil hne
      have hchain := h.partition.fileChain i hi
      rw [hal] at hchain
      refine not_consistent (by rw [hdir]; exact h.slots) hi (by rw [hmap]; exact hfree) ?_ hc
      rw [hdir, hchain.head_eq, hal]
      simp
    · intro hnil
      have hfirst : (diskDir s.disk i).firstBlock = eofBlock := by
        have hchain := h.partition.fileChain i hi
        rwa [hnil] at hchain
      have hp := h.partition.release hi hfree hlinks
      rw [hnil, List.reverse_nil, List.nil_append, ← hfirst, Function.update_eq_self, ← hnil,
        Function.update_eq_self] at hp
      refine ⟨n, free, file, h.mapHolds, by rw [hdir]; exact h.slots, ?_, by rw [hdir]; exact h.hasBlock⟩
      rw [hdir, hmap]
      exact hp
  have hfirst : Writes s.disk d₁ (file i = []) := by
    refine ⟨[(blkmapBid, map)], hd₁, ?_⟩
    rw [survives_cons, survives_nil, ← hd₁, hbetween]
    exact and_iff_right ⟨n, free, file, h⟩
  rw [hwrite, ← hd₁]
  exact hfirst.snoc fun _ => by rw [hd₁, ← hwrite]; exact ⟨n, _, _, ht.sound⟩

/-- So may `do_unlink`. -/
private theorem doUnlink_survives (now : UInt64) (h : SoundAt bs (diskMap s.disk) (diskDir s.disk) n free file)
    (hfind : findDirEntry (diskBlock s.disk rootdirBid) path.tail = some i) (hfuel : fsNblocks ≤ fuel) :
    ∃ s', doUnlink fuel s path now = some (0, s') ∧ Writes s.disk s'.disk (file i = []) := by
  obtain ⟨s', hs', hr⟩ := doUnlink_sound now h hfind hfuel
  have hload : (loadDirectory s).disk = s.disk := rfl
  obtain ⟨s₁, hs₁, -, hw⟩ := doTruncate_survives (s := loadDirectory s) now (by rw [hload]; exact h)
    (by rw [hload]; exact hfind) hfuel
  refine ⟨s', hs', ?_⟩
  have hfound := hs'
  unfold doUnlink at hfound
  simp only [loadDirectory_bdir, hfind, hs₁, Option.bind_eq_bind, Option.bind_some, Option.pure_def, Option.some.injEq,
    Prod.mk.injEq, true_and] at hfound
  have hc : Consistent s'.disk := ⟨n - 1, _, _, hr.sound⟩
  rw [← hfound] at hc ⊢
  exact hw.snoc fun _ => hc

/-! ### Requests that allocate blocks -/

omit [LawfulRawDisk bs δ] in
private theorem growFile_writes {s s' : Fs bs δ} {di newSize : Nat} {b : Bool}
    (h : growFile s di newSize now = some (b, s')) :
    s'.disk = s.disk ∨ ∃ dir, s'.disk = writeBlock s.disk rootdirBid dir := by
  unfold growFile at h
  by_cases hgrow : newSize > (s.bdir.entry di).sizeBytes
  · rw [if_pos hgrow] at h
    by_cases hempty : (s.bdir.entry di).firstBlock = eofBlock
    · simp only [if_pos hempty, Option.bind_eq_bind, Option.pure_def, Option.bind_some] at h
      obtain ⟨⟨bid, bmap⟩, -, hx⟩ := Option.bind_eq_some_iff.1 h
      split at hx
      · cases hx
        exact Or.inr ⟨_, rfl⟩
      · cases hx
        exact Or.inl rfl
    · simp only [if_neg hempty, Option.bind_eq_bind, Option.pure_def, Option.bind_some, if_true] at h
      cases h
      exact Or.inr ⟨_, rfl⟩
  · rw [if_neg hgrow] at h
    cases h
    exact Or.inl rfl

/-- The growth of a file may be stopped anywhere exactly if the file has blocks. -/
private theorem growFile_survives {newSize a : Nat} {l : List Nat} (now : UInt64)
    (h : SoundAt bs (diskMap s.disk) (diskDir s.disk) n free file) (hi : i < n) (hnew : newSize < 2 ^ 64)
    (ha : file i ++ free = a :: l) (hc : file i ≠ [] ∨ (diskDir s.disk i).sizeBytes < newSize) :
    ∃ s', growFile (loadBlockmap (loadDirectory s)) i newSize now = some (true, s') ∧
      Grown s n i free file ((diskDir s.disk i).written newSize a now) s' ∧
      (file i ≠ [] → Consistent s'.disk) ∧ Writes s.disk s'.disk (file i ≠ []) := by
  obtain ⟨s', hs', hg, -⟩ := growFile_spec now h hi hnew ha hc
  have hmap : diskMap s'.disk = diskMap s.disk := congrArg Block.ids (hg.blocks _ (by decide) (by decide))
  have hiff : Consistent s'.disk ↔ file i ≠ [] := by
    constructor
    · intro hcons hnil
      have hgrow := hc.resolve_left (not_not.2 hnil)
      rw [hnil, List.nil_append] at ha
      refine not_consistent (n := n) (i := i) ?_ hi (by rw [hmap]; exact h.partition.freeChain) ?_ hcons
      · rw [hg.dir]
        exact h.slots.setEntry (DirEntry.written_name ..)
      · rw [hg.dir, Function.update_self, DirEntry.written_firstBlock _ _ fun hno => absurd hgrow hno, ha]
        exact List.mem_cons_self
    · intro hne
      obtain ⟨a', l', hal⟩ := List.exists_cons_of_ne_nil hne
      obtain rfl : a' = a := by
        rw [hal, List.cons_append] at ha
        exact (List.cons.inj ha).1
      exact ⟨n, free, file, h.resized hi hal hg.dir hmap⟩
  refine ⟨s', hs', hg, hiff.2, ?_⟩
  have hstart : Consistent s.disk := ⟨n, free, file, h⟩
  rcases growFile_writes hs' with hdisk | ⟨dir, hdir⟩
  · have hdisk' : s'.disk = s.disk := hdisk
    rw [hdisk'] at hiff ⊢
    exact (Writes.refl hstart).congr (iff_of_true trivial (hiff.1 hstart))
  · have hdir' : s'.disk = writeBlock s.disk rootdirBid dir := hdir
    rw [hdir'] at hiff ⊢
    refine ⟨[(rootdirBid, dir)], rfl, ?_⟩
    rw [survives_cons, survives_nil, hiff]
    exact and_iff_right hstart

section Write

variable {buffer : Nat → UInt8} {size : UInt64} {offset : Int64} {stack : Block bs}

/-- A write that reaches its block may be stopped anywhere exactly if the file has blocks. -/
private theorem doWrite_done_survives {blk : Nat} {r : Int} {s' : Fs bs δ}
    (h : SoundAt bs (diskMap s.disk) (diskDir s.disk) n free file)
    (hfind : findDirEntry (diskBlock s.disk rootdirBid) path.tail = some i)
    (hc : file i ≠ [] ∨ (diskDir s.disk i).sizeBytes < endOffset size offset)
    (hk : (file i ++ free)[blkoffs bs offset]? = some blk) (hfit : byteoffs bs offset + crtsize bs size offset ≤ bs)
    (hw : doWrite s path buffer size offset now stack = some (r, s')) (hend : Consistent s'.disk) :
    Writes s.disk s'.disk (file i ≠ []) := by
  have hi := (h.of_findDirEntry hfind).1
  have hdata : DataBlock blk := h.partition.data_of_mem hi (List.mem_of_getElem? hk)
  have hne : file i ++ free ≠ [] := by
    intro hno
    rw [hno] at hk
    cases hk
  obtain ⟨a, l, hal⟩ := List.exists_cons_of_ne_nil hne
  obtain ⟨s₁, hgrow, hg, hcons, hwrites⟩ := growFile_survives now h hi (endOffset_lt size offset) hal hc
  obtain ⟨b', hnav, -⟩ := hg.navigate h.mapHolds hi hk
  rw [← loadDirectory_bdir] at hfind
  unfold doWrite at hw
  simp only [hfind, Option.bind_eq_bind, hgrow, Option.bind_some, Bool.not_true, Bool.false_eq_true, if_false, hnav,
    memcpyBlock, if_pos hfit, Option.pure_def, Option.some.injEq, Prod.mk.injEq] at hw
  rw [← hw.2] at hend ⊢
  refine (hwrites.snoc fun hfile => ?_).snoc fun _ => hend
  refine (hcons hfile).congr (congrArg Block.ids ?_) (congrArg Block.entry ?_)
  · exact diskBlock_write_other _ (by decide) hdata.ne_blkmap.symm _
  · exact diskBlock_write_other _ (by decide) hdata.ne_rootdir.symm _

/-- So may a write that runs out of blocks on the way. -/
private theorem doWrite_full_survives {r : Int} {s' : Fs bs δ}
    (h : SoundAt bs (diskMap s.disk) (diskDir s.disk) n free file)
    (hfind : findDirEntry (diskBlock s.disk rootdirBid) path.tail = some i)
    (hc : file i ≠ [] ∨ (diskDir s.disk i).sizeBytes < endOffset size offset) (hne : file i ++ free ≠ [])
    (hk : (file i ++ free).length ≤ blkoffs bs offset)
    (hw : doWrite s path buffer size offset now stack = some (r, s')) :
    Writes s.disk s'.disk (file i ≠ []) := by
  have hi := (h.of_findDirEntry hfind).1
  obtain ⟨a, l, hal⟩ := List.exists_cons_of_ne_nil hne
  obtain ⟨s₁, hgrow, hg, -, hwrites⟩ := growFile_survives now h hi (endOffset_lt size offset) hal hc
  obtain ⟨b', hnav⟩ := hg.navigate_full h.mapHolds hi hne hk
  rw [← loadDirectory_bdir] at hfind
  unfold doWrite at hw
  simp only [hfind, Option.bind_eq_bind, hgrow, Option.bind_some, Bool.not_true, Bool.false_eq_true, if_false, hnav,
    Option.pure_def, Option.some.injEq, Prod.mk.injEq] at hw
  rw [← hw.2]
  exact hwrites

end Write

end Requests

/-! ### The requests that may not be stopped -/

/-- The name has a file with data. -/
def Store.HasData (σ : Store bs) (name : List UInt8) : Prop := ∃ i f, σ.find name = some (i, f) ∧ f.blocks ≠ []

/-- The request gives the blocks of a file back or allocates the first block of a file. -/
def Request.Exposed (σ : Store bs) : Request bs → Prop
  | .call (.truncate name _) => σ.HasData name
  | .call (.unlink name _) => σ.HasData name
  | .call (.write name _ size offset _ _) =>
    ∃ i f, σ.find name = some (i, f) ∧ f.blocks = [] ∧ f.size < endOffset size offset ∧ σ.free ≠ []
  | .rename o nm _ _ => σ.find o ≠ none ∧ σ.HasData nm
  | _ => False

section Runs

variable [RawDisk bs δ] [LawfulRawDisk bs δ] {s : Fs bs δ} {σ σ' : Store bs} {n : Nat} {free : List Nat}
  {file : Nat → List Nat} {fuel : Nat} {name : List UInt8}

omit [LawfulRawDisk bs δ] in
/-- A file has data if it has blocks. -/
private theorem Represents.hasData_iff (h : Represents s.disk σ n free file) (hname : IsName name) :
    (σ.find name = none ∧ findDirEntry (diskBlock s.disk rootdirBid) name = none ∧ ¬σ.HasData name) ∨
      ∃ i, findDirEntry (diskBlock s.disk rootdirBid) name = some i ∧ σ.find name ≠ none ∧
        (σ.HasData name ↔ file i ≠ []) := by
  rcases h.find hname with ⟨hf, hσ⟩ | ⟨i, hi, hf, hσ⟩
  · refine Or.inl ⟨hσ, hf, ?_⟩
    rintro ⟨j, f, hj, -⟩
    rw [hσ] at hj
    cases hj
  · refine Or.inr ⟨i, hf, by rw [hσ]; exact Option.some_ne_none _, ?_⟩
    unfold Store.HasData
    rw [hσ]
    constructor
    · rintro ⟨j, f, hj, hne⟩
      cases hj
      simpa using hne
    · intro hne
      exact ⟨i, _, rfl, by simpa using hne⟩

/-- A removal, of a file or of none. -/
private theorem Represents.unlink_survives {s' : Fs bs δ} {r : Int} (now : UInt64) (h : Represents s.disk σ n free file)
    (hfuel : fsNblocks ≤ fuel) (hname : IsName name) (hw : doUnlink fuel s (pathOf name) now = some (r, s')) :
    Writes s.disk s'.disk (¬σ.HasData name) := by
  rcases h.hasData_iff hname with ⟨-, hf, hno⟩ | ⟨i, hf, -, hiff⟩
  · obtain ⟨-, rfl⟩ := result_eq hw (doUnlink_none fuel hf)
    exact (Writes.refl ⟨n, free, file, h.sound⟩).congr (iff_of_true trivial hno)
  · obtain ⟨s₁, hs₁, hw₁⟩ := doUnlink_survives now h.sound (found_pathOf hf) hfuel
    obtain ⟨-, rfl⟩ := result_eq hw hs₁
    exact hw₁.congr (by rw [hiff, not_not])

private theorem Represents.rename_survives {s' : Fs bs δ} {r : Int} {o nm : List UInt8} {now now' : UInt64}
    (h : Represents s.disk σ n free file) (hfuel : fsNblocks ≤ fuel) (ho : IsName o) (hnm : IsName nm)
    (hw : doRename fuel s (pathOf o) (pathOf nm) now now' = some (r, s')) (hend : Consistent s'.disk) :
    Writes s.disk s'.disk (¬(σ.find o ≠ none ∧ σ.HasData nm)) := by
  unfold doRename at hw
  simp only [tail_pathOf, loadDirectory_bdir] at hw
  rcases h.find ho with ⟨hf, hσ⟩ | ⟨i, -, hf, hσ⟩
  · simp only [hf, Option.some.injEq, Prod.mk.injEq] at hw
    rw [← hw.2]
    refine (Writes.refl ⟨n, free, file, h.sound⟩).congr (iff_of_true trivial ?_)
    rintro ⟨hne, -⟩
    exact hne hσ
  · simp only [hf, Option.bind_eq_bind, Option.bind_eq_some_iff] at hw
    obtain ⟨⟨r₁, s₁⟩, hs₁, hw⟩ := hw
    have hload : Represents (loadDirectory s).disk σ n free file := h
    have hunlink := hload.unlink_survives now hfuel hnm hs₁
    simp only [Option.pure_def, Option.some.injEq, Prod.mk.injEq] at hw
    rw [← hw.2] at hend ⊢
    refine (hunlink.snoc fun _ => hend).congr (not_congr (and_iff_right ?_).symm)
    rw [hσ]
    exact Option.some_ne_none _

private theorem Represents.write_survives {s' : Fs bs δ} {r : Int} {buffer : Nat → UInt8} {size : UInt64}
    {offset : Int64} {now : UInt64} {stack : Block bs} (h : Represents s.disk σ n free file) (hname : IsName name)
    (hok : σ.write name buffer size offset now = some (r, σ'))
    (hw : doWrite s (pathOf name) buffer size offset now stack = some (r, s')) (hend : Consistent s'.disk) :
    Writes s.disk s'.disk (¬Request.Exposed σ (.call (.write name buffer size offset now stack))) := by
  have hbs : bs < 65536 := LawfulRawDisk.blockSize_lt (δ := δ)
  have hpos : 0 < bs := LawfulRawDisk.blockSize_pos (δ := δ)
  have hstart : Consistent s.disk := ⟨n, free, file, h.sound⟩
  unfold Request.Exposed
  by_cases hoff : offset.toInt < 0
  · rw [Store.write, if_pos hoff] at hok
    cases hok
  have hfit := fits_of_nonneg size hbs hpos (not_lt.1 hoff)
  rcases h.find hname with ⟨hf, hσ⟩ | ⟨i, hi, hf, hσ⟩
  · obtain ⟨-, rfl⟩ := result_eq hw (doWrite_none hf)
    refine (Writes.refl hstart).congr (iff_of_true trivial ?_)
    rintro ⟨j, f, hj, -⟩
    rw [hσ] at hj
    cases hj
  have hexp : (∃ j f, σ.find name = some (j, f) ∧ f.blocks = [] ∧ f.size < endOffset size offset ∧ σ.free ≠ []) ↔
      file i = [] ∧ (diskDir s.disk i).sizeBytes < endOffset size offset ∧ free ≠ [] := by
    rw [hσ, h.free]
    constructor
    · rintro ⟨j, f, hj, hnil, hgrow, hfree⟩
      cases hj
      exact ⟨by simpa using hnil, hgrow, by simpa using hfree⟩
    · rintro ⟨hnil, hgrow, hfree⟩
      exact ⟨i, _, rfl, by simpa using hnil, hgrow, by simpa using hfree⟩
  simp only [hexp]
  rcases write_cases (file i) free ((diskDir s.disk i).sizeBytes < endOffset size offset) (blkoffs bs offset) with
    ⟨hcf, hgrow⟩ | ⟨hnone, hgrow⟩ | ⟨hc, hne, hk⟩ | ⟨hc, blk, hk⟩
  · -- the write goes past the disk
    have hP : ¬(file i = [] ∧ (diskDir s.disk i).sizeBytes < endOffset size offset ∧ free ≠ []) :=
      fun hno => hgrow hno.2.1
    have hk : blkoffs bs offset = 0 := by
      by_contra hk
      simp only [Store.write, if_neg hoff, hσ, DirEntry.file_blocks, DirEntry.file_size, hcf, List.map_nil] at hok
      rw [if_pos ⟨trivial, hgrow⟩, if_neg hk] at hok
      cases hok
    have hfirst : (diskDir s.disk i).firstBlock = eofBlock := by
      have hchain := h.sound.partition.fileChain i hi
      rwa [hcf] at hchain
    obtain ⟨r', s₁, hs₁, b, map, hdisk⟩ :=
      doWrite_empty_returns buffer now stack (found_pathOf hf) hfirst hgrow hk hfit
    obtain ⟨-, rfl⟩ := result_eq hw hs₁
    rw [hdisk] at hend ⊢
    refine (((Writes.refl hstart).snoc fun _ => hstart.congr (congrArg Block.ids ?_) (congrArg Block.entry ?_)).snoc
      fun _ => hend).congr (iff_of_true trivial hP)
    · exact diskBlock_write_other _ (by decide) (by decide) _
    · exact diskBlock_write_other _ (by decide) (by decide) _
  · obtain ⟨s₁, hs₁, hdisk⟩ : ∃ s', doWrite s (pathOf name) buffer size offset now stack = some (-enospc, s') ∧
        s'.disk = s.disk := doWrite_noBlock_sound buffer now stack h.sound hf hnone hgrow
    obtain ⟨-, rfl⟩ := result_eq hw hs₁
    rw [hdisk]
    exact (Writes.refl hstart).congr
      (iff_of_true trivial fun hno => hno.2.2 (List.append_eq_nil_iff.1 hnone).2)
  · have hcf : file i ≠ [] := by
      -- an empty file would be left with a first block that is still free
      intro hcf
      have hgrow := hc.resolve_left (not_not.2 hcf)
      have hfree : σ.free ≠ [] := by
        rw [h.free]
        simpa [hcf] using hne
      have hlen : σ.free.length ≤ blkoffs bs offset := by
        rw [h.free, List.length_map]
        simpa [hcf] using hk
      simp only [Store.write, if_neg hoff, hσ, DirEntry.file_blocks, DirEntry.file_size, hcf, List.map_nil,
        List.nil_append] at hok
      rw [if_neg (fun hno => hno.2 hgrow), if_neg hfree, if_pos hlen, if_pos trivial] at hok
      cases hok
    refine (doWrite_full_survives h.sound (found_pathOf hf) hc hne hk hw).congr ?_
    exact iff_of_true hcf fun hno => hcf hno.1
  · refine (doWrite_done_survives h.sound (found_pathOf hf) hc hk hfit hw hend).congr (not_congr ?_)
    refine ⟨fun hcf => ⟨hcf, hc.resolve_left (not_not.2 hcf), ?_⟩, fun hno => hno.1⟩
    rintro rfl
    rw [hcf] at hk
    cases hk

/-- A request may be stopped anywhere exactly if it is not exposed. -/
theorem handle_survives {req : Request bs} {expected : Response} (h : HoldsFiles s.disk σ) (hfuel : fsNblocks ≤ fuel)
    (hnamed : req.Named) (hreq : σ.handle req = some (expected, σ')) :
    ∃ answer s', handle fuel s req = some (answer, s') ∧ HoldsFiles s'.disk σ' ∧
      Writes s.disk s'.disk (¬req.Exposed σ) := by
  obtain ⟨answer, s', hs', -, h'⟩ := handle_refines h hfuel hnamed hreq
  refine ⟨answer, s', hs', h', ?_⟩
  obtain ⟨n, free, file, h⟩ := h
  have hstart : Consistent s.disk := ⟨n, free, file, h.sound⟩
  have hquiet : Writes s.disk s.disk (¬False) := (Writes.refl hstart).congr not_false_iff.symm
  cases req with
  | getattr name st uid gid now =>
    obtain ⟨r, st', s₁, hs₁, -, hdisk⟩ := h.getattr hnamed st uid gid now
    simp only [handle, hs₁, Option.some.injEq, Prod.mk.injEq] at hs'
    rw [← hs'.2, hdisk]
    exact hquiet
  | readdir stack =>
    simp only [handle, Option.some.injEq, Prod.mk.injEq] at hs'
    rw [← hs'.2]
    exact hquiet
  | remount bdir bmap =>
    cases hs'
    exact hquiet
  | rename o nm now now' =>
    obtain ⟨⟨r, s₁⟩, hs₁, hans⟩ := Option.map_eq_some_iff.1 hs'
    cases hans
    exact h.rename_survives hfuel hnamed.1 hnamed.2 hs₁ h'.consistent
  | call c =>
    have hname : IsName c.name := hnamed
    obtain ⟨⟨a, s₁⟩, hs₁, hans⟩ := Option.map_eq_some_iff.1 hs'
    cases hans
    cases c with
    | read name size offset stack =>
      obtain ⟨⟨r, bytes, s₂⟩, hs₂, hans⟩ := Option.map_eq_some_iff.1 hs₁
      cases hans
      rw [doRead_state hs₂]
      exact hquiet
    | write name buffer size offset now stack =>
      obtain ⟨⟨r, s₂⟩, hs₂, hans⟩ := Option.map_eq_some_iff.1 hs₁
      cases hans
      obtain ⟨⟨r', σ₁⟩, hok, hans⟩ := Option.map_eq_some_iff.1 hreq
      cases hans
      obtain ⟨s₃, hs₃, -⟩ := h.write hname stack hok
      obtain ⟨rfl, -⟩ := result_eq hs₂ hs₃
      exact h.write_survives hname hok hs₂ h'.consistent
    | create name m now =>
      obtain ⟨⟨r, s₂⟩, hs₂, hans⟩ := Option.map_eq_some_iff.1 hs₁
      cases hans
      unfold doCreate at hs₂
      simp only at hs₂
      split at hs₂
      · cases hs₂
        exact hquiet
      · simp only [Option.some.injEq, Prod.mk.injEq] at hs₂
        have hend := h'.consistent
        rw [← hs₂.2] at hend ⊢
        exact hquiet.snoc fun _ => hend
    | truncate name now =>
      obtain ⟨⟨r, s₂⟩, hs₂, hans⟩ := Option.map_eq_some_iff.1 hs₁
      cases hans
      rcases h.hasData_iff hname with ⟨-, hf, hno⟩ | ⟨i, hf, -, hiff⟩
      · obtain ⟨-, rfl⟩ := result_eq hs₂ (doTruncate_none fuel hf)
        exact (Writes.refl hstart).congr (iff_of_true trivial hno)
      · obtain ⟨s₃, hs₃, -, hw⟩ := doTruncate_survives now h.sound (found_pathOf hf) hfuel
        obtain ⟨-, rfl⟩ := result_eq hs₂ hs₃
        exact hw.congr ((not_congr hiff).trans not_not).symm
    | unlink name now =>
      obtain ⟨⟨r, s₂⟩, hs₂, hans⟩ := Option.map_eq_some_iff.1 hs₁
      cases hans
      exact h.unlink_survives now hfuel hname hs₂

/-- In every run of requests from a disk that holds files, a stop of the program in the next request, after any number
of its writes, leaves a disk that holds files, exactly if the request neither gives the blocks of a file back nor
allocates the first block of a file. -/
theorem crash_iff {reqs : List (Request bs)} {req : Request bs} {expected : List Response} {last : Response}
    {σ₁ : Store bs} (h : HoldsFiles s.disk σ) (hfuel : fsNblocks ≤ fuel) (hnamed : ∀ req ∈ reqs, req.Named)
    (hlast : req.Named) (hrun : run Store.handle σ reqs = some (expected, σ₁))
    (hreq : σ₁.handle req = some (last, σ')) :
    ∃ actual s₁ answer t, run (handle fuel) s reqs = some (actual, s₁) ∧
      handle fuel (logged s₁) req = some (answer, t) ∧ t.disk.disk = image s₁.disk t.disk.log ∧
      HoldsFiles t.disk.disk σ' ∧
      ((∀ j, ∃ τ, HoldsFiles (image s₁.disk (t.disk.log.take j)) τ) ↔ ¬req.Exposed σ₁) := by
  obtain ⟨actual, s₁, hs₁, -, n, free, file, h₁⟩ := refines h hfuel hnamed hrun
  have hlogged : HoldsFiles (logged s₁).disk σ₁ := ⟨n, free, file, h₁.sound, h₁.files, h₁.free⟩
  obtain ⟨answer, t, ht, ⟨n', free', file', h'⟩, log, hdisk, hlog⟩ := handle_survives hlogged hfuel hlast hreq
  have himage : t.disk = ⟨image s₁.disk log, log⟩ := hdisk.trans (image_logged s₁.disk log [])
  refine ⟨actual, s₁, answer, t, hs₁, ht, by rw [himage], ⟨n', free', file', h'.sound, h'.files, h'.free⟩, ?_⟩
  rw [himage, ← hlog, survives_logged]
  exact forall_congr' fun j => ⟨fun ⟨τ, hτ⟩ => hτ.consistent, fun hc => hc.exists_holdsFiles⟩

end Runs

/-- A file with data is truncated: there is a place to stop that leaves no files. -/
theorem crash_iff_truncate : ∃ actual s₁ answer t, run (handle fsNblocks) mounted (twoBlocks.take 2) =
      some (actual, s₁) ∧ handle fsNblocks (logged s₁) (.call (.truncate [97] 3)) = some (answer, t) ∧
    ¬∀ j, ∃ τ, HoldsFiles (image s₁.disk (t.disk.log.take j)) τ := by
  have hnamed : ∀ req ∈ twoBlocks.take 2, req.Named := by simp [twoBlocks, Request.Named, Call.name, IsName]
  have hlast : Request.Named (.call (.truncate [97] 3) : Request 512) := ⟨by decide, by decide⟩
  obtain ⟨actual, s₁, answer, t, hs₁, ht, -, -, hiff⟩ :=
    crash_iff mounted_holdsFiles (Nat.le_refl _) hnamed hlast rfl rfl
  refine ⟨actual, s₁, answer, t, hs₁, ht, fun hall => hiff.1 hall ?_⟩
  exact ⟨0, _, rfl, List.cons_ne_nil _ _⟩

end Edaf35.Ssfs
