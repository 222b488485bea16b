import Edaf35.Ssfs.RamDisk
import Edaf35.Ssfs.Write

/-!
# The file operations keep a disk well formed

`lookup d name` is the directory entry the file system finds under a name.  Creating a file under a new name, writing
(unless the disk is full), truncating and removing a file take well-formed disks to well-formed disks: no block is
lost, owned twice, or both free and owned.
-/

namespace Edaf35.Ssfs

variable {bs : Nat} {δ : Type} [RawDisk bs δ]

/-- The index of the entry named `name` in the directory on the disk. -/
def lookup (d : δ) (name : List UInt8) : Option Nat := findDirEntry (diskBlock d rootdirBid) name

variable {d : δ} {n : Nat} {free : List Nat} {file : Nat → List Nat} {name : List UInt8}

theorem WellFormedAt.lookup_eq_some (h : WellFormedAt bs (diskMap d) (diskDir d) n free file) {i : Nat} :
    lookup d name = some i ↔ i < n ∧ HasName (diskDir d i) name := findDirEntry_eq_some h.table

theorem WellFormedAt.lookup_eq_none (h : WellFormedAt bs (diskMap d) (diskDir d) n free file) :
    lookup d name = none ↔ ∀ i, i < n → ¬HasName (diskDir d i) name := findDirEntry_eq_none h.table

variable [LawfulRawDisk bs δ] {s : Fs bs δ} {path : List UInt8}

theorem doCreate_wellFormed (h : WellFormed s.disk) (hne : nameKey fsNameLen path.tail ≠ [])
    (hnew : lookup s.disk path.tail = none) (m : UInt32) (now : UInt64) :
    ∃ r s', doCreate s path m now = some (r, s') ∧ WellFormed s'.disk := by
  obtain ⟨n, free, file, h⟩ := h
  by_cases hn : n < dirEntriesPerBlock bs
  · obtain ⟨s', hs', -, -, h', -⟩ := doCreate_spec m now h hn hne (h.lookup_eq_none.1 hnew)
    exact ⟨_, s', hs', n + 1, free, _, h'⟩
  · exact ⟨_, _, doCreate_full h.sound hn, n, free, file, h⟩

theorem doTruncate_wellFormed (h : WellFormed s.disk) {fuel : Nat} (hfuel : fsNblocks ≤ fuel) (now : UInt64) :
    ∃ r s', doTruncate fuel s path now = some (r, s') ∧ WellFormed s'.disk := by
  obtain ⟨n, free, file, h⟩ := h
  cases hl : lookup s.disk path.tail with
  | none => exact ⟨_, _, doTruncate_absent fuel h (h.lookup_eq_none.1 hl), n, free, file, h⟩
  | some i =>
    obtain ⟨hi, hname⟩ := h.lookup_eq_some.1 hl
    obtain ⟨s', hs', ht⟩ := doTruncate_spec now h hi hname hfuel
    exact ⟨_, s', hs', n, _, _, ht.wellFormed⟩

theorem doUnlink_wellFormed (h : WellFormed s.disk) {fuel : Nat} (hfuel : fsNblocks ≤ fuel) (now : UInt64) :
    ∃ r s', doUnlink fuel s path now = some (r, s') ∧ WellFormed s'.disk := by
  obtain ⟨n, free, file, h⟩ := h
  cases hl : lookup s.disk path.tail with
  | none => exact ⟨_, _, doUnlink_absent fuel h (h.lookup_eq_none.1 hl), n, free, file, h⟩
  | some i =>
    obtain ⟨hi, hname⟩ := h.lookup_eq_some.1 hl
    obtain ⟨s', hs', hr⟩ := doUnlink_spec now h hi hname hfuel
    exact ⟨_, s', hs', _, _, _, hr.wellFormed⟩

variable {buffer : Nat → UInt8} {size : UInt64} {offset : Int64} {now : UInt64} {stack : Block bs}

/-- A write that does not report a full disk keeps the names of the entries. -/
theorem doWrite_names (h : WellFormedAt bs (diskMap s.disk) (diskDir s.disk) n free file) {r : Int} {s' : Fs bs δ}
    (hw : doWrite s path buffer size offset now stack = some (r, s')) (hr : r ≠ -enospc) :
    ∃ free' file', WellFormedAt bs (diskMap s'.disk) (diskDir s'.disk) n free' file' ∧
      ∀ j, (diskDir s'.disk j).name = (diskDir s.disk j).name := by
  cases hl : lookup s.disk path.tail with
  | none =>
    obtain ⟨-, rfl⟩ := result_eq hw (doWrite_absent h (h.lookup_eq_none.1 hl))
    exact ⟨free, file, h, fun _ => rfl⟩
  | some i =>
    obtain ⟨hi, hname⟩ := h.lookup_eq_some.1 hl
    rcases doWrite_cases h hi hname hw with ⟨-, -, -, hsame⟩ | ⟨-, -, hfull, -⟩ | ⟨-, -, -, hfull, -⟩ |
      ⟨-, blk, -, -, -, hwr, -⟩
    · have hmap : diskMap s'.disk = diskMap s.disk := congrArg Block.ids (hsame blkmapBid (by decide))
      have hdir : diskDir s'.disk = diskDir s.disk := congrArg Block.entry (hsame rootdirBid (by decide))
      rw [hmap, hdir]
      exact ⟨free, file, h, fun _ => rfl⟩
    · exact absurd hfull hr
    · exact absurd hfull hr
    · refine ⟨_, _, hwr.wellFormed, fun j => ?_⟩
      rw [hwr.dir]
      by_cases hj : j = i
      · rw [hj, Function.update_self, DirEntry.written_name]
      · rw [Function.update_of_ne hj]

/-- A write that does not report a full disk. -/
theorem doWrite_wellFormed (h : WellFormed s.disk) {r : Int} {s' : Fs bs δ}
    (hw : doWrite s path buffer size offset now stack = some (r, s')) (hr : r ≠ -enospc) : WellFormed s'.disk := by
  obtain ⟨n, free, file, h⟩ := h
  obtain ⟨free', file', h', -⟩ := doWrite_names h hw hr
  exact ⟨n, free', file', h'⟩

/-- A write of at least one byte that does not end past all 64-bit offsets makes no access out of bounds. -/
private theorem doWrite_returns (h : WellFormed s.disk) (hoff : 0 ≤ offset.toInt) (hsize : 1 ≤ size.toNat)
    (hend : offset.toInt + size.toNat < 2 ^ 64) :
    ∃ r s', doWrite s path buffer size offset now stack = some (r, s') := by
  have hpos : 0 < bs := LawfulRawDisk.blockSize_pos (δ := δ)
  have hlt : bs < 65536 := LawfulRawDisk.blockSize_lt (δ := δ)
  obtain ⟨n, free, file, h⟩ := h
  cases hl : lookup s.disk path.tail with
  | none => exact ⟨_, _, doWrite_absent h (h.lookup_eq_none.1 hl)⟩
  | some i =>
    obtain ⟨hi, hname⟩ := h.lookup_eq_some.1 hl
    rcases write_cases (file i) free ((diskDir s.disk i).sizeBytes < endOffset size offset) (blkoffs bs offset) with
      ⟨hcf, hgrow⟩ | ⟨hnil, hgrow⟩ | ⟨hc, hne, hk⟩ | ⟨hc, blk, hk⟩
    · rw [h.sizeBytes_of_nil hi hcf] at hgrow
      unfold endOffset at hgrow
      omega
    · obtain ⟨s₁, hs₁, -⟩ := doWrite_noBlock buffer now stack h hi hname hnil hgrow
      exact ⟨_, s₁, hs₁⟩
    · obtain ⟨s₁, hs₁, -⟩ := doWrite_full buffer now stack h hi hname hc hne hk
      exact ⟨_, s₁, hs₁⟩
    · obtain ⟨s₁, hs₁, -⟩ := doWrite_done buffer now stack h hi hname hc hk
        (fits_of_nonneg size hlt hpos hoff)
      exact ⟨_, s₁, hs₁⟩

/-- Every successful mutation keeps the disk well formed. -/
theorem wellFormed_preserved (h : WellFormed s.disk) (fuel : Nat) (hfuel : fsNblocks ≤ fuel) (path : List UInt8)
    (now : UInt64) :
    (nameKey fsNameLen path.tail ≠ [] → lookup s.disk path.tail = none →
      ∀ m, ∃ r s', doCreate s path m now = some (r, s') ∧ WellFormed s'.disk) ∧
    (∀ buffer (size : UInt64) (offset : Int64) stack, 1 ≤ size.toNat → 0 ≤ offset.toInt →
      (∀ r s', doWrite s path buffer size offset now stack = some (r, s') → r ≠ -enospc → WellFormed s'.disk) ∧
      (offset.toInt + size.toNat < 2 ^ 64 → ∃ r s', doWrite s path buffer size offset now stack = some (r, s'))) ∧
    (∃ r s', doTruncate fuel s path now = some (r, s') ∧ WellFormed s'.disk) ∧
    (∃ r s', doUnlink fuel s path now = some (r, s') ∧ WellFormed s'.disk) := by
  refine ⟨fun hne hnew m => doCreate_wellFormed h hne hnew m now, fun buffer size offset stack hsize hoff => ⟨?_, ?_⟩,
    doTruncate_wellFormed h hfuel now, doUnlink_wellFormed h hfuel now⟩
  · intro r s' hw hr
    exact doWrite_wellFormed h hw hr
  · exact doWrite_returns h hoff hsize

/-! ### A disk with files -/

/-- The file system just mounted on a disk without files. -/
def mounted : Fs 512 (RamDisk 512) := ⟨RamDisk.formatted 512, fun _ => 0, fun _ => 0⟩

/-- The state after a file was created, with the mode `rw-r--r--` and the time 0. -/
def created (s : Fs 512 (RamDisk 512)) (path : List UInt8) : Fs 512 (RamDisk 512) :=
  ((doCreate s path 0o644 0).getD (0, s)).2

theorem wellFormedAt_mounted :
    WellFormedAt 512 (diskMap mounted.disk) (diskDir mounted.disk) 0 (List.range' 2 8) fun _ => [] :=
  RamDisk.wellFormedAt_formatted (by decide)

theorem created_wellFormedAt {s : Fs 512 (RamDisk 512)} (path : List UInt8) {n : Nat} {free : List Nat}
    {file : Nat → List Nat} (h : WellFormedAt 512 (diskMap s.disk) (diskDir s.disk) n free file)
    (hn : n < dirEntriesPerBlock 512) (hne : nameKey fsNameLen path.tail ≠ [])
    (hnew : lookup s.disk path.tail = none) :
    WellFormedAt 512 (diskMap (created s path).disk) (diskDir (created s path).disk) (n + 1) free
      (Function.update file n []) := by
  obtain ⟨s', hs', -, -, h', -⟩ := doCreate_spec 0o644 0 h hn hne (h.lookup_eq_none.1 hnew)
  rw [created, hs']
  exact h'

/-- The path `/a`. -/
def pathA : List UInt8 := [47, 97]

theorem wellFormedAt_created :
    WellFormedAt 512 (diskMap (created mounted pathA).disk) (diskDir (created mounted pathA).disk) 1
      (List.range' 2 8) fun _ => [] := by
  have h := created_wellFormedAt pathA wellFormedAt_mounted (by decide) (by decide) (by decide)
  rwa [Function.update_eq_self] at h

/-- The state after the byte 7 was written to the start of the file. -/
def wrote (s : Fs 512 (RamDisk 512)) (path : List UInt8) : Fs 512 (RamDisk 512) :=
  ((doWrite s path (fun _ => 7) 1 0 0 fun _ => 0).getD (0, s)).2

theorem wrote_wellFormedAt {s : Fs 512 (RamDisk 512)} {path : List UInt8} {n i a : Nat} {l : List Nat}
    {file : Nat → List Nat} (h : WellFormedAt 512 (diskMap s.disk) (diskDir s.disk) n (a :: l) file)
    (hl : lookup s.disk path.tail = some i) (hcf : file i = []) :
    WellFormedAt 512 (diskMap (wrote s path).disk) (diskDir (wrote s path).disk) n l (Function.update file i [a]) := by
  obtain ⟨hi, hname⟩ := h.lookup_eq_some.1 hl
  have hzero : blkoffs 512 0 = 0 := by decide
  have hgrow : (diskDir s.disk i).sizeBytes < endOffset 1 0 := by rw [h.sizeBytes_of_nil hi hcf]; decide
  have hk : (file i ++ a :: l)[blkoffs 512 0]? = some a := by rw [hcf, hzero]; rfl
  have hfit : byteoffs 512 0 + crtsize 512 1 0 ≤ 512 := by decide
  obtain ⟨s', hs', hw, -⟩ := doWrite_done (fun _ => 7) 0 (fun _ => 0) h hi hname (Or.inr hgrow) hk hfit
  rw [wrote, hs']
  have := hw.wellFormed
  rw [hcf, hzero] at this
  exact this

theorem wellFormedAt_wrote :
    WellFormedAt 512 (diskMap (wrote (created mounted pathA) pathA).disk)
      (diskDir (wrote (created mounted pathA) pathA).disk) 1 (List.range' 3 7) (Function.update (fun _ => []) 0 [2]) :=
  wrote_wellFormedAt wellFormedAt_created (by decide) rfl

theorem wellFormed_preserved_mounted :
    (∃ r s', doCreate mounted pathA 0o644 0 = some (r, s') ∧ WellFormed s'.disk) ∧
      (∃ r s', doWrite (created mounted pathA) pathA (fun _ => 7) 1 600 0 (fun _ => 0) = some (r, s') ∧
        WellFormed s'.disk) ∧
      ∃ r s', doUnlink 10 (created mounted pathA) pathA 0 = some (r, s') ∧ WellFormed s'.disk := by
  have h₀ := wellFormed_preserved ⟨_, _, _, wellFormedAt_mounted⟩ 10 (by decide) pathA 0
  have h₁ := wellFormed_preserved ⟨_, _, _, wellFormedAt_created⟩ 10 (by decide) pathA 0
  obtain ⟨hwf, hret⟩ := h₁.2.1 (fun _ => 7) 1 600 (fun _ => 0) (by decide) (by decide)
  obtain ⟨r, s', hw⟩ := hret (by decide)
  refine ⟨h₀.1 (by decide) (by decide) _, ⟨r, s', hw, hwf r s' hw ?_⟩, h₁.2.2.2⟩
  have hr : (doWrite (created mounted pathA) pathA (fun _ => 7) 1 600 0 (fun _ => 0)).map Prod.fst = some 1 := by
    decide
  rw [hw] at hr
  simp only [Option.map_some, Option.some.injEq] at hr
  rw [hr]
  decide

end Edaf35.Ssfs
