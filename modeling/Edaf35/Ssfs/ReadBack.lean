import Edaf35.Lib.Run
import Edaf35.Ssfs.Contents

/-!
# Reading back what was written

`lastByte ws p` is the byte that the writes `ws` put last at position `p`.  As long as every write stays inside one
block, of a number below 2^16, the bytes of the file agree with it after any run of writes.  `do_read` takes its bytes
from the first block of the file and does not look at the size, so it returns them for a read that starts in the first
block and whose length the end of the block and the end of the file limit alike.
-/

namespace Edaf35.Ssfs

/-- A call of `do_write` on a given file. -/
structure WriteCall (bs : Nat) where
  buffer : Nat → UInt8
  size : UInt64
  offset : Int64
  now : UInt64
  stack : Block bs

variable {bs : Nat} {δ : Type}

/-- The position the write starts at. -/
def WriteCall.start (w : WriteCall bs) : Nat := w.offset.toInt.toNat

/-- The write covers position `p`. -/
def WriteCall.Covers (w : WriteCall bs) (p : Nat) : Prop := w.start ≤ p ∧ p < w.start + w.size.toNat

instance (w : WriteCall bs) (p : Nat) : Decidable (w.Covers p) := inferInstanceAs (Decidable (_ ∧ _))

/-- The write stays inside one block, of a number below 2^16. -/
def WriteCall.InOneBlock (w : WriteCall bs) : Prop :=
  0 ≤ w.offset.toInt ∧ (w.size.toNat = 0 ∨ w.start % bs + w.size.toNat ≤ bs ∧ w.start / bs < 65536)

instance (w : WriteCall bs) : Decidable w.InOneBlock := inferInstanceAs (Decidable (_ ∧ _))

/-- The byte written last to position `p`; `none` when no write covers it. -/
def lastByte (ws : List (WriteCall bs)) (p : Nat) : Option UInt8 :=
  ws.foldl (fun v w => if w.Covers p then some (w.buffer (p - w.start)) else v) none

private theorem lastByte_append (ws : List (WriteCall bs)) (w : WriteCall bs) (p : Nat) :
    lastByte (ws ++ [w]) p = if w.Covers p then some (w.buffer (p - w.start)) else lastByte ws p := by
  simp [lastByte, List.foldl_append]

variable [RawDisk bs δ]

/-- A write that returns its full size. -/
def fullWrite (path : List UInt8) (s : Fs bs δ) (w : WriteCall bs) : Option (Int × Fs bs δ) :=
  (doWrite s path w.buffer w.size w.offset w.now w.stack).filter fun x => x.1 = w.size.toNat

/-- The disk is well formed, entry `i` bears the name, and the file holds the bytes written last. -/
def Holds (path : List UInt8) (i : Nat) (ws : List (WriteCall bs)) (s : Fs bs δ) : Prop :=
  ∃ n free file, WellFormedAt bs (diskMap s.disk) (diskDir s.disk) n free file ∧
    lookup s.disk path.tail = some i ∧
    ∀ p v, lastByte ws p = some v → fileByte s.disk (file i) p = some v

variable [LawfulRawDisk bs δ] {s s' : Fs bs δ} {path : List UInt8} {i : Nat} {ws : List (WriteCall bs)}
  {w : WriteCall bs}

/-- A write inside one block changes exactly the positions it covers. -/
private theorem covers_iff (hbs : 0 < bs) (hw : w.InOneBlock) (p : Nat) :
    w.Covers p ↔ p / bs = w.start / bs % 65536 ∧ w.start % bs ≤ p % bs ∧
      p % bs < w.start % bs + min w.size.toNat (bs - w.start % bs) := by
  have hp := Nat.div_add_mod p bs
  have hs := Nat.div_add_mod w.start bs
  have hmod := Nat.mod_lt p hbs
  unfold WriteCall.Covers
  rcases hw.2 with h0 | ⟨hfit, hsmall⟩
  · omega
  · rw [Nat.mod_eq_of_lt hsmall]
    constructor
    · rintro ⟨h₁, h₂⟩
      have hdiv : p / bs = w.start / bs := by
        apply Nat.le_antisymm
        · rw [← Nat.lt_succ_iff, Nat.div_lt_iff_lt_mul hbs, Nat.succ_mul, Nat.mul_comm]
          omega
        · exact Nat.div_le_div_right h₁
      rw [hdiv] at hp
      omega
    · rintro ⟨h₁, h₂, h₃⟩
      rw [h₁] at hp
      omega

/-- A covered position is as far from the start of the write as in its block. -/
private theorem sub_start (hbs : 0 < bs) (hw : w.InOneBlock) {p : Nat} (hp : w.Covers p) :
    p % bs - w.start % bs = p - w.start := by
  obtain ⟨hdiv, -, -⟩ := (covers_iff hbs hw p).1 hp
  have hpe := Nat.div_add_mod p bs
  have hse := Nat.div_add_mod w.start bs
  unfold WriteCall.Covers at hp
  rcases hw.2 with h0 | ⟨-, hsmall⟩
  · omega
  · rw [Nat.mod_eq_of_lt hsmall] at hdiv
    rw [hdiv] at hpe
    omega

/-- A write inside one block that does not make an empty file grow writes nothing. -/
private theorem size_eq_zero (hbs : bs < 65536) (hw : w.InOneBlock) (hgrow : ¬0 < endOffset w.size w.offset) :
    w.size.toNat = 0 := by
  rcases hw.2 with h0 | ⟨hfit, -⟩
  · exact h0
  · have hoff := hw.1
    have hlt := w.offset.toInt_lt
    unfold endOffset at hgrow
    omega

/-- One write that stays inside one block and returns its full size. -/
private theorem fullWrite_holds {r : Int} (h : Holds path i ws s) (hone : w.InOneBlock)
    (hw : fullWrite path s w = some (r, s')) : Holds path i (ws ++ [w]) s' := by
  have hpos : 0 < bs := LawfulRawDisk.blockSize_pos (δ := δ)
  have hbs : bs < 65536 := LawfulRawDisk.blockSize_lt (δ := δ)
  obtain ⟨n, free, file, hwf, hl, hbytes⟩ := h
  obtain ⟨hi, hname⟩ := hwf.lookup_eq_some.1 hl
  obtain ⟨hw, hr⟩ := Option.filter_eq_some_iff.1 hw
  simp only [decide_eq_true_eq] at hr
  have hoff := hone.1
  rcases doWrite_cases hwf hi hname hw with ⟨hcf, hgrow, -, hsame⟩ | ⟨-, -, hfull, -⟩ | ⟨-, -, -, hfull, -⟩ |
    ⟨hc, blk, hk, -, -, hwr, -⟩
  · rw [hwf.sizeBytes_of_nil hi hcf] at hgrow
    have hzero := size_eq_zero hbs hone hgrow
    have hdir : diskBlock s'.disk rootdirBid = diskBlock s.disk rootdirBid := hsame _ (by decide)
    have hmap : diskBlock s'.disk blkmapBid = diskBlock s.disk blkmapBid := hsame _ (by decide)
    refine ⟨n, free, file, ?_, by rwa [lookup, hdir], fun p v hv => ?_⟩
    · rw [diskMap, diskDir, hdir, hmap]
      exact hwf
    · rw [lastByte_append, if_neg (by unfold WriteCall.Covers; omega)] at hv
      have := hbytes p v hv
      simp [fileByte, hcf] at this
  · rw [hfull, enospc] at hr
    omega
  · rw [hfull, enospc] at hr
    omega
  · have hblk : blkoffs bs w.offset = w.start / bs % 65536 := blkoffs_eq hoff
    have hbyte : byteoffs bs w.offset = w.start % bs := byteoffs_eq hbs hpos hoff
    have hcrt : crtsize bs w.size w.offset = min w.size.toNat (bs - w.start % bs) := crtsize_eq w.size hbs hpos hoff
    rw [hblk] at hk
    rw [hblk, hbyte, hcrt] at hwr
    refine ⟨n, _, _, hwr.wellFormed, hwr.wellFormed.lookup_eq_some.2 ⟨hi, ?_⟩, fun p v hv => ?_⟩
    · rw [hwr.dir, Function.update_self, HasName, DirEntry.written_name]
      exact hname
    · have hcov := covers_iff hpos hone p
      rw [lastByte_append] at hv
      rw [Function.update_self]
      by_cases hp : w.Covers p
      · rw [if_pos hp, Option.some.injEq] at hv
        have hin := hcov.1 hp
        rw [hwr.fileByte_eq hwf.partition hi hpos hk (by omega), if_pos hin, ← hv, sub_start hpos hone hp]
      · rw [if_neg hp] at hv
        have hold := hbytes p v hv
        have hlt : p / bs < (file i).length := by
          obtain ⟨id, hid, -⟩ := Option.map_eq_some_iff.1 hold
          exact (List.getElem?_eq_some_iff.1 hid).1
        rw [hwr.fileByte_eq hwf.partition hi hpos hk (by omega), if_neg (fun h => hp (hcov.2 h)), fileByte,
          List.getElem?_append_left hlt]
        exact hold

/-- `do_read` returns bytes of the first block, whatever block the offset is in. -/
theorem doRead_spec {n : Nat} {free : List Nat} {file : Nat → List Nat} (size : UInt64) (offset : Int64)
    (h : WellFormedAt bs (diskMap s.disk) (diskDir s.disk) n free file) (hl : lookup s.disk path.tail = some i)
    (hoff : 0 ≤ offset.toInt) (stack : Block bs) :
    ∃ bytes s', doRead s path size offset stack =
        some (((min size.toNat (bs - offset.toInt.toNat % bs) : Nat) : Int), bytes, s') ∧
      ∀ q v, q < min size.toNat (bs - offset.toInt.toNat % bs) →
        fileByte s.disk (file i) (offset.toInt.toNat % bs + q) = some v → bytes[q]? = some v := by
  have hpos : 0 < bs := LawfulRawDisk.blockSize_pos (δ := δ)
  have hbs : bs < 65536 := LawfulRawDisk.blockSize_lt (δ := δ)
  obtain ⟨hi, hname⟩ := h.lookup_eq_some.1 hl
  have hfind := (h.findDirEntry_iff s rfl).2 ⟨hi, hname⟩
  have hfit := fits_of_nonneg size hbs hpos hoff
  have hcrt := crtsize_eq size hbs hpos hoff
  have hbyte := byteoffs_eq hbs hpos hoff
  refine ⟨(List.range (min size.toNat (bs - offset.toInt.toNat % bs))).map fun k =>
    (readBlock s.disk (diskDir s.disk i).firstBlock stack).byte (offset.toInt.toNat % bs + k), loadDirectory s, ?_,
    fun q v hq hv => ?_⟩
  · unfold doRead
    simp only [hfind, if_pos hfit, loadDirectory_entry]
    rw [hcrt, hbyte]
    rfl
  · have hlt : offset.toInt.toNat % bs + q < bs := by omega
    obtain ⟨id, hid, hb⟩ := Option.map_eq_some_iff.1 hv
    rw [Nat.div_eq_of_lt hlt] at hid
    rw [Nat.mod_eq_of_lt hlt] at hb
    obtain ⟨c, hc⟩ : ∃ c, file i = id :: c := by
      cases hf : file i with
      | nil => simp [hf] at hid
      | cons a c =>
        simp only [hf, List.getElem?_cons_zero, Option.some.injEq] at hid
        exact ⟨c, by rw [hid]⟩
    have hfirst : (diskDir s.disk i).firstBlock = id := (hc ▸ h.partition.fileChain i hi).head_eq
    have hdata := h.partition.file_data i hi id (by simp [hc])
    rw [List.getElem?_map, List.getElem?_range hq, Option.map_some, hfirst, readBlock_eq _ hdata.2, hb]

/-- The file holds the bytes written last after every run of such writes. -/
theorem run_holds (h : WellFormed s.disk) (hl : lookup s.disk path.tail = some i) (hone : ∀ w ∈ ws, w.InOneBlock)
    {rs : List Int} (hrun : run (fullWrite path) s ws = some (rs, s')) : Holds path i ws s' := by
  obtain ⟨n, free, file, h⟩ := h
  have h₀ : Holds path i [] s := ⟨n, free, file, h, hl, fun p v hv => by simp [lastByte] at hv⟩
  exact (run_history (I := Holds path i) (Q := fun _ _ _ => True)
    (fun _ _ _ _ _ hI hw hs => ⟨fullWrite_holds hI hw hs, trivial⟩) h₀ hone hrun).1

/-- After any run of writes that stay inside one block each and return their full size, a read returns the bytes
written last and stops at the end of the file, if it starts in the first block (or reads nothing that was written) and
the end of its block and the end of the file give the same length. -/
theorem doRead_eq_lastByte (h : WellFormed s.disk) (hl : lookup s.disk path.tail = some i)
    (hone : ∀ w ∈ ws, w.InOneBlock) {rs : List Int} (hrun : run (fullWrite path) s ws = some (rs, s'))
    (size : UInt64) (offset : Int64) (hoff : 0 ≤ offset.toInt)
    (hlen : min size.toNat (bs - offset.toInt.toNat % bs) =
      min size.toNat ((diskDir s'.disk i).sizeBytes - offset.toInt.toNat))
    (hfirst : offset.toInt.toNat < bs ∨ ∀ p, offset.toInt.toNat ≤ p →
      p < offset.toInt.toNat + min size.toNat ((diskDir s'.disk i).sizeBytes - offset.toInt.toNat) →
      lastByte ws p = none) (stack : Block bs) :
    ∃ (r : Nat) (bytes : List UInt8) (s'' : Fs bs δ), doRead s' path size offset stack = some ((r : Int), bytes, s'') ∧
      r = min size.toNat ((diskDir s'.disk i).sizeBytes - offset.toInt.toNat) ∧
      ∀ p v, offset.toInt.toNat ≤ p → p < offset.toInt.toNat + r → lastByte ws p = some v →
        bytes[p - offset.toInt.toNat]? = some v := by
  obtain ⟨n, free, file, hwf, hl', hbytes⟩ := run_holds h hl hone hrun
  obtain ⟨bytes, s'', hread, hval⟩ := doRead_spec size offset hwf hl' hoff stack
  refine ⟨_, bytes, s'', hread, hlen, fun p v hle hlt hv => ?_⟩
  rcases hfirst with hfirst | hnone
  · apply hval _ v (by omega)
    rw [Nat.mod_eq_of_lt hfirst, Nat.add_sub_cancel' hle]
    exact hbytes p v hv
  · rw [hnone p hle (hlen ▸ hlt)] at hv
    simp at hv

/-! ### Two writes -/

/-- The byte `v` at position `offset`. -/
def writeAt (v : UInt8) (offset : Int64) : WriteCall 512 := ⟨fun _ => v, 1, offset, 0, fun _ => 0⟩

/-- After a byte was written at 0 and one at 512, reading the first block gives the first of them. -/
theorem doRead_eq_lastByte_first :
    ∃ bytes s'', ((run (fullWrite pathA) (created mounted pathA) [writeAt 7 0, writeAt 9 512]).bind fun x =>
        doRead x.2 pathA 512 0 fun _ => 0) = some (512, bytes, s'') ∧ bytes[0]? = some 7 := by
  have hev : ((run (fullWrite pathA) (created mounted pathA) [writeAt 7 0, writeAt 9 512]).map fun x =>
      (diskDir x.2.disk 0).sizeBytes) = some 513 := by decide
  obtain ⟨⟨rs, s'⟩, hrun, hsize⟩ := Option.map_eq_some_iff.1 hev
  obtain ⟨r, bytes, s'', hread, hr, hval⟩ := doRead_eq_lastByte ⟨_, _, _, wellFormedAt_created⟩
    (i := 0) (by decide) (by decide) hrun 512 0 (by decide) (by rw [hsize]; decide) (Or.inl (by decide)) fun _ => 0
  rw [hsize] at hr
  obtain rfl : r = 512 := hr
  exact ⟨bytes, s'', by rw [hrun]; exact hread, hval 0 7 (by decide) (by decide) (by decide)⟩

/-- Reading the byte written at 512 gives the one written at 0. -/
theorem doRead_stale :
    WellFormed (created mounted pathA).disk ∧ lookup (created mounted pathA).disk pathA.tail = some 0 ∧
      lastByte [writeAt 7 0, writeAt 9 512] 512 = some 9 ∧
      ∃ s' bytes s'', run (fullWrite pathA) (created mounted pathA) [writeAt 7 0, writeAt 9 512] = some ([1, 1], s') ∧
        (diskDir s'.disk 0).sizeBytes = 513 ∧
        doRead s' pathA 1 512 (fun _ => 0) = some (1, bytes, s'') ∧ bytes[0]? = some 7 := by
  have hev : ((run (fullWrite pathA) (created mounted pathA) [writeAt 7 0, writeAt 9 512]).map fun x =>
      (x.1, (diskDir x.2.disk 0).sizeBytes)) = some ([1, 1], 513) := by decide
  obtain ⟨⟨rs, s'⟩, hrun, hr⟩ := Option.map_eq_some_iff.1 hev
  simp only [Prod.mk.injEq] at hr
  obtain ⟨rfl, hsize⟩ := hr
  have hl : lookup (created mounted pathA).disk pathA.tail = some 0 := by decide
  obtain ⟨n, free, file, hwf, hl', hbytes⟩ := run_holds ⟨_, _, _, wellFormedAt_created⟩ hl (by decide) hrun
  obtain ⟨bytes, s'', hread, hval⟩ := doRead_spec 1 512 hwf hl' (by decide) fun _ => 0
  exact ⟨⟨_, _, _, wellFormedAt_created⟩, hl, by decide, s', bytes, s'', hrun, hsize, hread,
    hval 0 7 (by decide) (hbytes 0 7 (by decide))⟩

end Edaf35.Ssfs
