import Edaf35.Ssfs.Consistency

/-!
# Writes that run out of space

`do_write` returns -ENOSPC in two places.  The first comes before anything is saved.  The second, in the loop that
looks for the block, comes after `save_directory`: if the file was to grow, its new size, and the first block of a
file that was empty, are on the disk although the block map is not, so the first block is still on the free list.

A returned size is converted to `int`, so a successful write of a size that is -28 modulo 2^32 also returns -ENOSPC.
-/

namespace Edaf35.Ssfs

variable {bs : Nat} {δ : Type} [RawDisk bs δ]

/-- The directory and the block map are what they were; so are the size and the first block of the file at entry `i`,
and the blocks on the free list belong to no file. -/
structure Intact (d : δ) (i : Nat) (d' : δ) : Prop where
  directory : diskBlock d' rootdirBid = diskBlock d rootdirBid
  blockmap : diskBlock d' blkmapBid = diskBlock d blkmapBid
  size : (diskDir d' i).sizeBytes = (diskDir d i).sizeBytes
  firstBlock : (diskDir d' i).firstBlock = (diskDir d i).firstBlock
  wellFormed : WellFormed d'

/-- The file grows, gets or has a first block, and there are not enough blocks to reach the offset. -/
def FailsLate (bs : Nat) (e : DirEntry) (c free : List Nat) (size : UInt64) (offset : Int64) : Prop :=
  e.sizeBytes < endOffset size offset ∧ c ++ free ≠ [] ∧ (c ++ free).length ≤ blkoffs bs offset

/-- A write that succeeds and changes the directory or the block map, of a size that reads as -ENOSPC. -/
def ReturnsEnospc (bs : Nat) (e : DirEntry) (c free : List Nat) (size : UInt64) (offset : Int64) : Prop :=
  asInt size.toNat = -enospc ∧ byteoffs bs offset + crtsize bs size offset ≤ bs ∧
    blkoffs bs offset < (c ++ free).length ∧
    (e.sizeBytes < endOffset size offset ∨ c ≠ [] ∧ c.length ≤ blkoffs bs offset)

instance (e : DirEntry) (c free : List Nat) (size : UInt64) (offset : Int64) :
    Decidable (FailsLate bs e c free size offset) := inferInstanceAs (Decidable (_ ∧ _))

instance (e : DirEntry) (c free : List Nat) (size : UInt64) (offset : Int64) :
    Decidable (ReturnsEnospc bs e c free size offset) := inferInstanceAs (Decidable (_ ∧ _))

variable {s : Fs bs δ} {n i : Nat} {free : List Nat} {file : Nat → List Nat} {path : List UInt8}

private theorem Intact.of_blocks {d d' : δ} (h : WellFormed d)
    (hdir : diskBlock d' rootdirBid = diskBlock d rootdirBid) (hmap : diskBlock d' blkmapBid = diskBlock d blkmapBid) :
    Intact d i d' := by
  have hd : diskDir d' = diskDir d := congrArg Block.entry hdir
  have hm : diskMap d' = diskMap d := congrArg Block.ids hmap
  refine ⟨hdir, hmap, by rw [hd], by rw [hd], ?_⟩
  unfold WellFormed
  rw [hd, hm]
  exact h

/-- A file that grew has another size. -/
private theorem not_intact_of_grown {d d' : δ} {first : Nat} {newSize : Nat} {now : UInt64}
    (hgrow : (diskDir d i).sizeBytes < newSize)
    (hdir : diskDir d' = Function.update (diskDir d) i ((diskDir d i).written newSize first now)) :
    ¬Intact d i d' := by
  intro h
  have := h.size
  rw [hdir, Function.update_self, DirEntry.written, if_pos hgrow] at this
  simp only at this
  omega

/-- A free list that lost blocks is another free list. -/
private theorem not_intact_of_taken {d d' : δ} {k : Nat} {file' : Nat → List Nat}
    (h : WellFormedAt bs (diskMap d) (diskDir d) n free file) (hk : 0 < k) (hfree : free ≠ [])
    (h' : WellFormedAt bs (diskMap d') (diskDir d') n (free.drop k) file') : ¬Intact d i d' := by
  intro hint
  have hm : diskMap d' = diskMap d := congrArg Block.ids hint.blockmap
  have hchain := h'.partition.freeChain
  rw [hm] at hchain
  have hlen := congrArg List.length (hchain.unique h.partition.freeChain)
  have := List.length_pos_iff.2 hfree
  rw [List.length_drop] at hlen
  omega

variable [LawfulRawDisk bs δ]

/-- A write that reports a full disk leaves the directory and the block map alone if and only if it does not fail
late and its size is not mistaken for the error. -/
theorem doWrite_atomic_iff (h : WellFormedAt bs (diskMap s.disk) (diskDir s.disk) n free file)
    (hl : lookup s.disk path.tail = some i) (buffer : Nat → UInt8) (size : UInt64) (offset : Int64) (now : UInt64)
    (stack : Block bs) :
    (∀ s', doWrite s path buffer size offset now stack = some (-enospc, s') → Intact s.disk i s'.disk) ↔
      ¬FailsLate bs (diskDir s.disk i) (file i) free size offset ∧
      ¬ReturnsEnospc bs (diskDir s.disk i) (file i) free size offset := by
  have hwf : WellFormed s.disk := ⟨n, free, file, h⟩
  obtain ⟨hi, hname⟩ := h.lookup_eq_some.1 hl
  constructor
  · intro hP
    refine ⟨fun ⟨hgrow, hne, hk⟩ => ?_, fun ⟨hsize, hfit, hk, hor⟩ => ?_⟩
    · obtain ⟨s', hs', hdir, -⟩ := doWrite_full buffer now stack h hi hname
        (Or.inr hgrow) hne hk
      exact not_intact_of_grown hgrow hdir (hP s' hs')
    · have hc : file i ≠ [] ∨ (diskDir s.disk i).sizeBytes < endOffset size offset := hor.symm.imp_left And.left
      obtain ⟨s', hs', hw, -⟩ := doWrite_done buffer now stack h hi hname hc
        (List.getElem?_eq_getElem hk) hfit
      rw [hsize] at hs'
      rcases hor with hgrow | ⟨-, hlen⟩
      · exact not_intact_of_grown hgrow hw.dir (hP s' hs')
      · refine not_intact_of_taken h (by omega) ?_ hw.wellFormed (hP s' hs')
        rintro rfl
        rw [List.append_nil] at hk
        omega
  · rintro ⟨hlate, hsize⟩ s' hs'
    rcases doWrite_cases h hi hname hs' with ⟨-, -, -, hsame⟩ | ⟨-, -, -, hd⟩ | ⟨-, hne, hk, -, -, -, hd⟩ |
      ⟨hc, blk, hk, hfit, hr, hw, hroot⟩
    · exact Intact.of_blocks hwf (hsame _ (by decide)) (hsame _ (by decide))
    · rw [hd]
      exact Intact.of_blocks hwf rfl rfl
    · rw [hd fun hgrow => hlate ⟨hgrow, hne, hk⟩]
      exact Intact.of_blocks hwf rfl rfl
    · have hlt := (List.getElem?_eq_some_iff.1 hk).1
      have hgrow : ¬(diskDir s.disk i).sizeBytes < endOffset size offset :=
        fun hg => hsize ⟨hr.symm, hfit, hlt, Or.inl hg⟩
      refine Intact.of_blocks hwf (hroot hgrow) (hw.map ?_)
      by_contra hlen
      exact hsize ⟨hr.symm, hfit, hlt, Or.inr ⟨hc.resolve_right hgrow, Nat.not_lt.1 hlen⟩⟩

/-- Writing past the end of the disk to an empty file fails late, writing inside it does not. -/
theorem doWrite_atomic_created :
    ¬(∀ s', doWrite (created mounted pathA) pathA (fun _ => 7) 1 4096 0 (fun _ => 0) = some (-enospc, s') →
        Intact (created mounted pathA).disk 0 s'.disk) ∧
      ∀ s', doWrite (created mounted pathA) pathA (fun _ => 7) 1 600 0 (fun _ => 0) = some (-enospc, s') →
        Intact (created mounted pathA).disk 0 s'.disk := by
  have hl : lookup (created mounted pathA).disk pathA.tail = some 0 := by decide
  constructor
  · intro hP
    exact absurd ((doWrite_atomic_iff wellFormedAt_created hl _ _ _ _ _).1 hP).1 (by decide)
  · exact (doWrite_atomic_iff wellFormedAt_created hl _ _ _ _ _).2 (by decide)

/-- The write that fails late leaves the size 4097 in the directory, and a first block that is also the first free
block. -/
theorem doWrite_not_atomic :
    WellFormed (created mounted pathA).disk ∧ lookup (created mounted pathA).disk pathA.tail = some 0 ∧
      ∃ s', doWrite (created mounted pathA) pathA (fun _ => 7) 1 4096 0 (fun _ => 0) = some (-enospc, s') ∧
        (diskDir (created mounted pathA).disk 0).sizeBytes = 0 ∧ (diskDir s'.disk 0).sizeBytes = 4097 ∧
        (diskDir s'.disk 0).firstBlock = diskMap s'.disk blkmapBid ∧
        diskBlock s'.disk rootdirBid ≠ diskBlock (created mounted pathA).disk rootdirBid := by
  have hev : (doWrite (created mounted pathA) pathA (fun _ => 7) 1 4096 0 fun _ => 0).map (fun x =>
      (x.1, (diskDir x.2.disk 0).sizeBytes, (diskDir x.2.disk 0).firstBlock, diskMap x.2.disk blkmapBid)) =
      some (-enospc, 4097, 2, 2) := by decide
  have hsize : (diskDir (created mounted pathA).disk 0).sizeBytes = 0 := by decide
  obtain ⟨⟨r, s'⟩, hs', hr⟩ := Option.map_eq_some_iff.1 hev
  simp only [Prod.mk.injEq] at hr
  obtain ⟨rfl, hsize', hfirst, hmap⟩ := hr
  refine ⟨⟨_, _, _, wellFormedAt_created⟩, by decide, s', hs', hsize, hsize', hfirst.trans hmap.symm, fun hroot => ?_⟩
  have hdir : diskDir s'.disk = diskDir (created mounted pathA).disk := congrArg Block.entry hroot
  rw [hdir, hsize] at hsize'
  exact absurd hsize' (by decide)

end Edaf35.Ssfs
