import Edaf35.Ssfs.Contents

/-!
# What a successful write leaves alone

A write to the positions from `lo` to `hi` should change no other byte the file has, and nothing of another file.
`do_write` never touches another file.  In the file itself it is right for every offset before block number 2^16; from
there on it writes to block number `offset / BLOCK_SIZE` modulo 2^16, which changes a byte before the range if the
file has that block and it does not hold the bytes written already.
-/

namespace Edaf35.Ssfs

variable {bs : Nat} {δ : Type} [RawDisk bs δ]

/-- From `d` to `d'` the file at entry `i` changes at most in the positions from `lo` to `hi` and at its end, and no
other file changes its size, its chain or its blocks. -/
structure Framed (d : δ) (i lo hi : Nat) (d' : δ) : Prop where
  inside : ∀ c, IsChain (diskMap d) eofBlock (diskDir d i).firstBlock c →
    ∃ c', IsChain (diskMap d') eofBlock (diskDir d' i).firstBlock c' ∧
      ∀ p, p / bs < c.length → (p < lo ∨ hi ≤ p) → fileByte d' c' p = fileByte d c p
  others : ∀ q j, lookup d q = some j → j ≠ i → lookup d' q = some j ∧
    (diskDir d' j).sizeBytes = (diskDir d j).sizeBytes ∧ (diskDir d' j).firstBlock = (diskDir d j).firstBlock ∧
    ∀ c, IsChain (diskMap d) eofBlock (diskDir d j).firstBlock c →
      IsChain (diskMap d') eofBlock (diskDir d' j).firstBlock c ∧ ∀ id ∈ c, diskBlock d' id = diskBlock d id

/-- Block number `offset / BLOCK_SIZE` is below 2^16, or the file has no block of the number the offset is mapped to,
or that block holds the bytes already. -/
def InRange (bs : Nat) [RawDisk bs δ] (d : δ) (c : List Nat) (buffer : Nat → UInt8) (size offset : Nat) : Prop :=
  offset / bs < 65536 ∨ c.length ≤ offset / bs % 65536 ∨
    ∀ k, k < min size (bs - offset % bs) →
      fileByte d c (bs * (offset / bs % 65536) + offset % bs + k) = some (buffer k)

variable {s s' : Fs bs δ} {n i k blk : Nat} {free : List Nat} {file : Nat → List Nat}
  {path : List UInt8} {e : DirEntry} {buffer : Nat → UInt8}

private theorem Framed.of_same (hsame : ∀ id, id < fsNblocks → diskBlock s'.disk id = diskBlock s.disk id)
    (h : WellFormedAt bs (diskMap s.disk) (diskDir s.disk) n free file) (hi : i < n) (lo hi' : Nat) :
    Framed s.disk i lo hi' s'.disk := by
  have hd : diskDir s'.disk = diskDir s.disk := congrArg Block.entry (hsame rootdirBid (by decide))
  have hm : diskMap s'.disk = diskMap s.disk := congrArg Block.ids (hsame blkmapBid (by decide))
  constructor
  · intro c hc
    refine ⟨c, by rwa [hm, hd], fun p _ _ => fileByte_congr rfl fun id hid => hsame id ?_⟩
    rw [hc.unique (h.partition.fileChain i hi)] at hid
    exact (h.partition.file_data i hi id hid).2
  · intro q j hj _
    have hjn := (h.lookup_eq_some.1 hj).1
    refine ⟨?_, by rw [hd], by rw [hd], fun c hc => ⟨by rwa [hm, hd], fun id hid => hsame id ?_⟩⟩
    · rw [lookup, hsame rootdirBid (by decide)]; exact hj
    · rw [hc.unique (h.partition.fileChain j hjn)] at hid
      exact (h.partition.file_data j hjn id hid).2

private theorem fileByte_append (d : δ) {c l : List Nat} {p : Nat} (hp : p / bs < c.length) :
    fileByte d (c ++ l) p = fileByte d c p := by
  unfold fileByte
  rw [List.getElem?_append_left hp]

variable [LawfulRawDisk bs δ]

/-- A write that reaches a block is framed if each byte it changes is in the range or gets the value it has. -/
private theorem Written.framed {o m lo hi' : Nat}
    (hw : Written s n i free file k e blk (overwrite (diskBlock s.disk blk) o buffer m) s')
    (h : WellFormedAt bs (diskMap s.disk) (diskDir s.disk) n free file) (hi : i < n)
    (hk : (file i ++ free)[k]? = some blk)
    (hin : ∀ p, p / bs < (file i).length → p / bs = k → o ≤ p % bs → p % bs < o + m →
      (lo ≤ p ∧ p < hi') ∨ fileByte s.disk (file i) p = some (buffer (p % bs - o))) :
    Framed s.disk i lo hi' s'.disk := by
  have hpos : 0 < bs := LawfulRawDisk.blockSize_pos (δ := δ)
  constructor
  · intro c hc
    obtain rfl := hc.unique (h.partition.fileChain i hi)
    have hchain := hw.wellFormed.partition.fileChain i hi
    rw [Function.update_self] at hchain
    refine ⟨_, hchain, fun p hp hout => ?_⟩
    rw [hw.fileByte_eq h.partition hi hpos hk (by omega), fileByte_append _ hp]
    split
    · rename_i hr
      rcases hin p hp hr.1 hr.2.1 hr.2.2 with hlo | heq
      · omega
      · exact heq.symm
    · rfl
  · intro q j hj hji
    obtain ⟨hjn, hname⟩ := h.lookup_eq_some.1 hj
    obtain ⟨hdir, hchain, hblk⟩ := hw.other h.partition hi hk hjn hji
    refine ⟨hw.wellFormed.lookup_eq_some.2 ⟨hjn, hdir ▸ hname⟩, by rw [hdir], by rw [hdir], fun c hc => ?_⟩
    obtain rfl := hc.unique (h.partition.fileChain j hjn)
    exact ⟨hchain, hblk⟩

/-- A byte of block number `k` that lies outside the range and changes. -/
private theorem Written.not_framed {o m lo hi' j : Nat}
    (hw : Written s n i free file k e blk (overwrite (diskBlock s.disk blk) o buffer m) s')
    (h : WellFormedAt bs (diskMap s.disk) (diskDir s.disk) n free file) (hi : i < n)
    (hk : (file i ++ free)[k]? = some blk) (hlt : k < (file i).length) (hj : j < m) (hfit : o + m ≤ bs)
    (hout : bs * k + o + j < lo) (hne : fileByte s.disk (file i) (bs * k + o + j) ≠ some (buffer j)) :
    ¬Framed s.disk i lo hi' s'.disk := by
  have hpos : 0 < bs := LawfulRawDisk.blockSize_pos (δ := δ)
  have hdiv : (bs * k + o + j) / bs = k := by
    rw [Nat.add_assoc, Nat.mul_add_div hpos, Nat.div_eq_of_lt (by omega), Nat.add_zero]
  have hmod : (bs * k + o + j) % bs = o + j := by
    rw [Nat.add_assoc, Nat.mul_add_mod, Nat.mod_eq_of_lt (by omega)]
  intro hf
  obtain ⟨c', hc', hsame⟩ := hf.inside _ (h.partition.fileChain i hi)
  have hchain := hw.wellFormed.partition.fileChain i hi
  rw [Function.update_self] at hchain
  obtain rfl := hc'.unique hchain
  have hold := hsame _ (by rw [hdiv]; exact hlt) (Or.inl hout)
  rw [hw.fileByte_eq h.partition hi hpos hk (by rw [hdiv]; omega), hdiv, hmod,
    if_pos ⟨rfl, by omega, by omega⟩, Nat.add_sub_cancel_left] at hold
  exact hne hold.symm

/-- A successful write stays inside its range if and only if its offset is below block number 2^16, or the block it is
mapped to is not one of the file's blocks, or holds the bytes already (or its size reads as a negative `int`, so that
the write does not return a size). -/
theorem doWrite_framed_iff (h : WellFormedAt bs (diskMap s.disk) (diskDir s.disk) n free file)
    (hl : lookup s.disk path.tail = some i) (buffer : Nat → UInt8) (size : UInt64) (offset : Int64)
    (hoff : 0 ≤ offset.toInt) (now : UInt64) (stack : Block bs) :
    (∀ r s', doWrite s path buffer size offset now stack = some (r, s') → 0 ≤ r →
        Framed s.disk i offset.toInt.toNat (offset.toInt.toNat + size.toNat) s'.disk) ↔
      asInt size.toNat < 0 ∨ InRange bs s.disk (file i) buffer size.toNat offset.toInt.toNat := by
  have hpos : 0 < bs := LawfulRawDisk.blockSize_pos (δ := δ)
  have hbs : bs < 65536 := LawfulRawDisk.blockSize_lt (δ := δ)
  obtain ⟨hi, hname⟩ := h.lookup_eq_some.1 hl
  have hfit := fits_of_nonneg size hbs hpos hoff
  set p₀ := offset.toInt.toNat with hp₀
  have hblk : blkoffs bs offset = p₀ / bs % 65536 := blkoffs_eq hoff
  have hbyte : byteoffs bs offset = p₀ % bs := byteoffs_eq hbs hpos hoff
  have hcrt : crtsize bs size offset = min size.toNat (bs - p₀ % bs) := crtsize_eq size hbs hpos hoff
  have hp₀eq := Nat.div_add_mod p₀ bs
  constructor
  · intro hP
    by_contra hcon
    simp only [InRange, not_or, Int.not_lt, Nat.not_le, not_forall] at hcon
    obtain ⟨hr, hbig, hlt, j, hj, hne⟩ := hcon
    have hcf : file i ≠ [] := by rintro hn; simp [hn] at hlt
    have hk : (file i ++ free)[blkoffs bs offset]? = some ((file i)[p₀ / bs % 65536]) := by
      rw [hblk, List.getElem?_append_left hlt, List.getElem?_eq_getElem hlt]
    obtain ⟨s', hs', hw, -⟩ := doWrite_done buffer now stack h hi hname (Or.inl hcf) hk
      hfit
    refine hw.not_framed h hi hk (hblk ▸ hlt) (j := j) (hcrt ▸ hj) hfit ?_ ?_ (hP _ s' hs' hr)
    · -- the block number is too small by at least 2^16
      have hle : bs * (p₀ / bs % 65536 + 1) ≤ bs * (p₀ / bs) := Nat.mul_le_mul_left _ (by omega)
      rw [Nat.mul_add] at hle
      rw [hblk, hbyte]
      have := Nat.mod_lt p₀ hpos
      omega
    · rw [hblk, hbyte]
      exact hne
  · rintro hcond r s' hs' hr
    rcases doWrite_cases h hi hname hs' with ⟨-, -, -, hsame⟩ | ⟨-, -, hfull, -⟩ | ⟨-, -, -, hfull, -⟩ |
      ⟨-, blk, hk, -, hret, hw, -⟩
    · exact Framed.of_same hsame h hi _ _
    · rw [hfull] at hr
      exact absurd hr (by decide)
    · rw [hfull] at hr
      exact absurd hr (by decide)
    · rw [hret] at hr
      apply hw.framed h hi hk
      intro p hp hpk hle hlt
      have hpeq := Nat.div_add_mod p bs
      rw [hblk] at hpk
      rw [hbyte] at hle hlt ⊢
      rw [hcrt] at hlt
      rcases hcond with hneg | hsmall | hlen | hsame
      · exact absurd hneg (Int.not_lt.2 hr)
      · left
        rw [Nat.mod_eq_of_lt hsmall] at hpk
        rw [hpk] at hpeq
        omega
      · omega
      · right
        have := hsame (p % bs - p₀ % bs) (by omega)
        rwa [← hpk, Nat.add_assoc, Nat.add_sub_cancel' hle, hpeq] at this

/-! ### An offset of 2^16 blocks -/

/-- A write at byte 1 is framed, a write of another byte at block number 2^16 is not. -/
theorem doWrite_framed_wrote :
    (∀ r s', doWrite (wrote (created mounted pathA) pathA) pathA (fun _ => 9) 1 1 0 (fun _ => 0) = some (r, s') →
        0 ≤ r → Framed (wrote (created mounted pathA) pathA).disk 0 1 2 s'.disk) ∧
      ¬∀ r s', doWrite (wrote (created mounted pathA) pathA) pathA (fun _ => 9) 1 33554432 0 (fun _ => 0) =
        some (r, s') → 0 ≤ r → Framed (wrote (created mounted pathA) pathA).disk 0 33554432 33554433 s'.disk := by
  have hl : lookup (wrote (created mounted pathA) pathA).disk pathA.tail = some 0 := by decide
  constructor
  · exact (doWrite_framed_iff wellFormedAt_wrote hl (fun _ => 9) 1 1 (by decide) 0
      fun _ => 0).2 (Or.inr (Or.inl (by decide)))
  · intro hP
    rcases (doWrite_framed_iff wellFormedAt_wrote hl (fun _ => 9) 1 33554432 (by decide) 0
      fun _ => 0).1 hP with hneg | hsmall | hlen | hsame
    · exact absurd hneg (by decide)
    · exact absurd hsmall (by decide)
    · exact absurd hlen (by decide)
    · exact absurd (hsame 0 (by decide)) (by decide)

/-- The write at block number 2^16 returns 1 and changes the first byte of the file from 7 to 9. -/
theorem doWrite_wraps :
    WellFormed (wrote (created mounted pathA) pathA).disk ∧
      lookup (wrote (created mounted pathA) pathA).disk pathA.tail = some 0 ∧
      ∃ s', doWrite (wrote (created mounted pathA) pathA) pathA (fun _ => 9) 1 33554432 0 (fun _ => 0) =
          some (1, s') ∧
        fileByte (wrote (created mounted pathA) pathA).disk [2] 0 = some 7 ∧ fileByte s'.disk [2] 0 = some 9 ∧
        ¬Framed (wrote (created mounted pathA) pathA).disk 0 33554432 33554433 s'.disk := by
  have hev : (doWrite (wrote (created mounted pathA) pathA) pathA (fun _ => 9) 1 33554432 0 fun _ => 0).map (fun x =>
      (x.1, (diskDir x.2.disk 0).firstBlock, diskMap x.2.disk 2, fileByte x.2.disk [2] 0)) =
      some (1, 2, eofBlock, some 9) := by decide
  have hold : fileByte (wrote (created mounted pathA) pathA).disk [2] 0 = some 7 := by decide
  obtain ⟨⟨r, s'⟩, hs', hr⟩ := Option.map_eq_some_iff.1 hev
  simp only [Prod.mk.injEq] at hr
  obtain ⟨rfl, hfirst, hmap, hnew⟩ := hr
  refine ⟨⟨_, _, _, wellFormedAt_wrote⟩, by decide, s', hs', hold, hnew, fun hf => ?_⟩
  obtain ⟨c', hc', hsame⟩ := hf.inside [2] (wellFormedAt_wrote.partition.fileChain 0 (by decide))
  have hchain : IsChain (diskMap s'.disk) eofBlock (diskDir s'.disk 0).firstBlock [2] :=
    ⟨hfirst, by decide, hmap⟩
  have := hsame 0 (by decide) (by decide)
  rw [hc'.unique hchain, hnew, hold] at this
  exact absurd this (by decide)

end Edaf35.Ssfs
