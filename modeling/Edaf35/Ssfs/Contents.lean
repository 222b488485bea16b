import Edaf35.Ssfs.Consistency

/-!
# The bytes of a file and what a write changes

`fileByte d chain p` is the byte at position `p` of a file whose chain is `chain`.  A write that reaches a block
changes the bytes `byteoffs`, ..., `byteoffs + crtsize - 1` of block number `blkoffs` and nothing else.  `blkoffs` is
the quotient `offset / BLOCK_SIZE` modulo 2^16, so from block number 2^16 on the bytes changed are not those at the
offset.
-/

namespace Edaf35.Ssfs

variable {bs : Nat} {δ : Type} [RawDisk bs δ]

/-- The byte at position `p` of a file with the blocks of `chain`. -/
def fileByte (d : δ) (chain : List Nat) (p : Nat) : Option UInt8 :=
  chain[p / bs]?.map fun id => (diskBlock d id).byte (p % bs)

variable {s s' : Fs bs δ} {n i k blk : Nat} {free : List Nat} {file : Nat → List Nat} {e : DirEntry}

theorem fileByte_congr {d d' : δ} {chain chain' : List Nat} {p : Nat} (hc : chain'[p / bs]? = chain[p / bs]?)
    (hd : ∀ id ∈ chain, diskBlock d' id = diskBlock d id) : fileByte d' chain' p = fileByte d chain p := by
  unfold fileByte
  rw [hc]
  cases hg : chain[p / bs]? with
  | none => rfl
  | some id => simp only [Option.map_some, hd id (List.mem_of_getElem? hg)]

theorem Partition.nodup_append {m first : Nat → Nat} (h : Partition m first n free file) (hi : i < n) :
    (file i ++ free).Nodup := by
  refine List.nodup_append.2 ⟨(h.fileChain i hi).nodup, h.freeChain.nodup, ?_⟩
  rintro a ha b hb rfl
  exact h.file_free i hi a ha hb

/-- The file after a write, block by block: the old chain and the blocks taken from the free list. -/
theorem take_append_getElem? (c free : List Nat) {j q : Nat} (hq : q < c.length + j) :
    (c ++ free.take j)[q]? = (c ++ free)[q]? := by
  by_cases hlt : q < c.length
  · rw [List.getElem?_append_left hlt, List.getElem?_append_left hlt]
  · rw [List.getElem?_append_right (by omega), List.getElem?_append_right (by omega), List.getElem?_take,
      if_pos (by omega)]

section Written

variable {o m : Nat} {buffer : Nat → UInt8}

theorem byte_overwrite (b : Block bs) {q : Nat} (hq : q < bs) :
    (overwrite b o buffer m).byte q = if o ≤ q ∧ q < o + m then buffer (q - o) else b.byte q := by
  simp only [Block.byte, dif_pos hq, overwrite]

/-- The bytes of the file after the write: those of the buffer in the range written, the old ones elsewhere. -/
theorem Written.fileByte_eq (hw : Written s n i free file k e blk (overwrite (diskBlock s.disk blk) o buffer m) s')
    (hp : Partition (diskMap s.disk) (fun j => (diskDir s.disk j).firstBlock) n free file) (hi : i < n)
    (hbs : 0 < bs) (hk : (file i ++ free)[k]? = some blk) {p : Nat}
    (hlt : p / bs < (file i).length + (k + 1 - (file i).length)) :
    fileByte s'.disk (file i ++ free.take (k + 1 - (file i).length)) p =
      if p / bs = k ∧ o ≤ p % bs ∧ p % bs < o + m then some (buffer (p % bs - o))
      else fileByte s.disk (file i ++ free) p := by
  unfold fileByte
  rw [take_append_getElem? _ _ hlt]
  by_cases hpk : p / bs = k
  · rw [hpk, hk]
    simp only [Option.map_some, hw.block, byte_overwrite _ (Nat.mod_lt p hbs), true_and]
    split <;> rfl
  · rw [if_neg fun h => hpk h.1]
    cases hg : (file i ++ free)[p / bs]? with
    | none => rfl
    | some id =>
      have hne : id ≠ blk := by
        rintro rfl
        obtain ⟨h₁, hg₁⟩ := List.getElem?_eq_some_iff.1 hg
        obtain ⟨h₂, hg₂⟩ := List.getElem?_eq_some_iff.1 hk
        exact hpk ((hp.nodup_append hi).getElem_inj_iff.1 (hg₁.trans hg₂.symm))
      simp only [Option.map_some, hw.data id (hp.data_of_mem hi (List.mem_of_getElem? hg)) hne]

/-- The other files keep their chains and their blocks. -/
theorem Written.other (hw : Written s n i free file k e blk (overwrite (diskBlock s.disk blk) o buffer m) s')
    (hp : Partition (diskMap s.disk) (fun j => (diskDir s.disk j).firstBlock) n free file) (hi : i < n)
    (hk : (file i ++ free)[k]? = some blk) {j : Nat} (hj : j < n) (hji : j ≠ i) :
    diskDir s'.disk j = diskDir s.disk j ∧
      IsChain (diskMap s'.disk) eofBlock (diskDir s'.disk j).firstBlock (file j) ∧
      ∀ id ∈ file j, diskBlock s'.disk id = diskBlock s.disk id := by
  have hchain := hw.wellFormed.partition.fileChain j hj
  rw [Function.update_of_ne hji] at hchain
  refine ⟨by rw [hw.dir, Function.update_of_ne hji], hchain, fun id hid => hw.data id (hp.file_data j hj id hid) ?_⟩
  rintro rfl
  rcases List.mem_append.1 (List.mem_of_getElem? hk) with hm | hm
  · exact hp.file_file j i hj hi hji id hid hm
  · exact hp.file_free j hj id hid hm

end Written

end Edaf35.Ssfs
