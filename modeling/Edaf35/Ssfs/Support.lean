import Edaf35.Ssfs.Layout

/-!
# The functions of `fs_support.c`

The directory block and the block map are cached in the globals `bdir` and `bmap`; each function reads or changes
the caches and moves whole blocks between them and the disk.  `none` stands for an access past the end of an array.
`find_dir_entry` and `first_empty_dir_entry` return `none` for -1.  A path and a name are their characters, which
end at the first zero.
-/

namespace Edaf35.Ssfs

/-! ### C strings -/

def strncmp : List UInt8 → List UInt8 → Nat → Int
  | _, _, 0 => 0
  | s, t, n + 1 =>
    let x := s.headD 0
    let y := t.headD 0
    if x ≠ y then (x.toNat : Int) - y.toNat
    else if x = 0 then 0 else strncmp s.tail t.tail n

/-- The characters `strncpy` copies from `s`: those before the terminating zero. -/
def cstr (s : List UInt8) : List UInt8 := s.takeWhile (· ≠ 0)

/-- What `strncmp` with bound `n` looks at. -/
def nameKey : Nat → List UInt8 → List UInt8
  | 0, _ => []
  | n + 1, s => if s.headD 0 = 0 then [] else s.headD 0 :: nameKey n s.tail

/-- The key starts with the first character of the string, unless the string is empty. -/
private theorem headD_nameKey_succ (n : Nat) (s : List UInt8) : (nameKey (n + 1) s).headD 0 = s.headD 0 := by
  unfold nameKey
  split
  · next h => exact h.symm
  · rfl

theorem strncmp_eq_zero_iff {s t : List UInt8} {n : Nat} : strncmp s t n = 0 ↔ nameKey n s = nameKey n t := by
  induction n generalizing s t with
  | zero => exact iff_of_true rfl rfl
  | succ n ih =>
    unfold strncmp
    by_cases hxy : s.headD 0 = t.headD 0
    · rw [if_neg (not_not.2 hxy), nameKey, nameKey, hxy]
      by_cases h0 : t.headD 0 = 0
      · simp only [h0, if_true]
      · simp only [h0, if_false, ih, List.cons.injEq, true_and]
    · -- the strings differ at the first character, and so do their keys
      have hne : ((s.headD 0).toNat : Int) - (t.headD 0).toNat ≠ 0 := by
        intro h
        exact hxy (UInt8.toNat_inj.1 (by omega))
      rw [if_pos hxy]
      refine iff_of_false hne fun h => hxy ?_
      rw [← headD_nameKey_succ n s, h, headD_nameKey_succ]

theorem nameKey_padName (s : List UInt8) : nameKey fsNameLen (padName (cstr s)) = nameKey fsNameLen s := by
  suffices key : ∀ n (s : List UInt8),
      nameKey n ((List.range n).map fun k => (cstr s).getD k 0) = nameKey n s from key fsNameLen s
  intro n
  induction n with
  | zero => intro s; rfl
  | succ n ih =>
    intro s
    have hrange : List.range (n + 1) = 0 :: (List.range n).map (· + 1) := List.range_succ_eq_map
    cases s with
    | nil => simp [hrange, nameKey, cstr]
    | cons x s =>
      by_cases hx : x = 0
      · subst hx
        simp [hrange, nameKey, cstr]
      · have := ih s
        simp only [cstr] at this
        simp [hrange, nameKey, cstr, hx, ← this, Function.comp_def]

/-- A name is empty when its first character is zero. -/
private theorem nameKey_eq_nil_iff (s : List UInt8) : nameKey fsNameLen s = [] ↔ s.headD 0 = 0 := by
  have hlen : fsNameLen = (fsNameLen - 1) + 1 := rfl
  rw [hlen, nameKey]
  split
  · next h => exact iff_of_true rfl h
  · next h => exact iff_of_false (List.cons_ne_nil _ _) h

theorem isEmpty_iff (e : DirEntry) : e.isEmpty = true ↔ nameKey fsNameLen e.name = [] := by
  rw [nameKey_eq_nil_iff]
  simp [DirEntry.isEmpty]

/-! ### The block map -/

variable {bs : Nat} {δ : Type}

/-- `freeBlock`: the id the freed block pointed to, and the map. -/
def freeBlock (blocks : Block bs) (freedId : Nat) : Option (Nat × Block bs) := do
  let bid ← getId blocks freedId
  let first ← getId blocks 0
  let blocks ← setId blocks freedId first
  let blocks ← setId blocks 0 freedId
  return (bid, blocks)

/-- `allocateBlock`: the id of a block taken from the free list, or `EOF_BLOCK`, and the map. -/
def allocateBlock (blocks : Block bs) : Option (Nat × Block bs) := do
  let bid ← getId blocks 0
  if bid = 0 then
    return (eofBlock, blocks)
  else
    let next ← getId blocks bid
    let blocks ← setId blocks 0 next
    let blocks ← setId blocks bid eofBlock
    return (bid, blocks)

theorem freeBlock_of_lt (b : Block bs) {id : Nat} (h : id < blockidsPerBlock bs) :
    freeBlock b id = some (b.ids id, (b.store (2 * id) 2 (b.ids 0)).store (2 * 0) 2 id) := by
  have h0 : 0 < blockidsPerBlock bs := by omega
  simp [freeBlock, getId_of_lt, setId, h, h0]

theorem allocateBlock_zero (b : Block bs) (h0 : 0 < blockidsPerBlock bs) (h : b.ids 0 = 0) :
    allocateBlock b = some (eofBlock, b) := by
  simp [allocateBlock, getId_of_lt b h0, h]

theorem allocateBlock_of_lt (b : Block bs) {id : Nat} (hid : b.ids 0 = id) (hne : id ≠ 0)
    (h : id < blockidsPerBlock bs) :
    allocateBlock b = some (id, (b.store (2 * 0) 2 (b.ids id)).store (2 * id) 2 eofBlock) := by
  have h0 : 0 < blockidsPerBlock bs := by omega
  simp [allocateBlock, getId_of_lt, setId, h, h0, hid, hne]

/-- The disk and the two caches. -/
structure Fs (bs : Nat) (δ : Type) where
  disk : δ
  bdir : Block bs
  bmap : Block bs

section Caches

variable [RawDisk bs δ]

def loadBlockmap (s : Fs bs δ) : Fs bs δ := { s with bmap := readBlock s.disk blkmapBid s.bmap }

def saveBlockmap (s : Fs bs δ) : Fs bs δ := { s with disk := writeBlock s.disk blkmapBid s.bmap }

def loadDirectory (s : Fs bs δ) : Fs bs δ := { s with bdir := readBlock s.disk rootdirBid s.bdir }

def saveDirectory (s : Fs bs δ) : Fs bs δ := { s with disk := writeBlock s.disk rootdirBid s.bdir }

end Caches

/-! ### The directory -/

/-- The loop of `find_dir_entry` from index `di`, with `k` entries left. -/
def findLoop (bdir : Block bs) (path : List UInt8) : Nat → Nat → Option Nat
  | 0, _ => none
  | k + 1, di =>
    if (bdir.entry di).isEmpty then none
    else if strncmp path (bdir.entry di).name fsNameLen = 0 then some di
    else findLoop bdir path k (di + 1)

def findDirEntry (bdir : Block bs) (path : List UInt8) : Option Nat :=
  findLoop bdir path (dirEntriesPerBlock bs) 0

/-- The loop of `first_empty_dir_entry`. -/
def firstEmptyLoop (bdir : Block bs) : Nat → Nat → Option Nat
  | 0, _ => none
  | k + 1, di => if (bdir.entry di).isEmpty then some di else firstEmptyLoop bdir k (di + 1)

def firstEmptyDirEntry (bdir : Block bs) : Option Nat := firstEmptyLoop bdir (dirEntriesPerBlock bs) 0

/-- The loop of `scooch_dir_entries` from index `di`, with `k` entries after it, and the assignment that follows. -/
def scoochLoop : Nat → Nat → Block bs → Block bs
  | 0, di, bdir => clearName bdir di
  | k + 1, di, bdir =>
    if (bdir.entry (di + 1)).isEmpty then clearName bdir di
    else scoochLoop k (di + 1) (copyEntry bdir di (di + 1))

def scoochDirEntries (bdir : Block bs) (di : Nat) : Block bs :=
  scoochLoop (dirEntriesPerBlock bs - 1 - di) di bdir

end Edaf35.Ssfs
