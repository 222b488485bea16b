import Edaf35.Ssfs.Support

/-!
# The file operations of `ssfs.c`

Each operation takes the state (disk and caches) and gives the returned `int` and the state after it.  `none` stands
for an access past the end of an array, and for a loop of `do_truncate` that did not end within `fuel` iterations.
The clock is an argument; `time_t` is its 64-bit pattern.  `stack` is what the local array `bcache` holds before a
block is read into it, and `buffer` the bytes the caller passes.
-/

namespace Edaf35.Ssfs

def enoent : Int := 2
def enfile : Int := 23
def enospc : Int := 28

variable {bs : Nat} {δ : Type}

/-- The conversion of a `size_t` to the returned `int`. -/
def asInt (size : Nat) : Int := Int.bmod size (2 ^ 32)

/-! ### Where a read or a write starts -/

/-- `unsigned short blkoffs = offset/BLOCK_SIZE`. -/
def blkoffs (bs : Nat) (offset : Int64) : Nat := (offset.toInt.tdiv bs % 65536).toNat

/-- `unsigned short byteoffs = offset%BLOCK_SIZE`. -/
def byteoffs (bs : Nat) (offset : Int64) : Nat := (offset.toInt.tmod bs % 65536).toNat

/-- `unsigned short crtsize = min(size, BLOCK_SIZE - byteoffs)`, the comparison being made in `size_t`. -/
def crtsize (bs : Nat) (size : UInt64) (offset : Int64) : Nat :=
  min size.toNat (((bs : Int) - byteoffs bs offset) % 2 ^ 64).toNat % 65536

/-- `offset + size`, an unsigned 64-bit sum. -/
def endOffset (size : UInt64) (offset : Int64) : Nat := ((offset.toInt + size.toNat) % 2 ^ 64).toNat

/-! ### Paths and attributes -/

/-- The path "/". -/
def rootPath : List UInt8 := [47]

/-- `strcmp( path, "/" ) == 0`. -/
def isRoot (path : List UInt8) : Bool := cstr path = cstr rootPath

/-- What `snprintf` puts into a buffer of `n` characters for the format "%s". -/
def snprintf (n : Nat) (s : List UInt8) : List UInt8 := (cstr s).take (n - 1)

/-- The fields of `struct stat` that `do_getattr` sets. -/
structure Stat where
  uid : UInt32
  gid : UInt32
  atime : UInt64
  mtime : UInt64
  mode : Nat
  nlink : Nat
  size : Nat
  deriving DecidableEq

/-- `S_IFDIR | 0755`. -/
def dirMode : Nat := 0o040755

/-- `S_IFREG | 0644`. -/
def regMode : Nat := 0o100644

section Operations

variable [RawDisk bs δ]

/-- `do_getattr` on the structure `st`, in a process of the user `uid` and the group `gid`. -/
def doGetattr (s : Fs bs δ) (path : List UInt8) (st : Stat) (uid gid : UInt32) (now : UInt64) : Int × Stat × Fs bs δ :=
  let st := { st with uid := uid, gid := gid, atime := now }
  if isRoot path then (0, { st with mode := dirMode, nlink := 2 }, s)
  else
    let st := { st with mode := regMode, nlink := 1, size := 1024 }
    let s := loadDirectory s
    match findDirEntry s.bdir path.tail with
    | some di =>
      let de := s.bdir.entry di
      (0, { st with size := de.sizeBytes, mode := de.mode, mtime := de.lastMod.toUInt64 }, s)
    | none => (-enoent, st, s)

/-- The loop of `do_readdir` from entry `i`, with `k` entries left: the names it passes to `filler`. -/
def readdirLoop (rootb : Block bs) : Nat → Nat → List (List UInt8)
  | 0, _ => []
  | k + 1, i =>
    if (rootb.entry i).isEmpty then []
    else snprintf fsNameLen (rootb.entry i).name :: readdirLoop rootb k (i + 1)

/-- `do_readdir`: the returned `int` and the names passed to `filler`; `stack` is what the local `rootb` holds. -/
def doReaddir (s : Fs bs δ) (path : List UInt8) (stack : Block bs) : Int × List (List UInt8) :=
  let dots := [[46], [46, 46]]
  if isRoot path then (0, dots ++ readdirLoop (readBlock s.disk rootdirBid stack) (dirEntriesPerBlock bs) 0)
  else (-1, dots)

/-! ### Reading -/

def doRead (s : Fs bs δ) (path : List UInt8) (size : UInt64) (offset : Int64) (stack : Block bs) :
    Option (Int × List UInt8 × Fs bs δ) :=
  let s := loadDirectory s
  match findDirEntry s.bdir path.tail with
  | none => some (-enoent, [], s)
  | some di =>
    let n := crtsize bs size offset
    -- the number of the block in the file is not used
    let crtblk := (s.bdir.entry di).firstBlock
    let bcache := readBlock s.disk crtblk stack
    if byteoffs bs offset + n ≤ bs then
      some (n, (List.range n).map fun k => bcache.byte (byteoffs bs offset + k), s)
    else none

/-! ### Writing -/

/-- The part of `do_write` that makes the file grow; `false` is its first return of -ENOSPC. -/
def growFile (s : Fs bs δ) (di newSize : Nat) (now : UInt64) : Option (Bool × Fs bs δ) :=
  if newSize > (s.bdir.entry di).sizeBytes then do
    let (found, s) ←
      if (s.bdir.entry di).firstBlock = eofBlock then do
        let (bid, bmap) ← allocateBlock s.bmap
        pure (bid != eofBlock, { s with bmap := bmap, bdir := setFirstBlock s.bdir di bid })
      else pure (true, s)
    if found then
      let s := { s with bdir := setLastMod (setSizeBytes s.bdir di newSize) di now.toNat }
      -- the directory is saved here, the block map at the end of `do_write`
      pure (true, saveDirectory s)
    else pure (false, s)
  else some (true, s)

/-- The loop `while (blkoffs)`: the block it ends at, or `none` for its return of -ENOSPC, and the map. -/
def navigate : Nat → Block bs → Nat → Option (Option Nat × Block bs)
  | 0, bmap, crtblk => some (some crtblk, bmap)
  | blkoffs + 1, bmap, crtblk => do
    let next ← getId bmap crtblk
    if next ≠ eofBlock then navigate blkoffs bmap next
    else
      let (nblk, bmap) ← allocateBlock bmap
      if nblk = eofBlock then pure (none, bmap)
      else
        let bmap ← setId bmap crtblk nblk
        navigate blkoffs bmap nblk

/-- The block `bcache` with `n` bytes of `buffer` copied to index `o`. -/
def overwrite (bcache : Block bs) (o : Nat) (buffer : Nat → UInt8) (n : Nat) : Block bs :=
  fun k => if o ≤ k.val ∧ k.val < o + n then buffer (k - o) else bcache k

/-- `memcpy(bcache+o, buffer, n)`. -/
def memcpyBlock (bcache : Block bs) (o : Nat) (buffer : Nat → UInt8) (n : Nat) : Option (Block bs) :=
  if o + n ≤ bs then some (overwrite bcache o buffer n) else none

def doWrite (s : Fs bs δ) (path : List UInt8) (buffer : Nat → UInt8) (size : UInt64) (offset : Int64)
    (now : UInt64) (stack : Block bs) : Option (Int × Fs bs δ) :=
  let s := loadDirectory s
  match findDirEntry s.bdir path.tail with
  | none => some (-enoent, s)
  | some di => do
    let s := loadBlockmap s
    let (grown, s) ← growFile s di (endOffset size offset) now
    if !grown then pure (-enospc, s)
    else
      let (crtblk?, bmap) ← navigate (blkoffs bs offset) s.bmap (s.bdir.entry di).firstBlock
      let s := { s with bmap := bmap }
      match crtblk? with
      | none => pure (-enospc, s)
      | some crtblk =>
        let bcache := readBlock s.disk crtblk stack
        let bcache ← memcpyBlock bcache (byteoffs bs offset) buffer (crtsize bs size offset)
        let s := { s with disk := writeBlock s.disk crtblk bcache }
        let s := saveBlockmap s
        -- all of `size`, however many bytes the block had room for
        pure (asInt size.toNat, s)

/-! ### Truncating, unlinking, renaming, creating -/

/-- The loop of `do_truncate` that frees the blocks of entry `di`. -/
def freeBlocks (di : Nat) : Nat → Fs bs δ → Option (Fs bs δ)
  | 0, _ => none
  | fuel + 1, s =>
    let firstBlock := (s.bdir.entry di).firstBlock
    if firstBlock = eofBlock then some s
    else do
      let next ← getId s.bmap firstBlock
      let (_, bmap) ← freeBlock s.bmap firstBlock
      freeBlocks di fuel { s with bmap := bmap, bdir := setFirstBlock s.bdir di next }

def doTruncate (fuel : Nat) (s : Fs bs δ) (path : List UInt8) (now : UInt64) : Option (Int × Fs bs δ) :=
  let s := loadDirectory s
  match findDirEntry s.bdir path.tail with
  | none => some (-enoent, s)
  | some di => do
    let s := { s with bdir := setSizeBytes s.bdir di 0 }
    let s := loadBlockmap s
    let s ← freeBlocks di fuel s
    let s := saveBlockmap s
    let s := { s with bdir := setLastMod s.bdir di now.toNat }
    pure (0, saveDirectory s)

def doUnlink (fuel : Nat) (s : Fs bs δ) (path : List UInt8) (now : UInt64) : Option (Int × Fs bs δ) :=
  let s := loadDirectory s
  match findDirEntry s.bdir path.tail with
  | none => some (-enoent, s)
  | some di => do
    let (_, s) ← doTruncate fuel s path now
    let s := { s with bdir := scoochDirEntries s.bdir di }
    pure (0, saveDirectory s)

/-- `do_rename`; the clock is read once in the call of `do_unlink` and once after it. -/
def doRename (fuel : Nat) (s : Fs bs δ) (opath npath : List UInt8) (now now' : UInt64) : Option (Int × Fs bs δ) :=
  let s := loadDirectory s
  match findDirEntry s.bdir opath.tail with
  | none => some (-enoent, s)
  | some di => do
    let (_, s) ← doUnlink fuel s npath now
    -- the index `di` was found before `do_unlink` moved the entries
    let bdir := setName s.bdir di (cstr npath.tail)
    let s := { s with bdir := setLastMod bdir di now'.toNat }
    pure (0, saveDirectory s)

def doCreate (s : Fs bs δ) (path : List UInt8) (m : UInt32) (now : UInt64) : Option (Int × Fs bs δ) :=
  let s := loadDirectory s
  match firstEmptyDirEntry s.bdir with
  | none => some (-enfile, s)
  | some ni =>
    let bdir := setName s.bdir ni (cstr path.tail)
    let bdir := setMode bdir ni m.toNat
    let bdir := setSizeBytes bdir ni 0
    let bdir := setFirstBlock bdir ni eofBlock
    let bdir := setLastMod bdir ni now.toNat
    some (0, saveDirectory { s with bdir := bdir })

end Operations

end Edaf35.Ssfs
