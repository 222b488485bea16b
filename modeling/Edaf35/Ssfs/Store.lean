import Edaf35.Ssfs.Session

/-!
# The file system as a list of files

What the file system is for, without a disk: a list of files, each with its data in a list of blocks, and a stack of
free blocks.  There are no numbers of blocks, no chains and no caches.  A call that the disk cannot serve without
harm has no answer: a negative offset, a write behind the first block of a file that has none and does not grow, a
write that runs out of blocks after the first block of the file was allocated, and a renaming onto a name whose file
comes before the renamed one.
-/

namespace Edaf35.Ssfs

variable {bs : Nat}

/-! ### Requests -/

/-- The requests to the file system, and a start of the program on the same disk. -/
inductive Request (bs : Nat) where
  | getattr (name : List UInt8) (st : Stat) (uid gid : UInt32) (now : UInt64)
  | readdir (stack : Block bs)
  | call (c : Call bs)
  | rename (o nm : List UInt8) (now now' : UInt64)
  | remount (bdir bmap : Block bs)

/-- The names in a request are names; `getattr` may also ask for the root. -/
def Request.Named : Request bs → Prop
  | .getattr name _ _ _ _ => name = [] ∨ IsName name
  | .call c => IsName c.name
  | .rename o nm _ _ => IsName o ∧ IsName nm
  | _ => True

/-- The answers; the bytes that were read may be left open. -/
inductive Response where
  | attr (r : Int) (st : Stat)
  | names (r : Int) (l : List (List UInt8))
  | data (r : Int) (bytes : Option (List UInt8))
  | status (r : Int)

/-- An answer that meets what is expected. -/
def Response.Meets : Response → Response → Prop
  | .data r none, .data r' _ => r' = r
  | expected, actual => actual = expected

theorem Response.Meets.refl (a : Response) : a.Meets a := by
  cases a with
  | data r bytes => cases bytes <;> rfl
  | _ => rfl

def Call.response (c : Call bs) (a : Answer) : Response :=
  match c with
  | .read _ _ _ _ => .data a.ret (some a.bytes)
  | _ => .status a.ret

/-- A request to the program. -/
def handle {δ : Type} [RawDisk bs δ] (fuel : Nat) (s : Fs bs δ) : Request bs → Option (Response × Fs bs δ)
  | .getattr name st uid gid now =>
    let (r, st, s) := doGetattr s (pathOf name) st uid gid now
    some (.attr r st, s)
  | .readdir stack =>
    let (r, l) := doReaddir s rootPath stack
    some (.names r l, s)
  | .call c => (perform fuel s c).map fun (a, s) => (c.response a, s)
  | .rename o nm now now' => (doRename fuel s (pathOf o) (pathOf nm) now now').map fun (r, s) => (.status r, s)
  | .remount bdir bmap => some (.status 0, { s with bdir := bdir, bmap := bmap })

/-! ### Files -/

/-- A file. -/
structure File (bs : Nat) where
  name : List UInt8
  lastMod : UInt64
  mode : Nat
  size : Nat
  blocks : List (Block bs)

/-- The file after a write up to `newSize`. -/
def File.grow (f : File bs) (newSize : Nat) (now : UInt64) : File bs :=
  if f.size < newSize then { f with size := newSize, lastMod := now } else f

@[simp] theorem File.grow_blocks (f : File bs) (newSize : Nat) (now : UInt64) :
    (f.grow newSize now).blocks = f.blocks := by
  unfold grow
  split <;> rfl

/-- The files in the order of the directory, and the free blocks in the order in which they are allocated. -/
structure Store (bs : Nat) where
  files : List (File bs)
  free : List (Block bs)

namespace Store

/-- The first file with the name, of which the first 12 characters are kept. -/
def find (σ : Store bs) (name : List UInt8) : Option (Nat × File bs) := do
  let i ← σ.files.findIdx? fun f => f.name = name.take fsNameLen
  let f ← σ.files[i]?
  return (i, f)

def getattr (σ : Store bs) (name : List UInt8) (st : Stat) (uid gid : UInt32) (now : UInt64) : Response :=
  let st := { st with uid := uid, gid := gid, atime := now }
  if name = [] then .attr 0 { st with mode := dirMode, nlink := 2 }
  else
    match σ.find name with
    | none => .attr (-enoent) { st with mode := regMode, nlink := 1, size := 1024 }
    | some (_, f) => .attr 0 { st with mode := f.mode, nlink := 1, size := f.size, mtime := f.lastMod }

/-- The listing has room for 11 characters of each name. -/
def readdir (σ : Store bs) : Response :=
  .names 0 ([[46], [46, 46]] ++ σ.files.map fun f => f.name.take (fsNameLen - 1))

/-- Bytes of the first block, whichever block the offset lies in; a file without blocks reads as anything. -/
def read (σ : Store bs) (name : List UInt8) (size : UInt64) (offset : Int64) : Option Response :=
  if offset.toInt < 0 then none
  else
    match σ.find name with
    | none => some (.data (-enoent) (some []))
    | some (_, f) =>
      let n := crtsize bs size offset
      some (.data n (f.blocks.head?.map fun b => (List.range n).map fun k => b.byte (byteoffs bs offset + k)))

def write (σ : Store bs) (name : List UInt8) (buffer : Nat → UInt8) (size : UInt64) (offset : Int64) (now : UInt64) :
    Option (Int × Store bs) :=
  if offset.toInt < 0 then none
  else
    match σ.find name with
    | none => some (-enoent, σ)
    | some (i, f) =>
      let k := blkoffs bs offset
      let grown := f.grow (endOffset size offset) now
      if f.blocks = [] ∧ ¬f.size < endOffset size offset then
        if k = 0 then some (asInt size.toNat, σ) else none
      else if f.blocks ++ σ.free = [] then some (-enospc, σ)
      else if (f.blocks ++ σ.free).length ≤ k then
        -- the file has grown already
        if f.blocks = [] then none else some (-enospc, { σ with files := σ.files.set i grown })
      else
        let taken := k + 1 - f.blocks.length
        let blocks := (f.blocks ++ σ.free.take taken).modify k fun b =>
          overwrite b (byteoffs bs offset) buffer (crtsize bs size offset)
        some (asInt size.toNat, ⟨σ.files.set i { grown with blocks := blocks }, σ.free.drop taken⟩)

def create (σ : Store bs) (name : List UInt8) (m : UInt32) (now : UInt64) : Int × Store bs :=
  if σ.files.length < dirEntriesPerBlock bs then
    (0, { σ with files := σ.files ++ [⟨name.take fsNameLen, now, m.toNat, 0, []⟩] })
  else (-enfile, σ)

def truncate (σ : Store bs) (name : List UInt8) (now : UInt64) : Int × Store bs :=
  match σ.find name with
  | none => (-enoent, σ)
  | some (i, f) =>
    (0, ⟨σ.files.set i { f with size := 0, lastMod := now, blocks := [] }, f.blocks.reverse ++ σ.free⟩)

def unlink (σ : Store bs) (name : List UInt8) : Int × Store bs :=
  match σ.find name with
  | none => (-enoent, σ)
  | some (i, f) => (0, ⟨σ.files.eraseIdx i, f.blocks.reverse ++ σ.free⟩)

def rename (σ : Store bs) (o nm : List UInt8) (now' : UInt64) : Option (Int × Store bs) :=
  match σ.find o with
  | none => some (-enoent, σ)
  | some (i, f) =>
    if (σ.find nm).all fun x => i < x.1 then
      let σ' := (σ.unlink nm).2
      some (0, { σ' with files := σ'.files.set i { f with name := nm.take fsNameLen, lastMod := now' } })
    else none

/-- A request. -/
def handle (σ : Store bs) : Request bs → Option (Response × Store bs)
  | .getattr name st uid gid now => some (σ.getattr name st uid gid now, σ)
  | .readdir _ => some (σ.readdir, σ)
  | .call (.read name size offset _) => (σ.read name size offset).map fun a => (a, σ)
  | .call (.write name buffer size offset now _) =>
    (σ.write name buffer size offset now).map fun (r, σ') => (.status r, σ')
  | .call (.create name m now) => some (.status (σ.create name m now).1, (σ.create name m now).2)
  | .call (.truncate name now) => some (.status (σ.truncate name now).1, (σ.truncate name now).2)
  | .call (.unlink name _) => some (.status (σ.unlink name).1, (σ.unlink name).2)
  | .rename o nm _ now' => (σ.rename o nm now').map fun (r, σ') => (.status r, σ')
  | .remount _ _ => some (.status 0, σ)

variable {σ : Store bs} {name : List UInt8} {i : Nat} {f : File bs}

theorem find_eq_some : σ.find name = some (i, f) ↔
    σ.files.findIdx? (fun f => f.name = name.take fsNameLen) = some i ∧ σ.files[i]? = some f := by
  simp only [find, Option.bind_eq_bind, Option.bind_eq_some_iff, Option.pure_def, Option.some.injEq, Prod.mk.injEq]
  constructor
  · rintro ⟨j, hj, g, hg, rfl, rfl⟩
    exact ⟨hj, hg⟩
  · rintro ⟨hi, hf⟩
    exact ⟨i, hi, f, hf, rfl, rfl⟩

theorem find_eq_none : σ.find name = none ↔ σ.files.findIdx? (fun f => f.name = name.take fsNameLen) = none := by
  cases h : σ.files.findIdx? (fun f => f.name = name.take fsNameLen) with
  | none => simp [find, h]
  | some i =>
    obtain ⟨hi, -⟩ := List.findIdx?_eq_some_iff_getElem.1 h
    simp [find, h, hi]

end Store

end Edaf35.Ssfs
