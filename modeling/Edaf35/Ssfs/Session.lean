import Mathlib.Data.Finset.Card
import Mathlib.Data.List.TakeWhile
import Edaf35.Lib.Run
import Edaf35.Ssfs.Consistency

/-!
# Sequences of calls

A call of a file operation on the file of a given name, and what it answers.  A call that succeeds keeps a disk well
formed, and so does every call but a write that runs out of blocks.
-/

namespace Edaf35.Ssfs

/-- A call of `do_create`, `do_write`, `do_truncate`, `do_unlink` or `do_read` on the path of `name`. -/
inductive Call (bs : Nat) where
  | create (name : List UInt8) (m : UInt32) (now : UInt64)
  | write (name : List UInt8) (buffer : Nat → UInt8) (size : UInt64) (offset : Int64) (now : UInt64) (stack : Block bs)
  | truncate (name : List UInt8) (now : UInt64)
  | unlink (name : List UInt8) (now : UInt64)
  | read (name : List UInt8) (size : UInt64) (offset : Int64) (stack : Block bs)

variable {bs : Nat} {δ : Type}

def Call.name : Call bs → List UInt8
  | .create name _ _ | .write name _ _ _ _ _ | .truncate name _ | .unlink name _ | .read name _ _ _ => name

/-- A file name: not empty, no zero in it. -/
def IsName (name : List UInt8) : Prop := name ≠ [] ∧ 0 ∉ name

instance (name : List UInt8) : Decidable (IsName name) := inferInstanceAs (Decidable (_ ∧ _))

/-- The path of the file `name`. -/
def pathOf (name : List UInt8) : List UInt8 := rootPath ++ name

@[simp] theorem tail_pathOf (name : List UInt8) : (pathOf name).tail = name := rfl

/-- The returned `int`, and the bytes a read puts into its buffer. -/
structure Answer where
  ret : Int
  bytes : List UInt8
  deriving DecidableEq

section Perform

variable [RawDisk bs δ]

/-- One call; `fuel` bounds the loops of `do_truncate`. -/
def perform (fuel : Nat) (s : Fs bs δ) : Call bs → Option (Answer × Fs bs δ)
  | .create name m now => (doCreate s (pathOf name) m now).map fun (r, s) => (⟨r, []⟩, s)
  | .write name buffer size offset now stack =>
    (doWrite s (pathOf name) buffer size offset now stack).map fun (r, s) => (⟨r, []⟩, s)
  | .truncate name now => (doTruncate fuel s (pathOf name) now).map fun (r, s) => (⟨r, []⟩, s)
  | .unlink name now => (doUnlink fuel s (pathOf name) now).map fun (r, s) => (⟨r, []⟩, s)
  | .read name size offset stack => (doRead s (pathOf name) size offset stack).map fun (r, bytes, s) => (⟨r, bytes⟩, s)

end Perform

/-! ### What names look like to the directory -/

theorem nameKey_eq_take (n : Nat) (s : List UInt8) : nameKey n s = (cstr s).take n := by
  induction n generalizing s with
  | zero => rfl
  | succ n ih =>
    cases s with
    | nil => rfl
    | cons x s =>
      rw [nameKey, List.headD_cons, List.tail_cons, ih]
      by_cases hx : x = 0
      · simp [hx, cstr]
      · simp [hx, cstr]

theorem cstr_of_isName {name : List UInt8} (h : IsName name) : cstr name = name := by
  apply List.takeWhile_eq_self_iff.2
  intro x hx
  have hne : x ≠ 0 := by
    rintro rfl
    exact h.2 hx
  simpa using hne

/-- The directory sees the first `FS_NAME_LEN` characters of a name. -/
theorem nameKey_of_isName {name : List UInt8} (h : IsName name) : nameKey fsNameLen name = name.take fsNameLen := by
  rw [nameKey_eq_take, cstr_of_isName h]

theorem nameKey_ne_nil {name : List UInt8} (h : IsName name) : nameKey fsNameLen name ≠ [] := by
  rw [nameKey_of_isName h]
  intro he
  rw [List.take_eq_nil_iff] at he
  rcases he with he | he
  · cases he
  · exact h.1 he

/-! ### What a read leaves -/

section Disk

variable [RawDisk bs δ] {s s' : Fs bs δ}

/-- A read only loads the directory. -/
theorem doRead_state {path : List UInt8} {size : UInt64} {offset : Int64} {stack : Block bs} {r : Int}
    {bytes : List UInt8} (hd : doRead s path size offset stack = some (r, bytes, s')) : s' = loadDirectory s := by
  unfold doRead at hd
  cases hfind : findDirEntry (loadDirectory s).bdir path.tail with
  | none =>
    simp only [hfind, Option.some.injEq, Prod.mk.injEq] at hd
    exact hd.2.2.symm
  | some i =>
    simp only [hfind] at hd
    split at hd
    · simp only [Option.some.injEq, Prod.mk.injEq] at hd
      exact hd.2.2.symm
    · cases hd

end Disk

end Edaf35.Ssfs
