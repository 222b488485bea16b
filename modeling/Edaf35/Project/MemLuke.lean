import Edaf35.Project.Heap

/-!
# The allocator of `mem_luke.c`

A block starts with a `list_t` of 24 bytes: `next` in bytes 0 to 7, `size` in bytes 8 to 15 and the `int` `vacant` in
bytes 16 to 19.  `malloc` hands out the first vacant block of the list, whatever its size, and puts a block at the
break when there is none; `free` joins neighbouring vacant blocks.  `none` stands for a list without an end.  The
argument `ok` is the answer of the kernel to the call of `sbrk`, if there is one: a failed `sbrk` returns -1, which
`create_block` does not notice.
-/

namespace Edaf35.Project.MemLuke

/-- `sizeof(list_t)`. -/
def sizeofList : Nat := 24

/-! ### The fields of a `list_t` -/

def next (m : Memory) (p : Nat) : Nat := load m p 8
def size (m : Memory) (p : Nat) : Nat := load m (p + 8) 8
def vacant (m : Memory) (p : Nat) : Nat := load m (p + 16) 4

def setNext (m : Memory) (p v : Nat) : Memory := store m p 8 v
def setSize (m : Memory) (p v : Nat) : Memory := store m (p + 8) 8 v
def setVacant (m : Memory) (p v : Nat) : Memory := store m (p + 16) 4 v

/-! ### The functions -/

/-- The memory, the break and the global `head`. -/
structure Heap where
  mem : Memory
  brk : Nat
  head : Nat

/-- The loop of `merge_list` from block `p`. -/
def mergeLoop : Nat → Memory → Nat → Option Memory
  | 0, _, _ => none
  | fuel + 1, m, p =>
    if next m p = 0 then some m
    else if vacant m p ≠ 0 ∧ vacant m (next m p) ≠ 0 then
      let m := setSize m p (size m p + (size m (next m p) + sizeofList))
      let m := setNext m p (next m (next m p))
      mergeLoop fuel m p
    else mergeLoop fuel m (next m p)

def mergeList (h : Heap) : Option Heap :=
  if h.head = 0 then some h else (mergeLoop addressSpace h.mem h.head).map fun m => { h with mem := m }

/-- The loop of `first_free_block` from block `p`: the block found, or 0, and the final value of `*last`. -/
def firstFreeLoop (m : Memory) : Nat → Nat → Nat → Option (Nat × Nat)
  | 0, _, _ => none
  | fuel + 1, last, p => if p ≠ 0 ∧ vacant m p = 0 then firstFreeLoop m fuel p (next m p) else some (p, last)

def firstFreeBlock (h : Heap) (last : Nat) : Option (Nat × Nat) := firstFreeLoop h.mem addressSpace last h.head

def createBlock (h : Heap) (tail sz : Nat) (ok : Bool) : Nat × Heap :=
  let newBlock := h.brk
  let new := sbrk h.brk ((sz + sizeofList) % addressSpace) ok
  let req := if new.isSome then h.brk else addressSpace - 1
  let h := { h with brk := new.getD h.brk }
  if req = 0 then (0, h)
  else
    let m := if tail ≠ 0 then setNext h.mem tail newBlock else h.mem
    let m := setSize m newBlock sz
    let m := setNext m newBlock 0
    let m := setVacant m newBlock 0
    (newBlock, { h with mem := m })

def free (h : Heap) (node : Nat) : Option Heap :=
  if node = 0 then some h else mergeList { h with mem := setVacant h.mem (node - sizeofList) 1 }

def malloc (h : Heap) (sz : UInt64) (ok : Bool) : Option (Nat × Heap) :=
  if h.head = 0 then
    let r := createBlock h 0 sz.toNat ok
    if r.1 = 0 then some (0, r.2) else some (r.1 + sizeofList, { r.2 with head := r.1 })
  else do
    let (p, tail) ← firstFreeBlock h h.head
    if p = 0 then
      let r := createBlock h tail sz.toNat ok
      if r.1 = 0 then pure (0, r.2) else pure (r.1 + sizeofList, r.2)
    else pure (p + sizeofList, { h with mem := setVacant h.mem p 0 })

def calloc (h : Heap) (sz : UInt64) (ok : Bool) : Option (Nat × Heap) := do
  let (p, h) ← malloc h sz ok
  if p ≠ 0 then pure (p, { h with mem := memset0 h.mem p sz.toNat }) else pure (p, h)

def realloc (h : Heap) (node : Nat) (sz : UInt64) (ok : Bool) : Option (Nat × Heap) := do
  let (p, h) ← malloc h sz ok
  if p ≠ 0 then
    let h ← free { h with mem := memmove h.mem p node sz.toNat } node
    pure (p, h)
  else pure (p, h)

end Edaf35.Project.MemLuke
