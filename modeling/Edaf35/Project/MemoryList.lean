import Edaf35.Project.Heap

/-!
# The allocator of `memory.c`

A block starts with a `list_t` of 24 bytes: `next` in bytes 0 to 7, `prev` in bytes 8 to 15 and `size` in bytes 16 to
23.  `malloc` puts a block at the break and links it to the last one; `free` does nothing.  `none` stands for a list
without an end and for the access through `NULL` that follows when `create_block` returns it.
-/

namespace Edaf35.Project.MemoryList

/-- `sizeof(list_t)`. -/
def sizeofList : Nat := 24

/-! ### The fields of a `list_t` -/

def next (m : Memory) (p : Nat) : Nat := load m p 8
def size (m : Memory) (p : Nat) : Nat := load m (p + 16) 8

def setNext (m : Memory) (p v : Nat) : Memory := store m p 8 v
def setPrev (m : Memory) (p v : Nat) : Memory := store m (p + 8) 8 v
def setSize (m : Memory) (p v : Nat) : Memory := store m (p + 16) 8 v

/-! ### The functions -/

/-- The memory, the break and the global `head`. -/
structure Heap where
  mem : Memory
  brk : Nat
  head : Nat

/-- The loop of `first_free_block` from block `p`. -/
def firstFreeLoop (m : Memory) : Nat → Nat → Option Nat
  | 0, _ => none
  | fuel + 1, p => if p ≠ 0 ∧ next m p ≠ 0 then firstFreeLoop m fuel (next m p) else some p

def firstFreeBlock (h : Heap) : Option Nat := firstFreeLoop h.mem addressSpace h.head

def createBlock (h : Heap) (sz : Nat) (ok : Bool) : Nat × Heap :=
  let newBlock := h.brk
  let new := sbrk h.brk ((sz + sizeofList) % addressSpace) ok
  let req := if new.isSome then h.brk else addressSpace - 1
  let h := { h with brk := new.getD h.brk }
  if req = 0 then (0, h)
  else
    let m := setSize h.mem newBlock sz
    let m := setNext m newBlock 0
    let m := setPrev m newBlock 0
    (newBlock, { h with mem := m })

/-- `free`: it computes the address of the header and returns. -/
def free (h : Heap) (_node : Nat) : Heap := h

def malloc (h : Heap) (sz : Nat) (ok : Bool) : Option (Nat × Heap) :=
  let r := createBlock h sz ok
  let p := r.1
  let h := r.2
  if h.head = 0 then some (p + sizeofList, { h with head := p })
  else do
    let current ← firstFreeBlock h
    if p = 0 then none
    else
      let m := setPrev h.mem p current
      let m := setNext m current p
      some (p + sizeofList, { h with mem := m })

def calloc (h : Heap) (nitems sz : UInt64) (ok : Bool) : Option (Nat × Heap) := do
  let (p, h) ← malloc h (sz * nitems).toNat ok
  if p ≠ 0 then pure (p, { h with mem := memset0 h.mem p (nitems * sz).toNat }) else pure (p, h)

def realloc (h : Heap) (node : Nat) (sz : UInt64) (ok : Bool) : Option (Nat × Heap) := do
  let (p, h) ← malloc h sz.toNat ok
  if p ≠ 0 then pure (p, free { h with mem := memmove h.mem p node sz.toNat } node) else pure (p, h)

end Edaf35.Project.MemoryList
