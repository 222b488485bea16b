import Edaf35.Project.Heap

/-!
# The allocator of `dude.c`

A block starts with a `list_t` of 24 bytes: `size` in bytes 0 to 7, the bit field `in_use` in the lowest bit of bytes
8 to 11 and `next` in bytes 16 to 23.  The functions are those of the source without their debug output; `none` stands
for the failed assertion of `free`, and for a list without an end.  The argument `ok` of `malloc` is the answer of the
kernel to the call of `sbrk`, if there is one.
-/

namespace Edaf35.Project.Dude

def alignment : Nat := 8

/-- The macro `ALIGN`, on a `size_t`. -/
def align (size : Nat) : Nat := (size + (alignment - 1)) % addressSpace / alignment * alignment

/-- `sizeof(list_t)`. -/
def sizeofList : Nat := 24

def metaSize : Nat := align sizeofList

/-! ### The fields of a `list_t` -/

def size (m : Memory) (b : Nat) : Nat := load m b 8
def inUse (m : Memory) (b : Nat) : Nat := load m (b + 8) 4 % 2
def next (m : Memory) (b : Nat) : Nat := load m (b + 16) 8

def setSize (m : Memory) (b v : Nat) : Memory := store m b 8 v
def setNext (m : Memory) (b v : Nat) : Memory := store m (b + 16) 8 v

/-- A store to the bit field keeps the other bits of its unit. -/
def setInUse (m : Memory) (b v : Nat) : Memory := store m (b + 8) 4 (load m (b + 8) 4 / 2 * 2 + v)

/-! ### The functions -/

/-- The memory, the break and the global `base`. -/
structure Heap where
  mem : Memory
  brk : Nat
  base : Nat

/-- The loop of `find_block` from `current`: the block found, or 0, and the final value of `*last`. -/
def findLoop (m : Memory) (sz : Nat) : Nat → Nat → Nat → Option (Nat × Nat)
  | 0, _, _ => none
  | fuel + 1, last, current =>
    if current = 0 then some (0, last)
    else if inUse m current = 0 ∧ sz ≤ size m current then some (current, last)
    else findLoop m sz fuel current (next m current)

def findBlock (h : Heap) (last sz : Nat) : Option (Nat × Nat) := findLoop h.mem sz addressSpace last h.base

def allocateSpace (h : Heap) (last sz : Nat) (ok : Bool) : Nat × Heap :=
  let «meta» := h.brk
  match sbrk h.brk (align ((sz + metaSize) % addressSpace)) ok with
  | none => (0, h)
  | some brk =>
    let data := h.brk
    let m := setSize h.mem «meta» sz
    let m := setNext m «meta» 0
    let m := setInUse m «meta» 1
    let m := if last ≠ 0 then setNext m last data else m
    («meta», { h with mem := m, brk := brk })

def malloc (h : Heap) (sz : UInt64) (ok : Bool) : Option (Nat × Heap) :=
  if sz.toNat = 0 then some (0, h)
  else do
    let (r, last) ← findBlock h h.base sz.toNat
    if r = 0 then
      let (r, h) := allocateSpace h last sz.toNat ok
      if r = 0 then pure (0, h)
      else
        let h := if h.base = 0 then { h with base := r } else h
        pure (r + sizeofList, h)
    else pure (r + sizeofList, { h with mem := setInUse h.mem r 1 })

def free (h : Heap) (ptr : Nat) : Option Heap :=
  if ptr = 0 then some h
  else
    let b := ptr - sizeofList
    if inUse h.mem b = 1 then some { h with mem := setInUse h.mem b 0 } else none

end Edaf35.Project.Dude
