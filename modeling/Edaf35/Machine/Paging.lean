import Mathlib.Algebra.Order.Ring.Nat
import Mathlib.Logic.Function.Basic
import Edaf35.Lib.Run

/-!
# The paged memory of `machine.c`

The page table, the coremap, RAM and swap, with `take_phys_page`, `pagefault`, `translate`, `read_memory` and
`write_memory`.  A pointer to a page table entry is the index of that entry; the arrays are functions of their
index.  The replacement algorithm stored in `replace` is a parameter (`Policy`): any function with a static state
of its own that returns a frame number below `RAM_PAGES` and touches nothing but referenced bits.  A failed
assertion stops the machine (`none`).
-/

namespace Edaf35.Machine

def pageSizeWidth : Nat := 2
def pageSize : Nat := 1 <<< pageSizeWidth
def nPages : Nat := 2048
def ramPages : Nat := 8
def ramSize : Nat := ramPages * pageSize
def swapPages : Nat := 128
def swapSize : Nat := swapPages * pageSize

/-- `page_table_entry_t`. -/
structure PageTableEntry where
  page : Nat := 0
  inmemory : Bool := false
  ondisk : Bool := false
  modified : Bool := false
  referenced : Bool := false

/-- What an assignment to the bit-field `page : 27` stores. -/
def pageField (x : Nat) : Nat := x % 2 ^ 27

/-- `coremap_entry_t`. -/
structure CoremapEntry where
  owner : Option Nat := none
  page : Nat := 0

/-- The static data of `machine.c`; `ρ` is the type of the static data of the replacement function and `count`
the static counter of `new_swap_page`. -/
structure Paging (ρ : Type) where
  pageTable : Nat → PageTableEntry
  coremap : Nat → CoremapEntry
  memory : Nat → UInt32
  swap : Nat → UInt32
  count : Nat
  static : ρ
  numPagefault : UInt64
  numDiscWrites : UInt64
  numPageWrites : UInt64
  numPageReads : UInt64

/-- The state before the first call: everything is zero but the static data of the replacement function. -/
def initial {ρ : Type} (r : ρ) : Paging ρ where
  pageTable _ := {}
  coremap _ := {}
  memory _ := 0
  swap _ := 0
  count := 0
  static := r
  numPagefault := 0
  numDiscWrites := 0
  numPageWrites := 0
  numPageReads := 0

/-- Two states with the same frames, slots and contents: they may differ in referenced bits and statistics. -/
structure SameStore {ρ : Type} (s s' : Paging ρ) : Prop where
  coremap : s'.coremap = s.coremap
  memory : s'.memory = s.memory
  swap : s'.swap = s.swap
  count : s'.count = s.count
  page : ∀ v, (s'.pageTable v).page = (s.pageTable v).page
  inmemory : ∀ v, (s'.pageTable v).inmemory = (s.pageTable v).inmemory
  ondisk : ∀ v, (s'.pageTable v).ondisk = (s.pageTable v).ondisk
  modified : ∀ v, (s'.pageTable v).modified = (s.pageTable v).modified

/-- Two states that differ at most in referenced bits and in the static data of the replacement function. -/
structure SameButReferenced {ρ : Type} (s s' : Paging ρ) : Prop extends SameStore s s' where
  numPagefault : s'.numPagefault = s.numPagefault
  numDiscWrites : s'.numDiscWrites = s.numDiscWrites
  numPageWrites : s'.numPageWrites = s.numPageWrites
  numPageReads : s'.numPageReads = s.numPageReads

/-- A function that may be stored in `replace`. -/
structure Policy (ρ : Type) where
  replace : Paging ρ → Nat × Paging ρ
  frame_lt : ∀ s, (replace s).1 < ramPages
  only_referenced : ∀ s, SameButReferenced s (replace s).2

section Operations

variable {ρ : Type}

/-- `memcpy` of `n` words. -/
def memcpy (dst : Nat → UInt32) (d : Nat) (src : Nat → UInt32) (q n : Nat) : Nat → UInt32 :=
  fun i => if d ≤ i ∧ i < d + n then src (q + (i - d)) else dst i

/-- An assignment to fields of the page table entry `v`. -/
def Paging.setEntry (s : Paging ρ) (v : Nat) (f : PageTableEntry → PageTableEntry) : Paging ρ :=
  { s with pageTable := Function.update s.pageTable v (f (s.pageTable v)) }

/-- An assignment to fields of the coremap entry `f`. -/
def Paging.setCore (s : Paging ρ) (f : Nat) (g : CoremapEntry → CoremapEntry) : Paging ρ :=
  { s with coremap := Function.update s.coremap f (g (s.coremap f)) }

def readPage (s : Paging ρ) (physPage swapPage : Nat) : Paging ρ :=
  { s with
    numPageReads := s.numPageReads + 1
    memory := memcpy s.memory (physPage * pageSize) s.swap (swapPage * pageSize) pageSize }

def writePage (s : Paging ρ) (physPage swapPage : Nat) : Paging ρ :=
  { s with
    numPageWrites := s.numPageWrites + 1
    swap := memcpy s.swap (swapPage * pageSize) s.memory (physPage * pageSize) pageSize }

/-- `new_swap_page`; `none` when its assertion fails. -/
def newSwapPage (s : Paging ρ) : Option (Nat × Paging ρ) :=
  if s.count < swapPages then some (s.count, { s with count := s.count + 1 }) else none

/-- The part of `take_phys_page` that runs when frame `page` has an owner `v`. -/
def evict (s : Paging ρ) (page v : Nat) : Option (Paging ρ) :=
  let entry := s.coremap page
  let flags := fun e : PageTableEntry => { e with ondisk := true, modified := false, inmemory := false }
  if (s.pageTable v).ondisk then
    -- the page has a slot, and the frame remembers which
    let s := if (s.pageTable v).modified then writePage s page entry.page else s
    let s := s.setEntry v fun e => { e with page := pageField entry.page }
    some (s.setEntry v flags)
  else
    match newSwapPage s with
    | none => none
    | some (slot, s) =>
      let s := s.setEntry v fun e => { e with page := pageField slot }
      let s := writePage s page (s.pageTable v).page
      some (s.setEntry v flags)

def takePhysPage (P : Policy ρ) (s : Paging ρ) : Option (Nat × Paging ρ) :=
  let (page, s) := P.replace s
  match (s.coremap page).owner with
  | none => some (page, s)
  | some v =>
    match evict s page v with
    | none => none
    | some s => some (page, s)

/-- The part of `pagefault` after `take_phys_page` returned the frame `page`. -/
def install (s : Paging ρ) (virtPage page : Nat) : Paging ρ :=
  let newPage := s.pageTable virtPage
  let s :=
    if newPage.ondisk then
      readPage (s.setCore page fun c => { c with page := newPage.page }) page newPage.page
    else s
  let s := s.setEntry virtPage fun e => { e with inmemory := true, page := pageField page }
  s.setCore page fun c => { c with owner := some virtPage }

def pagefault (P : Policy ρ) (s : Paging ρ) (virtPage : Nat) : Option (Paging ρ) :=
  let s := { s with numPagefault := s.numPagefault + 1 }
  match takePhysPage P s with
  | none => none
  | some (page, s) => some (install s virtPage page)

/-- `translate`: the physical address of `virtAddr` and the state after the access was recorded. -/
def translate (P : Policy ρ) (s : Paging ρ) (virtAddr : Nat) (write : Bool) : Option (Nat × Paging ρ) :=
  let virtPage := virtAddr / pageSize
  let offset := virtAddr &&& (pageSize - 1)
  match (if (s.pageTable virtPage).inmemory then some s else pagefault P s virtPage) with
  | none => none
  | some s =>
    let s := s.setEntry virtPage fun e => { e with referenced := true }
    let s := if write then s.setEntry virtPage fun e => { e with modified := true } else s
    some ((s.pageTable virtPage).page * pageSize + offset, s)

def readMemory (P : Policy ρ) (s : Paging ρ) (addr : Nat) : Option (UInt32 × Paging ρ) :=
  match translate P s addr false with
  | none => none
  | some (physAddr, s) => some (s.memory physAddr, s)

def writeMemory (P : Policy ρ) (s : Paging ρ) (addr : Nat) (data : UInt32) : Option (Paging ρ) :=
  let s := { s with numDiscWrites := s.numDiscWrites + 1 }
  match translate P s addr true with
  | none => none
  | some (physAddr, s) => some { s with memory := Function.update s.memory physAddr data }

end Operations

/-- A call of `read_memory` or of `write_memory`. -/
inductive Access where
  | read (addr : Nat)
  | write (addr : Nat) (data : UInt32)
  deriving DecidableEq

def Access.addr : Access → Nat
  | .read addr => addr
  | .write addr _ => addr

/-- The addresses the page table covers. -/
def Access.InRange (a : Access) : Prop := a.addr < nPages * pageSize

instance (a : Access) : Decidable a.InRange := inferInstanceAs (Decidable (a.addr < nPages * pageSize))

/-- One call; the answer is the word read, `none` for a write. -/
def access {ρ : Type} (P : Policy ρ) (s : Paging ρ) : Access → Option (Option UInt32 × Paging ρ)
  | .read addr => (readMemory P s addr).map fun (w, s) => (some w, s)
  | .write addr data => (writeMemory P s addr data).map fun s => (none, s)

end Edaf35.Machine
