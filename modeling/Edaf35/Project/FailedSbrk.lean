import Edaf35.Project.ListAllocators

/-!
# An `sbrk` that fails

`create_block` of `memory.c` and `mem_luke.c` compares the result of `sbrk` with `NULL`, and `sbrk` returns -1 when it
fails.  So a header is written at the break, where there is no memory for it, and the caller gets a pointer behind it:
`malloc` never returns `NULL`.  No call of `sbrk` that fails is harmless (`harmless_iff`).
-/

namespace Edaf35.Project

/-! ### Calls that may return `NULL` -/

section Returned

variable {H : Type} {s s' : Client H} {x : Option (Nat × H)} {n r : Nat} {rest : List (Nat × Nat)}

/-- The allocations after a call that returned `p`: a call that returned `NULL` allocates nothing. -/
def returned (s : Client H) (p n : Nat) (rest : List (Nat × Nat)) (h : H) : Nat × Client H :=
  if p = 0 then (0, ⟨h, s.live⟩) else (p, ⟨h, (p, n) :: rest⟩)

private theorem map_returned (hx : ∀ p h, x = some (p, h) → p ≠ 0) :
    (x.map fun y => returned s y.1 n rest y.2) = x.map fun y => (y.1, ⟨y.2, (y.1, n) :: rest⟩) :=
  Option.map_congr fun y hy => if_neg (hx y.1 y.2 hy)

private theorem returned_ne_zero (hx : ∀ p h, x = some (p, h) → p ≠ 0)
    (hr : (x.map fun y => returned s y.1 n rest y.2) = some (r, s')) : r ≠ 0 := by
  rw [map_returned hx] at hr
  obtain ⟨y, hy, heq⟩ := Option.map_eq_some_iff.1 hr
  cases heq
  exact hx y.1 y.2 hy

/-- What is done with the memory of an allocation does not change its pointer. -/
private theorem bind_ne_zero {f : Nat × H → Option (Nat × H)} {p : Nat} {h : H} (hx : ∀ p h, x = some (p, h) → p ≠ 0)
    (hf : ∀ y z, f y = some z → z.1 = y.1) (hp : x.bind f = some (p, h)) : p ≠ 0 := by
  obtain ⟨y, hy, hz⟩ := Option.bind_eq_some_iff.1 hp
  have hpy : p = y.1 := hf y (p, h) hz
  rw [hpy]
  exact hx y.1 y.2 hy

private theorem fst_of_ite {y z : Nat × H} {h : H} (hz : (if y.1 ≠ 0 then some (y.1, h) else some y) = some z) :
    z.1 = y.1 := by
  split at hz
  · cases hz
    rfl
  · cases hz
    rfl

/-- A call that fails returns `NULL` and keeps what `Same` says of the state. -/
def HarmlessFailure {α : Type} (perform : Client H → α → Option (Nat × Client H)) (Fails : Client H → α → Prop)
    (Same : Client H → Client H → Prop) (s : Client H) (a : α) : Prop :=
  Fails s a → ∃ s', perform s a = some (0, s') ∧ Same s s'

/-- Where a call that fails does not return `NULL`, no call that fails is harmless. -/
private theorem harmlessFailure_iff {α : Type} {perform : Client H → α → Option (Nat × Client H)}
    {Fails : Client H → α → Prop} {Same : Client H → Client H → Prop} {a : α}
    (hne : Fails s a → ∀ r s', perform s a = some (r, s') → r ≠ 0) :
    HarmlessFailure perform Fails Same s a ↔ ¬Fails s a := by
  constructor
  · intro h hfail
    obtain ⟨s', hs', -⟩ := h hfail
    exact hne hfail 0 s' hs' rfl
  · intro h hfail
    exact absurd hfail h

end Returned

namespace MemoryList

/-! ### `memory.c` -/

/-- The size that a call asks `create_block` for. -/
def Call.blockSize : Call → Option Nat
  | .malloc sz => some sz.toNat
  | .calloc nitems sz => some (sz * nitems).toNat
  | .realloc _ sz => some sz.toNat
  | .free _ => none
  | .write _ _ => none

/-- A call and the kernel's answer to the call of `sbrk` in it. -/
def perform (s : Client) : Call × Bool → Option (Nat × Client)
  | (.malloc sz, ok) => (malloc s.heap sz.toNat ok).map fun x => returned s x.1 sz.toNat s.live x.2
  | (.calloc nitems sz, ok) =>
    (calloc s.heap nitems sz ok).map fun x => returned s x.1 (nitems.toNat * sz.toNat) s.live x.2
  | (.realloc node sz, ok) =>
    (realloc s.heap node sz ok).map fun x => returned s x.1 sz.toNat (s.live.filter (·.1 ≠ node)) x.2
  | (.free node, _) => some (0, ⟨free s.heap node, s.live.filter (·.1 ≠ node)⟩)
  | (.write x v, _) => some (0, ⟨{ s.heap with mem := Function.update s.heap.mem x v }, s.live⟩)

/-- The call of `sbrk` fails. -/
def SbrkFails (s : Client) (a : Call × Bool) : Prop :=
  ∃ sz, a.1.blockSize = some sz ∧ sbrk s.heap.brk ((sz + sizeofList) % addressSpace) a.2 = none

/-- `head`, the break, the fields of every block, and the contents of every live block are the same. -/
structure Unharmed (s s' : Client) : Prop where
  head : s'.heap.head = s.heap.head
  brk : s'.heap.brk = s.heap.brk
  live : s'.live = s.live
  blocks : ∀ blocks, IsChain (next s.heap.mem) 0 s.heap.head blocks → ∀ b ∈ blocks,
    next s'.heap.mem b = next s.heap.mem b ∧ size s'.heap.mem b = size s.heap.mem b
  contents : ∀ p n, (p, n) ∈ s.live → ∀ k, p ≤ k → k < p + n → s'.heap.mem k = s.heap.mem k

/-- A call whose `sbrk` fails returns `NULL` and leaves everything as it is. -/
def Harmless : Client → Call × Bool → Prop := HarmlessFailure perform SbrkFails Unharmed

/-- `create_block` with an `sbrk` that fails: the header is written at the break. -/
theorem createBlock_failed {h : Heap} {sz : Nat} {ok : Bool}
    (hfail : sbrk h.brk ((sz + sizeofList) % addressSpace) ok = none) :
    createBlock h sz ok = (h.brk, { h with mem := newHeader h.mem h.brk sz }) := by
  have hne : addressSpace - 1 ≠ 0 := by decide
  simp only [createBlock, hfail, Option.isSome_none, Option.getD_none, Bool.false_eq_true, if_false, if_neg hne]
  rfl

private theorem malloc_ne_zero {h h' : Heap} {sz p : Nat} {ok : Bool} (hm : malloc h sz ok = some (p, h')) : p ≠ 0 := by
  simp only [malloc] at hm
  split at hm
  · cases hm
    simp [sizeofList]
  · simp only [Option.bind_eq_bind, Option.bind_eq_some_iff] at hm
    obtain ⟨current, -, hm⟩ := hm
    split at hm
    · cases hm
    · cases hm
      simp [sizeofList]

private theorem calloc_ne_zero {h h' : Heap} {nitems sz : UInt64} {p : Nat} {ok : Bool}
    (hm : calloc h nitems sz ok = some (p, h')) : p ≠ 0 := by
  exact bind_ne_zero (fun q h₁ hq => malloc_ne_zero hq) (fun y z hz => fst_of_ite hz) hm

private theorem realloc_ne_zero {h h' : Heap} {node p : Nat} {sz : UInt64} {ok : Bool}
    (hm : realloc h node sz ok = some (p, h')) : p ≠ 0 := by
  exact bind_ne_zero (fun q h₁ hq => malloc_ne_zero hq) (fun y z hz => fst_of_ite hz) hm

/-- A call that asks for a block does not return `NULL`. -/
private theorem perform_ne_zero {s s' : Client} {a : Call × Bool} {r sz : Nat} (hsz : a.1.blockSize = some sz)
    (hs : perform s a = some (r, s')) : r ≠ 0 := by
  obtain ⟨call, ok⟩ := a
  cases call with
  | malloc sz =>
    exact returned_ne_zero (fun p h hx => malloc_ne_zero hx) hs
  | calloc nitems sz =>
    exact returned_ne_zero (fun p h hx => calloc_ne_zero hx) hs
  | realloc node sz =>
    exact returned_ne_zero (fun p h hx => realloc_ne_zero hx) hs
  | free node => cases hsz
  | write x v => cases hsz

/-- In a kernel that never refuses, the calls are those of `step`. -/
theorem perform_true (s : Client) (c : Call) : perform s (c, true) = step s c := by
  cases c with
  | malloc sz =>
    rw [perform, step]
    exact map_returned fun p h hx => malloc_ne_zero hx
  | calloc nitems sz =>
    rw [perform, step]
    exact map_returned fun p h hx => calloc_ne_zero hx
  | realloc node sz =>
    rw [perform, step]
    exact map_returned fun p h hx => realloc_ne_zero hx
  | free node => rfl
  | write x v => rfl

/-- No call whose `sbrk` fails is harmless. -/
theorem harmless_iff_not_fails (s : Client) (a : Call × Bool) : Harmless s a ↔ ¬SbrkFails s a :=
  harmlessFailure_iff fun ⟨_, hsz, _⟩ _ _ hs => perform_ne_zero hsz hs

end MemoryList

namespace MemLuke

/-! ### `mem_luke.c` -/

/-- The size that a call asks `malloc` for. -/
def Call.blockSize : Call → Option Nat
  | .malloc sz => some sz.toNat
  | .calloc sz => some sz.toNat
  | .realloc _ sz => some sz.toNat
  | .free _ => none
  | .write _ _ => none

/-- A call and the kernel's answer to the call of `sbrk` in it, if there is one. -/
def perform (s : Client) : Call × Bool → Option (Nat × Client)
  | (.malloc sz, ok) => (malloc s.heap sz ok).map fun x => returned s x.1 sz.toNat s.live x.2
  | (.calloc sz, ok) => (calloc s.heap sz ok).map fun x => returned s x.1 sz.toNat s.live x.2
  | (.realloc node sz, ok) =>
    (realloc s.heap node sz ok).map fun x => returned s x.1 sz.toNat (s.live.filter (·.1 ≠ node)) x.2
  | (.free node, _) => (free s.heap node).map fun h => (0, ⟨h, s.live.filter (·.1 ≠ node)⟩)
  | (.write x v, _) => some (0, ⟨{ s.heap with mem := Function.update s.heap.mem x v }, s.live⟩)

/-- `malloc` finds no vacant block. -/
def NoVacant (h : Heap) : Prop := h.head = 0 ∨ ∃ tail, firstFreeBlock h h.head = some (0, tail)

/-- The call makes a call of `sbrk`, and that fails. -/
def SbrkFails (s : Client) (a : Call × Bool) : Prop :=
  ∃ sz, a.1.blockSize = some sz ∧ NoVacant s.heap ∧ sbrk s.heap.brk ((sz + sizeofList) % addressSpace) a.2 = none

/-- `head`, the break, the fields of every block, and the contents of every live block are the same. -/
structure Unharmed (s s' : Client) : Prop where
  head : s'.heap.head = s.heap.head
  brk : s'.heap.brk = s.heap.brk
  live : s'.live = s.live
  blocks : ∀ blocks, IsChain (next s.heap.mem) 0 s.heap.head blocks → ∀ b ∈ blocks,
    next s'.heap.mem b = next s.heap.mem b ∧ size s'.heap.mem b = size s.heap.mem b ∧
      vacant s'.heap.mem b = vacant s.heap.mem b
  contents : ∀ p n, (p, n) ∈ s.live → ∀ k, p ≤ k → k < p + n → s'.heap.mem k = s.heap.mem k

/-- A call whose `sbrk` fails returns `NULL` and leaves everything as it is. -/
def Harmless : Client → Call × Bool → Prop := HarmlessFailure perform SbrkFails Unharmed

/-- `create_block` with an `sbrk` that fails: the last block is linked to a header that is written at the break. -/
theorem createBlock_failed {h : Heap} {tail sz : Nat} {ok : Bool}
    (hfail : sbrk h.brk ((sz + sizeofList) % addressSpace) ok = none) :
    createBlock h tail sz ok =
      (h.brk, { h with mem := newHeader (if tail ≠ 0 then setNext h.mem tail h.brk else h.mem) h.brk sz }) := by
  have hne : addressSpace - 1 ≠ 0 := by decide
  simp only [createBlock, hfail, Option.isSome_none, Option.getD_none, Bool.false_eq_true, if_false, if_neg hne]
  rfl

private theorem createBlock_fst {h : Heap} {tail sz : Nat} {ok : Bool} (hbrk : h.brk ≠ 0) :
    (createBlock h tail sz ok).1 = h.brk := by
  have hne : addressSpace - 1 ≠ 0 := by decide
  simp only [createBlock]
  cases hs : sbrk h.brk ((sz + sizeofList) % addressSpace) ok with
  | none => simp only [Option.isSome_none, Bool.false_eq_true, if_false, if_neg hne]
  | some new => simp only [Option.isSome_some, if_true, if_neg hbrk]

private theorem malloc_ne_zero {h h' : Heap} {sz : UInt64} {p : Nat} {ok : Bool} (hbrk : h.brk ≠ 0)
    (hm : malloc h sz ok = some (p, h')) : p ≠ 0 := by
  have hnew : ∀ tail, (createBlock h tail sz.toNat ok).1 ≠ 0 := by
    intro tail
    rw [createBlock_fst hbrk]
    exact hbrk
  simp only [malloc] at hm
  split at hm
  · rw [if_neg (hnew 0)] at hm
    cases hm
    simp [sizeofList]
  · simp only [Option.bind_eq_bind, Option.bind_eq_some_iff] at hm
    obtain ⟨⟨q, tail⟩, -, hm⟩ := hm
    split at hm
    · rw [if_neg (hnew tail)] at hm
      cases hm
      simp [sizeofList]
    · cases hm
      simp [sizeofList]

private theorem calloc_ne_zero {h h' : Heap} {sz : UInt64} {p : Nat} {ok : Bool} (hbrk : h.brk ≠ 0)
    (hm : calloc h sz ok = some (p, h')) : p ≠ 0 := by
  exact bind_ne_zero (fun q h₁ hq => malloc_ne_zero hbrk hq) (fun y z hz => fst_of_ite hz) hm

private theorem realloc_ne_zero {h h' : Heap} {node p : Nat} {sz : UInt64} {ok : Bool} (hbrk : h.brk ≠ 0)
    (hm : realloc h node sz ok = some (p, h')) : p ≠ 0 := by
  refine bind_ne_zero (fun q h₁ hq => malloc_ne_zero hbrk hq) (fun y z hz => ?_) hm
  dsimp only at hz
  split at hz
  · obtain ⟨h₂, -, hz⟩ := Option.bind_eq_some_iff.1 hz
    cases hz
    rfl
  · cases hz
    rfl

/-- A call that asks for memory does not return `NULL`. -/
private theorem perform_ne_zero {s s' : Client} {a : Call × Bool} {r sz : Nat} (hbrk : s.heap.brk ≠ 0)
    (hsz : a.1.blockSize = some sz) (hs : perform s a = some (r, s')) : r ≠ 0 := by
  obtain ⟨call, ok⟩ := a
  cases call with
  | malloc sz =>
    exact returned_ne_zero (fun p h hx => malloc_ne_zero hbrk hx) hs
  | calloc sz =>
    exact returned_ne_zero (fun p h hx => calloc_ne_zero hbrk hx) hs
  | realloc node sz =>
    exact returned_ne_zero (fun p h hx => realloc_ne_zero hbrk hx) hs
  | free node => cases hsz
  | write x v => cases hsz

/-- In a kernel that never refuses, the calls are those of `step`. -/
theorem perform_true {s : Client} (hbrk : s.heap.brk ≠ 0) (c : Call) : perform s (c, true) = step s c := by
  cases c with
  | malloc sz =>
    rw [perform, step]
    exact map_returned fun p h hx => malloc_ne_zero hbrk hx
  | calloc sz =>
    rw [perform, step]
    exact map_returned fun p h hx => calloc_ne_zero hbrk hx
  | realloc node sz =>
    rw [perform, step]
    exact map_returned fun p h hx => realloc_ne_zero hbrk hx
  | free node => rfl
  | write x v => rfl

/-- No call whose `sbrk` fails is harmless. -/
theorem harmless_iff_not_fails {s : Client} (hbrk : s.heap.brk ≠ 0) (a : Call × Bool) :
    Harmless s a ↔ ¬SbrkFails s a :=
  harmlessFailure_iff fun ⟨_, hsz, _⟩ _ _ hs => perform_ne_zero hbrk hsz hs

end MemLuke

/-! ### Every run -/

/-- Of a run of calls, with any answers of the kernel, every call whose `sbrk` fails is harmless exactly when there is
no such call.  In `mem_luke.c` the break is never at address 0, where no heap is. -/
theorem harmless_iff {m : Memory} {start : Nat} (listCalls : List (MemoryList.Call × Bool))
    {lukeCalls : List (MemLuke.Call × Bool)}
    (hbrk : Along MemLuke.perform (MemLuke.initial m start) lukeCalls fun s _ => s.heap.brk ≠ 0) :
    (Along MemoryList.perform (MemoryList.initial m start) listCalls MemoryList.Harmless ↔
      Along MemoryList.perform (MemoryList.initial m start) listCalls fun s a => ¬MemoryList.SbrkFails s a) ∧
    (Along MemLuke.perform (MemLuke.initial m start) lukeCalls MemLuke.Harmless ↔
      Along MemLuke.perform (MemLuke.initial m start) lukeCalls fun s a => ¬MemLuke.SbrkFails s a) := by
  refine ⟨⟨?_, ?_⟩, ⟨?_, ?_⟩⟩
  · intro h
    exact h.mono fun s a => (MemoryList.harmless_iff_not_fails s a).1
  · intro h
    exact h.mono fun s a => (MemoryList.harmless_iff_not_fails s a).2
  · intro h l a l' bs s has hrun
    exact (MemLuke.harmless_iff_not_fails (hbrk l a l' bs s has hrun) a).1 (h l a l' bs s has hrun)
  · intro h l a l' bs s has hrun
    exact (MemLuke.harmless_iff_not_fails (hbrk l a l' bs s has hrun) a).2 (h l a l' bs s has hrun)

/-- The state before the first call, with the break at `heapStart`. -/
def listStart : MemoryList.Client := MemoryList.initial (fun _ => 0) heapStart

def lukeStart : MemLuke.Client := MemLuke.initial (fun _ => 0) heapStart

/-- Two calls of `malloc` for 8 bytes; the `sbrk` of the second fails. -/
def listRefused : List (MemoryList.Call × Bool) := [(.malloc 8, true), (.malloc 8, false)]

def lukeRefused : List (MemLuke.Call × Bool) := [(.malloc 8, true), (.malloc 8, false)]

theorem harmless_iff_refused :
    ¬Along MemoryList.perform listStart listRefused MemoryList.Harmless ∧
      ¬Along MemLuke.perform lukeStart lukeRefused MemLuke.Harmless := by
  have hev : ((MemLuke.perform lukeStart (.malloc 8, true)).map fun x =>
      (x.2.heap.brk, MemLuke.firstFreeBlock x.2.heap x.2.heap.head)) = some (4128, some (0, 4096)) := by
    decide +kernel
  obtain ⟨⟨r, s₁⟩, hs₁, hev⟩ := Option.map_eq_some_iff.1 hev
  rw [Prod.mk.injEq] at hev
  obtain ⟨hbrk₁, hfree⟩ := hev
  have hrun : run MemLuke.perform lukeStart [(.malloc 8, true)] = some ([r], s₁) :=
    run_cons.2 ⟨r, s₁, [], hs₁, rfl, rfl⟩
  have hbrk : Along MemLuke.perform lukeStart lukeRefused fun s _ => s.heap.brk ≠ 0 := by
    refine along_snoc.2 ⟨along_singleton.2 (by decide), fun bs s hr => ?_⟩
    rw [hrun, Option.some.injEq, Prod.mk.injEq] at hr
    rw [← hr.2, hbrk₁]
    decide
  have hrefused : ∀ brk, sbrk brk ((8 + 24) % addressSpace) false = none := fun brk => by
    simp [sbrk, addressSpace]
  obtain ⟨hlist, hluke⟩ := @harmless_iff (fun _ => 0) heapStart listRefused lukeRefused hbrk
  constructor
  · intro h
    obtain ⟨s, hs⟩ : ∃ x, MemoryList.perform listStart (.malloc 8, true) = some x :=
      Option.isSome_iff_exists.1 (by decide +kernel)
    have hlast := hlist.1 h [(.malloc 8, true)] (.malloc 8, false) [] [s.1] s.2 rfl
      (run_cons.2 ⟨s.1, s.2, [], hs, rfl, rfl⟩)
    exact hlast ⟨8, rfl, hrefused _⟩
  · intro h
    have hlast := hluke.1 h [(.malloc 8, true)] (.malloc 8, false) [] [r] s₁ rfl hrun
    exact hlast ⟨8, rfl, Or.inr ⟨4096, hfree⟩, hrefused _⟩

/-- The first `malloc`, of 8 bytes, with an `sbrk` that fails: it returns a pointer and sets `head`, and the next
`malloc` returns the same pointer. -/
theorem not_harmless :
    (¬Along MemoryList.perform listStart [(.malloc 8, false)] MemoryList.Harmless ∧
      ∃ s' s'', MemoryList.perform listStart (.malloc 8, false) = some (4120, s') ∧
        MemoryList.perform s' (.malloc 8, true) = some (4120, s'')) ∧
    ¬Along MemLuke.perform lukeStart [(.malloc 8, false)] MemLuke.Harmless := by
  refine ⟨⟨?_, ?_⟩, ?_⟩
  · rw [along_singleton, MemoryList.harmless_iff_not_fails, not_not]
    exact ⟨8, rfl, by decide +kernel⟩
  · have hev : ((MemoryList.perform listStart (.malloc 8, false)).bind fun x =>
        (MemoryList.perform x.2 (.malloc 8, true)).map fun y => (x.1, y.1)) = some (4120, 4120) := by decide +kernel
    obtain ⟨⟨r, s'⟩, hs', hev⟩ := Option.bind_eq_some_iff.1 hev
    obtain ⟨⟨r', s''⟩, hs'', hr⟩ := Option.map_eq_some_iff.1 hev
    cases hr
    exact ⟨s', s'', hs', hs''⟩
  · rw [along_singleton, MemLuke.harmless_iff_not_fails (by decide), not_not]
    exact ⟨8, rfl, Or.inl rfl, by decide +kernel⟩

end Edaf35.Project
