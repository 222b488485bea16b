import Edaf35.Lib.Arena
import Edaf35.Lib.Chain
import Edaf35.Lib.Run
import Edaf35.Project.MemoryList

/-!
# The heap of `memory.c` in every run

The blocks on the list from `head` tile the heap obtained so far, and no block is used twice (`Inv`).  The invariant
holds in every run in which the requests, and the products `calloc` forms, are not too large for a `size_t` and for
`sbrk`.
-/

namespace Edaf35.Project.MemoryList

variable {m m' : Memory} {a b v : Nat}

/-! ### Headers -/

/-- The two memories hold the same header at `b`. -/
abbrev SameHeader (m m' : Memory) (b : Nat) : Prop := SameBytes m m' b sizeofList

theorem SameHeader.next_eq (h : SameHeader m m' b) : next m' b = next m b :=
  h.load_eq (o := 0) (by decide)

theorem SameHeader.size_eq (h : SameHeader m m' b) : size m' b = size m b :=
  h.load_eq (by decide)

@[simp] theorem next_setNext (hv : v < addressSpace) : next (setNext m b v) b = v := by
  rw [next, setNext, load_store_same]
  exact Nat.mod_eq_of_lt hv

@[simp] theorem next_setPrev : next (setPrev m b v) b = next m b := load_store_disjoint (by omega)

@[simp] theorem size_setNext : size (setNext m b v) b = size m b := load_store_disjoint (by omega)

@[simp] theorem size_setPrev : size (setPrev m b v) b = size m b := load_store_disjoint (by omega)

@[simp] theorem size_setSize (hv : v < addressSpace) : size (setSize m b v) b = v := by
  rw [size, setSize, load_store_same]
  exact Nat.mod_eq_of_lt hv

/-! ### The invariant -/

/-- The bytes a block takes. -/
def extent (m : Memory) (b : Nat) : Nat := size m b + sizeofList

/-- The blocks tile the heap from `start` to the break. -/
structure Inv (start : Nat) (h : Heap) (blocks : List Nat) (live : List (Nat × Nat)) : Prop where
  start_pos : 0 < start
  brk_lt : h.brk < addressSpace
  list : IsChain (next h.mem) 0 h.head blocks
  arena : Arena sizeofList (extent h.mem) start h.brk blocks live

variable {start : Nat} {h : Heap} {blocks : List Nat} {live : List (Nat × Nat)}

/-- An allocation is given back. -/
theorem Inv.release (hi : Inv start h blocks live) (node : Nat) : Inv start h blocks (live.filter (·.1 ≠ node)) :=
  ⟨hi.start_pos, hi.brk_lt, hi.list, hi.arena.release node⟩

/-- Writing into a live allocation keeps the invariant. -/
private theorem Inv.write (hi : Inv start h blocks live) {p n : Nat} (hp : (p, n) ∈ live)
    (hm : ∀ k, k < p ∨ p + n ≤ k → m' k = h.mem k) : Inv start { h with mem := m' } blocks live := by
  have hsame : ∀ b ∈ blocks, SameHeader h.mem m' b := fun b hb k h₁ h₂ =>
    hm k (by have := hi.arena.header hp hb; omega)
  exact ⟨hi.start_pos, hi.brk_lt, hi.list.congr fun b hb => (hsame b hb).next_eq,
    hi.arena.congr fun b hb => by rw [extent, extent, (hsame b hb).size_eq]⟩

/-! ### A new block -/

/-- What `create_block` writes at the old break. -/
def newHeader (m : Memory) (b sz : Nat) : Memory := setPrev (setNext (setSize m b sz) b 0) b 0

theorem sameHeader_newHeader {sz : Nat} (hab : a + sizeofList ≤ b) : SameHeader m (newHeader m b sz) a :=
  ((sameBytes_store (Or.inl (by omega))).trans (sameBytes_store (Or.inl hab))).trans
    (sameBytes_store (Or.inl (by omega)))

private theorem newHeader_fields {sz : Nat} (hsz : sz < addressSpace) :
    size (newHeader m b sz) b = sz ∧ next (newHeader m b sz) b = 0 := by
  constructor
  · rw [newHeader, size_setPrev, size_setNext, size_setSize hsz]
  · rw [newHeader, next_setPrev, next_setNext (by decide)]

/-- The list grows by a block at the break, which is handed out. -/
private theorem Inv.extend (hi : Inv start h blocks live) {sz head : Nat}
    (hlt : h.brk + (sz + sizeofList) < addressSpace)
    (hnext : ∀ b ∈ blocks, next m' b = if blocks.getLast? = some b then h.brk else next h.mem b)
    (hhead : blocks = [] → head = h.brk) (hhead' : blocks ≠ [] → head = h.head)
    (hsize : ∀ b ∈ blocks, size m' b = size h.mem b) (hnew : size m' h.brk = sz) (hnewNext : next m' h.brk = 0) :
    Inv start { mem := m', brk := h.brk + (sz + sizeofList), head := head } (blocks ++ [h.brk])
      ((h.brk + sizeofList, sz) :: live) := by
  have hpos := hi.start_pos
  have hle := hi.arena.tiles.le
  have hext : extent m' h.brk = sz + sizeofList := by rw [extent, hnew]
  have harena : Arena sizeofList (extent m') start h.brk blocks live :=
    hi.arena.congr fun b hb => by rw [extent, extent, hsize b hb]
  refine ⟨hpos, hlt, hi.list.snoc (by omega) hnewNext hnext hhead hhead', ?_⟩
  have hpush := harena.push (by rw [hext, sizeofList]; omega)
  rw [hext] at hpush
  apply hpush.take (by simp) (by rw [hext]; omega)
  intro n hn
  have := (hi.arena.inside hn).2
  unfold sizeofList at this
  omega

/-- The walk to the last block. -/
theorem firstFreeLoop_spec {l : List Nat} {fuel p last : Nat} (hl : IsChain (next m) 0 p l)
    (hlast : l.getLast? = some last) (hfuel : l.length ≤ fuel) : firstFreeLoop m fuel p = some last := by
  induction l generalizing p fuel with
  | nil => simp at hlast
  | cons a l ih =>
    obtain ⟨fuel, rfl⟩ : ∃ k, fuel = k + 1 := ⟨fuel - 1, by simp at hfuel; omega⟩
    obtain ⟨rfl, hne, ht⟩ := hl
    rw [firstFreeLoop]
    cases l with
    | nil =>
      have hnext : next m p = 0 := ht
      rw [if_neg fun h => h.2 hnext]
      simpa using hlast
    | cons c l =>
      have hc : next m p ≠ 0 := by rw [ht.head_eq]; exact ht.2.1
      rw [if_pos ⟨hne, hc⟩]
      rw [List.getLast?_cons_cons] at hlast
      exact ih ht hlast (by simpa using hfuel)

theorem createBlock_eq (hpos : h.brk ≠ 0) {sz : Nat} (hsz : sz + sizeofList < 2 ^ 63)
    (hroom : (sbrk h.brk ((sz + sizeofList) % addressSpace) true).isSome) :
    createBlock h sz true = (h.brk, ⟨newHeader h.mem h.brk sz, h.brk + (sz + sizeofList), h.head⟩) ∧
      h.brk + (sz + sizeofList) < addressSpace := by
  obtain ⟨new, hnew⟩ := Option.isSome_iff_exists.1 hroom
  have hmod : (sz + sizeofList) % addressSpace = sz + sizeofList := Nat.mod_eq_of_lt (by unfold addressSpace; omega)
  rw [hmod] at hnew
  obtain ⟨-, rfl, hlt⟩ := (sbrk_eq_some hsz).1 hnew
  refine ⟨?_, hlt⟩
  unfold createBlock
  simp only [hmod, hnew, Option.isSome_some, if_true, Option.getD_some]
  rw [if_neg hpos]
  rfl

theorem malloc_first {r : Nat × Heap} {sz : Nat} {ok : Bool} (hc : createBlock h sz ok = r)
    (h0 : r.2.head = 0) : malloc h sz ok = some (r.1 + sizeofList, { r.2 with head := r.1 }) := by
  unfold malloc
  rw [hc]
  exact if_pos h0

theorem malloc_append {r : Nat × Heap} {sz last : Nat} {ok : Bool} (hc : createBlock h sz ok = r)
    (h0 : r.2.head ≠ 0) (hp : r.1 ≠ 0) (hl : firstFreeBlock r.2 = some last) :
    malloc h sz ok = some (r.1 + sizeofList,
      { r.2 with mem := setNext (setPrev r.2.mem r.1 last) last r.1 }) := by
  unfold malloc
  rw [hc]
  simp only [if_neg h0, hl, Option.bind_eq_bind, Option.bind_some, if_neg hp]

/-- `malloc` puts a block at the break and links the last block to it. -/
theorem malloc_spec (hi : Inv start h blocks live) {sz : Nat} (hsz : sz + sizeofList < 2 ^ 63)
    (hroom : (sbrk h.brk ((sz + sizeofList) % addressSpace) true).isSome) :
    ∃ h', malloc h sz true = some (h.brk + sizeofList, h') ∧
      Inv start h' (blocks ++ [h.brk]) ((h.brk + sizeofList, sz) :: live) := by
  have hpos := hi.start_pos
  have hle := hi.arena.tiles.le
  have hbrk := hi.brk_lt
  obtain ⟨hc, hlt⟩ := createBlock_eq (h := h) (by omega) hsz hroom
  have hszlt : sz < addressSpace := by unfold addressSpace; omega
  obtain ⟨hnsize, hnnext⟩ := newHeader_fields (m := h.mem) (b := h.brk) hszlt
  have hend : ∀ b ∈ blocks, b + sizeofList ≤ h.brk := fun b hb => by
    have := hi.arena.tiles.bounds hb
    unfold extent at this
    omega
  have hbelow : ∀ b ∈ blocks, SameHeader h.mem (newHeader h.mem h.brk sz) b :=
    fun b hb => sameHeader_newHeader (hend b hb)
  by_cases h0 : h.head = 0
  · have hnil : blocks = [] := by
      have hl := hi.list
      rw [h0] at hl
      exact hl.eq_nil
    subst hnil
    refine ⟨_, malloc_first hc h0, ?_⟩
    exact hi.extend hlt (by simp) (fun _ => rfl) (fun hne => absurd rfl hne) (by simp) hnsize hnnext
  · obtain ⟨l, hl, -⟩ := hi.list.exists_cons h0
    have hne : blocks ≠ [] := by rw [hl]; simp
    obtain ⟨last, hlast⟩ := Option.isSome_iff_exists.1 (List.getLast?_isSome.2 hne)
    have hmem : last ∈ blocks := List.mem_of_getLast? hlast
    have hlen := hi.arena.tiles.length_le
    have hwalk : firstFreeBlock ⟨newHeader h.mem h.brk sz, h.brk + (sz + sizeofList), h.head⟩ = some last :=
      firstFreeLoop_spec (hi.list.congr fun b hb => (hbelow b hb).next_eq) hlast (by omega)
    refine ⟨_, malloc_append hc h0 (by omega) hwalk, ?_⟩
    -- the memory after `p->prev = current`, and after `current->next = p`
    have hprev : ∀ b ∈ blocks, SameHeader h.mem (setPrev (newHeader h.mem h.brk sz) h.brk last) b := fun b hb =>
      (hbelow b hb).trans (sameBytes_store (Or.inl (by have := hend b hb; omega)))
    have hother : ∀ b, b ≠ last → b ∈ blocks ∨ b = h.brk → SameHeader (setPrev (newHeader h.mem h.brk sz) h.brk last)
        (setNext (setPrev (newHeader h.mem h.brk sz) h.brk last) last h.brk) b := by
      intro b hbl hb
      have hlastEnd := hend last hmem
      have hsep : b + sizeofList ≤ last ∨ last + 8 ≤ b := by
        unfold sizeofList at *
        rcases hb with hb | rfl
        · have := hi.arena.tiles.apart hb hmem hbl
          unfold extent sizeofList at this
          omega
        · omega
      exact sameBytes_store hsep
    have hbrkLast : h.brk ≠ last := by
      have := hend last hmem
      unfold sizeofList at this
      omega
    refine hi.extend hlt (fun b hb => ?_) (fun hnil => absurd hnil hne) (fun _ => rfl) (fun b hb => ?_) ?_ ?_
    · by_cases hbl : b = last
      · rw [hbl, if_pos hlast]
        exact next_setNext hbrk
      · rw [hlast, if_neg fun h => hbl (Option.some.inj h).symm]
        exact (hother b hbl (Or.inl hb)).next_eq.trans (hprev b hb).next_eq
    · by_cases hbl : b = last
      · rw [hbl]
        exact size_setNext.trans (hprev last hmem).size_eq
      · exact (hother b hbl (Or.inl hb)).size_eq.trans (hprev b hb).size_eq
    · exact (hother _ hbrkLast (Or.inr rfl)).size_eq.trans (size_setPrev.trans hnsize)
    · exact (hother _ hbrkLast (Or.inr rfl)).next_eq.trans (next_setPrev.trans hnnext)

/-! ### The other calls -/

/-- `sbrk` can move the break by what `create_block` asks for. -/
def SbrkSucceeds (h : Heap) (sz : Nat) : Prop := (sbrk h.brk ((sz + sizeofList) % addressSpace) true).isSome

private theorem calloc_inv (hi : Inv start h blocks live) {nitems sz : UInt64}
    (hsz : nitems.toNat * sz.toNat + sizeofList < 2 ^ 63) (hs : SbrkSucceeds h (nitems.toNat * sz.toNat)) :
    ∃ h', calloc h nitems sz true = some (h.brk + sizeofList, h') ∧
      Inv start h' (blocks ++ [h.brk]) ((h.brk + sizeofList, nitems.toNat * sz.toNat) :: live) := by
  have hprod : (nitems * sz).toNat = nitems.toNat * sz.toNat := by
    rw [UInt64.toNat_mul, Nat.mod_eq_of_lt (by omega)]
  obtain ⟨h', hm, hi'⟩ := malloc_spec hi hsz hs
  refine ⟨{ h' with mem := memset0 h'.mem (h.brk + sizeofList) (nitems * sz).toNat }, ?_,
    hi'.write (List.mem_cons_self ..) fun k hk => if_neg (by omega)⟩
  unfold calloc
  rw [UInt64.mul_comm sz nitems, hprod, hm]
  simp only [Option.bind_eq_bind, Option.bind_some, Option.pure_def]
  rw [if_pos (by unfold sizeofList; omega)]

private theorem realloc_inv (hi : Inv start h blocks live) (node : Nat) {sz : UInt64}
    (hsz : sz.toNat + sizeofList < 2 ^ 63) (hs : SbrkSucceeds h sz.toNat) :
    ∃ h', realloc h node sz true = some (h.brk + sizeofList, h') ∧
      Inv start h' (blocks ++ [h.brk]) ((h.brk + sizeofList, sz.toNat) :: live.filter (·.1 ≠ node)) := by
  obtain ⟨h', hm, hi'⟩ := malloc_spec (hi.release node) hsz hs
  refine ⟨{ h' with mem := memmove h'.mem (h.brk + sizeofList) node sz.toNat }, ?_,
    hi'.write (List.mem_cons_self ..) fun k hk => if_neg (by omega)⟩
  unfold realloc
  rw [hm]
  simp only [Option.bind_eq_bind, Option.bind_some, Option.pure_def]
  rw [if_pos (by unfold sizeofList; omega)]
  rfl

/-! ### The calls of a client -/

abbrev Client := Project.Client Heap

/-- A call of the allocator, or a write of the client. -/
inductive Call
  | malloc (sz : UInt64)
  | calloc (nitems sz : UInt64)
  | realloc (node : Nat) (sz : UInt64)
  | free (node : Nat)
  | write (x : Nat) (v : UInt8)

/-- The number of bytes a call asks for. -/
def Call.request : Call → Option Nat
  | .malloc sz | .realloc _ sz => some sz.toNat
  | .calloc nitems sz => some (nitems.toNat * sz.toNat)
  | .free _ | .write _ _ => none

/-- One call: the pointer it returns (0 if it returns none) and the state after it. -/
def step (s : Client) : Call → Option (Nat × Client)
  | .malloc sz => (malloc s.heap sz.toNat true).map fun x => (x.1, ⟨x.2, (x.1, sz.toNat) :: s.live⟩)
  | .calloc nitems sz => (calloc s.heap nitems sz true).map fun x =>
      (x.1, ⟨x.2, (x.1, nitems.toNat * sz.toNat) :: s.live⟩)
  | .realloc node sz => (realloc s.heap node sz true).map fun x =>
      (x.1, ⟨x.2, (x.1, sz.toNat) :: s.live.filter (·.1 ≠ node)⟩)
  | .free node => some (0, ⟨free s.heap node, s.live.filter (·.1 ≠ node)⟩)
  | .write x v => some (0, ⟨{ s.heap with mem := Function.update s.heap.mem x v }, s.live⟩)

/-- Only `NULL` and live pointers are freed, only live pointers reallocated, clients write into their allocations, and
`sbrk` succeeds. -/
def Valid (s : Client) : Call → Prop
  | .malloc sz => SbrkSucceeds s.heap sz.toNat
  | .calloc nitems sz => SbrkSucceeds s.heap (nitems.toNat * sz.toNat)
  | .realloc node sz => (∃ n, (node, n) ∈ s.live) ∧ SbrkSucceeds s.heap sz.toNat
  | .free node => node = 0 ∨ ∃ n, (node, n) ∈ s.live
  | .write x _ => ∃ p n, (p, n) ∈ s.live ∧ p ≤ x ∧ x < p + n

/-- The request and its header are no more than `sbrk` can add. -/
def FitsCall (c : Call) : Prop := ∀ n, c.request = some n → n + sizeofList < 2 ^ 63

/-- The state before the first call. -/
def initial (m : Memory) (start : Nat) : Client := ⟨⟨m, start, 0⟩, []⟩

theorem inv_initial {m : Memory} (hpos : 0 < start) (hlt : start < addressSpace) :
    Inv start (initial m start).heap [] (initial m start).live :=
  ⟨hpos, hlt, rfl, ⟨rfl, by simp [initial], by simp [initial]⟩⟩

/-- A call that fits keeps the invariant, and a pointer it returns for `n` bytes becomes live with `n` bytes. -/
theorem step_inv {s : Client} {c : Call} (hi : Inv start s.heap blocks s.live) (hv : Valid s c) (hf : FitsCall c) :
    ∃ r s' blocks', step s c = some (r, s') ∧ Inv start s'.heap blocks' s'.live ∧
      ∀ n, c.request = some n → ∃ others, s'.live = (r, n) :: others := by
  cases c with
  | malloc sz =>
    obtain ⟨h', hm, hi'⟩ := malloc_spec hi (hf _ rfl) hv
    exact ⟨_, _, _, by rw [step, hm]; rfl, hi', fun n hn => by cases hn; exact ⟨_, rfl⟩⟩
  | calloc nitems sz =>
    obtain ⟨h', hm, hi'⟩ := calloc_inv hi (hf _ rfl) hv
    exact ⟨_, _, _, by rw [step, hm]; rfl, hi', fun n hn => by cases hn; exact ⟨_, rfl⟩⟩
  | realloc node sz =>
    obtain ⟨h', hm, hi'⟩ := realloc_inv hi node (hf _ rfl) hv.2
    exact ⟨_, _, _, by rw [step, hm]; rfl, hi', fun n hn => by cases hn; exact ⟨_, rfl⟩⟩
  | free node => exact ⟨0, _, blocks, rfl, hi.release node, fun n hn => by cases hn⟩
  | write x v =>
    obtain ⟨p, n, hp, h₁, h₂⟩ := hv
    exact ⟨0, _, blocks, rfl, hi.write hp fun k hk => Function.update_of_ne (by omega) _ _, fun n hn => by cases hn⟩

/-- In every run in which all requests fit, a pointer returned for `n` bytes has `n` bytes of its own. -/
theorem hasRoom_of_reach {m : Memory} {s : Client} (hpos : 0 < start) (hlt : start < addressSpace)
    (hs : Reach step (fun s c => Valid s c ∧ FitsCall c) (initial m start) s) {c : Call} (hv : Valid s c)
    (hf : FitsCall c) :
    ∃ r s', step s c = some (r, s') ∧ ∀ n, c.request = some n → ∃ blocks others, s'.live = (r, n) :: others ∧
      IsChain (next s'.heap.mem) 0 s'.heap.head blocks ∧ HasRoom s'.heap.brk blocks others r n := by
  obtain ⟨blocks, hi⟩ := hs.exists_invariant (I := fun blocks s => Inv start s.heap blocks s.live)
    ⟨[], inv_initial hpos hlt⟩ fun blocks s c hi hok => by
      obtain ⟨r, s', blocks', hst, hi', -⟩ := step_inv hi hok.1 hok.2
      exact ⟨r, s', blocks', hst, hi'⟩
  obtain ⟨r, s', blocks', hst, hi', hlive⟩ := step_inv hi hv hf
  refine ⟨r, s', hst, fun n hn => ?_⟩
  obtain ⟨others, heq⟩ := hlive n hn
  have harena := hi'.arena
  rw [heq] at harena
  exact ⟨blocks', others, heq, hi'.list, harena.hasRoom (by decide)⟩

end Edaf35.Project.MemoryList
