import Edaf35.Lib.Arena
import Edaf35.Lib.Chain
import Edaf35.Lib.Run
import Edaf35.Project.Dude

/-!
# The heap of `dude.c` in every run

The blocks on the list from `base` tile the heap obtained so far (`Inv`): a block of recorded size `s` takes
`ALIGN(s + META_SIZE)` bytes, the size never changes, and a live allocation lies in a block that is in use.  `malloc`
takes the first free block that is large enough or a new block at the break, `free` clears `in_use`, and clients write
into their allocations; all of them keep the invariant.
-/

namespace Edaf35.Project.Dude

variable {m m' : Memory} {a b v : Nat}

theorem metaSize_eq : metaSize = 24 := by decide

theorem align_eq {n : Nat} (h : n + 7 < addressSpace) : align n = (n + 7) / 8 * 8 := by
  rw [align, alignment, Nat.mod_eq_of_lt h]

/-! ### Headers -/

/-- The two memories hold the same header at `b`. -/
abbrev SameHeader (m m' : Memory) (b : Nat) : Prop := SameBytes m m' b sizeofList

theorem SameHeader.size_eq (h : SameHeader m m' b) : size m' b = size m b :=
  h.load_eq (o := 0) (by decide)

theorem SameHeader.inUse_eq (h : SameHeader m m' b) : inUse m' b = inUse m b :=
  congrArg (· % 2) (h.load_eq (by decide))

private theorem SameHeader.next_eq (h : SameHeader m m' b) : next m' b = next m b :=
  h.load_eq (by decide)

@[simp] theorem size_setSize (hv : v < addressSpace) : size (setSize m b v) b = v := by
  rw [size, setSize, load_store_same]
  exact Nat.mod_eq_of_lt hv

@[simp] theorem size_setNext : size (setNext m b v) b = size m b := load_store_disjoint (by omega)

@[simp] theorem size_setInUse : size (setInUse m b v) b = size m b := load_store_disjoint (by omega)

@[simp] theorem next_setNext (hv : v < addressSpace) : next (setNext m b v) b = v := by
  rw [next, setNext, load_store_same]
  exact Nat.mod_eq_of_lt hv

@[simp] theorem next_setInUse : next (setInUse m b v) b = next m b := load_store_disjoint (by omega)

@[simp] theorem inUse_setNext : inUse (setNext m b v) b = inUse m b :=
  congrArg (· % 2) (load_store_disjoint (by omega))

theorem inUse_setInUse (hv : v < 2) : inUse (setInUse m b v) b = v := by
  have hlt := load_lt m (b + 8) 4
  have hunit : load m (b + 8) 4 / 2 * 2 + v < 256 ^ 4 := by omega
  rw [inUse, setInUse, load_store_same, Nat.mod_eq_of_lt hunit]
  omega

/-! ### The invariant -/

/-- The bytes a block takes. -/
def extent (m : Memory) (b : Nat) : Nat := align ((size m b + metaSize) % addressSpace)

/-- The blocks tile the heap from `start` to the break, and `live` are the allocations `(p, n)` not yet freed. -/
structure Inv (start : Nat) (h : Heap) (blocks : List Nat) (live : List (Nat × Nat)) : Prop where
  start_pos : 0 < start
  brk_lt : h.brk < addressSpace
  list : IsChain (next h.mem) 0 h.base blocks
  arena : Arena sizeofList (extent h.mem) start h.brk blocks live
  used : ∀ b ∈ blocks, ∀ n, (b + sizeofList, n) ∈ live → inUse h.mem b = 1
  small : ∀ b ∈ blocks, size h.mem b + metaSize + (alignment - 1) < 2 ^ 63

variable {start : Nat} {h : Heap} {blocks : List Nat} {live : List (Nat × Nat)}

/-- What the size of a block says about its extent. -/
theorem extent_of_small (hs : size m b + metaSize + (alignment - 1) < 2 ^ 63) :
    extent m b = (size m b + 31) / 8 * 8 ∧ sizeofList + size m b ≤ extent m b := by
  rw [metaSize_eq, alignment] at hs
  have heq : extent m b = (size m b + 31) / 8 * 8 := by
    have hlt : size m b + 24 < addressSpace := by unfold addressSpace; omega
    rw [extent, metaSize_eq, Nat.mod_eq_of_lt hlt, align_eq (by unfold addressSpace; omega)]
  refine ⟨heq, ?_⟩
  rw [heq, sizeofList]
  omega

/-- The invariant survives a change of memory that keeps links and sizes. -/
private theorem Inv.congr (hi : Inv start h blocks live) {live' : List (Nat × Nat)}
    (hnext : ∀ b ∈ blocks, next m' b = next h.mem b) (hsize : ∀ b ∈ blocks, size m' b = size h.mem b)
    (harena : Arena sizeofList (extent h.mem) start h.brk blocks live')
    (hused : ∀ b ∈ blocks, ∀ n, (b + sizeofList, n) ∈ live' → inUse m' b = 1) :
    Inv start { h with mem := m' } blocks live' := by
  refine ⟨hi.start_pos, hi.brk_lt, hi.list.congr hnext, ?_, hused, ?_⟩
  · exact harena.congr fun b hb => by rw [extent, extent, hsize b hb]
  · intro b hb
    show size m' b + metaSize + (alignment - 1) < 2 ^ 63
    rw [hsize b hb]
    exact hi.small b hb

/-- Writing outside the headers keeps the invariant. -/
theorem Inv.congr_mem (hi : Inv start h blocks live) (heq : ∀ b ∈ blocks, SameHeader h.mem m' b) :
    Inv start { h with mem := m' } blocks live :=
  hi.congr (fun b hb => (heq b hb).next_eq) (fun b hb => (heq b hb).size_eq) hi.arena
    fun b hb n hn => (heq b hb).inUse_eq.trans (hi.used b hb n hn)

/-- Blocks start at multiples of 8 if the heap does. -/
private theorem Inv.aligned (hi : Inv start h blocks live) (hal : 8 ∣ start) : ∀ b ∈ blocks, 8 ∣ b := by
  have hext : ∀ b ∈ blocks, 8 ∣ extent h.mem b :=
    fun b hb => ⟨_, (extent_of_small (hi.small b hb)).1.trans (Nat.mul_comm _ _)⟩
  have ht := hi.arena.tiles
  clear hi
  induction blocks generalizing start with
  | nil => simp
  | cons a l ih =>
    obtain ⟨rfl, hpos, ht⟩ := ht
    intro b hb
    rcases List.mem_cons.1 hb with rfl | hb
    · exact hal
    · exact ih (Nat.dvd_add hal (hext _ (by simp))) (fun c hc => hext c (by simp [hc])) ht b hb

/-! ### Finding a block -/

/-- The walk of `find_block` over the rest `l` of the list: a free block that is large enough, or 0 and the last
block. -/
private theorem findLoop_spec (sz last : Nat) {l : List Nat} {fuel current : Nat}
    (hl : IsChain (next m) 0 current l) (hfuel : l.length < fuel) :
    ∃ r last', findLoop m sz fuel last current = some (r, last') ∧
      ((r ∈ l ∧ inUse m r = 0 ∧ sz ≤ size m r) ∨ (r = 0 ∧ last' = l.getLastD last)) := by
  induction l generalizing current last fuel with
  | nil =>
    obtain ⟨fuel, rfl⟩ : ∃ k, fuel = k + 1 := ⟨fuel - 1, by simp at hfuel; omega⟩
    cases hl
    exact ⟨0, last, by simp [findLoop], Or.inr ⟨rfl, rfl⟩⟩
  | cons a l ih =>
    obtain ⟨fuel, rfl⟩ : ∃ k, fuel = k + 1 := ⟨fuel - 1, by simp at hfuel; omega⟩
    obtain ⟨rfl, hne, ht⟩ := hl
    rw [findLoop, if_neg hne]
    by_cases hfit : inUse m current = 0 ∧ sz ≤ size m current
    · rw [if_pos hfit]
      exact ⟨current, last, rfl, Or.inl ⟨by simp, hfit⟩⟩
    · rw [if_neg hfit]
      obtain ⟨r, last', hs, hr⟩ := ih current ht (by simpa using hfuel)
      refine ⟨r, last', hs, ?_⟩
      rcases hr with ⟨hr, hfree⟩ | ⟨hr, hlast⟩
      · exact Or.inl ⟨by simp [hr], hfree⟩
      · refine Or.inr ⟨hr, ?_⟩
        rw [hlast]
        cases l <;> rfl

theorem findBlock_spec (hi : Inv start h blocks live) (sz : Nat) :
    ∃ r last, findBlock h h.base sz = some (r, last) ∧
      ((r ∈ blocks ∧ r ≠ 0 ∧ inUse h.mem r = 0 ∧ sz ≤ size h.mem r) ∨ (r = 0 ∧ last = blocks.getLastD 0)) := by
  have hlen := hi.arena.tiles.length_le
  have hbrk := hi.brk_lt
  have hfuel : blocks.length < addressSpace := by omega
  obtain ⟨r, last, hs, hr⟩ := findLoop_spec sz h.base hi.list hfuel
  refine ⟨r, last, hs, hr.imp (fun ⟨hm, hfree⟩ => ⟨hm, ?_, hfree⟩) fun ⟨h0, hlast⟩ => ⟨h0, hlast.trans ?_⟩⟩
  · rintro rfl; exact hi.list.stop_notMem hm
  · have hl := hi.list
    cases blocks with
    | nil => exact hl
    | cons a l => rfl

/-! ### Handing out, giving back, writing -/

private theorem Inv.sizeofList_le (hi : Inv start h blocks live) (ha : a ∈ blocks) : sizeofList ≤ extent h.mem a := by
  have := (extent_of_small (hi.small a ha)).2
  omega

/-- A store into the header of a block leaves the other headers alone. -/
theorem Inv.sameHeader (hi : Inv start h blocks live) (ha : a ∈ blocks) (hb : b ∈ blocks) (hab : b ≠ a) (m : Memory)
    {o n : Nat} (ho : o + n ≤ sizeofList) : SameHeader m (store m (a + o) n v) b := by
  have := hi.sizeofList_le ha
  have := hi.sizeofList_le hb
  have := hi.arena.tiles.apart ha hb (Ne.symm hab)
  exact sameBytes_store (by omega)

/-- Setting `in_use` of a block. -/
private theorem Inv.setInUse (hi : Inv start h blocks live) (ha : a ∈ blocks) (hv : v < 2) {live' : List (Nat × Nat)}
    (harena : Arena sizeofList (extent h.mem) start h.brk blocks live')
    (hself : ∀ n, (a + sizeofList, n) ∈ live' → v = 1)
    (hother : ∀ b n, b ≠ a → (b + sizeofList, n) ∈ live' → (b + sizeofList, n) ∈ live) :
    Inv start { h with mem := setInUse h.mem a v } blocks live' := by
  have hsame : ∀ b ∈ blocks, b ≠ a → SameHeader h.mem (Dude.setInUse h.mem a v) b :=
    fun b hb hba => hi.sameHeader ha hb hba h.mem (by decide)
  refine hi.congr (fun b hb => ?_) (fun b hb => ?_) harena fun b hb n hn => ?_
  · by_cases hba : b = a
    · rw [hba, next_setInUse]
    · exact (hsame b hb hba).next_eq
  · by_cases hba : b = a
    · rw [hba, size_setInUse]
    · exact (hsame b hb hba).size_eq
  · by_cases hba : b = a
    · subst hba
      rw [inUse_setInUse hv]
      exact hself n hn
    · rw [(hsame b hb hba).inUse_eq]
      exact hi.used b hb n (hother b n hba hn)

/-- A free block is handed out. -/
theorem Inv.take (hi : Inv start h blocks live) {sz : Nat} (ha : a ∈ blocks) (hfree : inUse h.mem a = 0)
    (hsz : sz ≤ size h.mem a) :
    Inv start { h with mem := Dude.setInUse h.mem a 1 } blocks ((a + sizeofList, sz) :: live) := by
  have hroom := (extent_of_small (hi.small a ha)).2
  refine hi.setInUse ha (by decide) (hi.arena.take ha (by omega) fun n hn => ?_) (fun _ _ => rfl) fun b n hba hn => ?_
  · have := hi.used a ha n hn
    omega
  · rcases List.mem_cons.1 hn with heq | hn
    · rw [Prod.mk.injEq] at heq
      omega
    · exact hn

/-- An allocation is given back. -/
private theorem Inv.release (hi : Inv start h blocks live) (ha : a ∈ blocks) :
    Inv start { h with mem := Dude.setInUse h.mem a 0 } blocks (live.filter (·.1 ≠ a + sizeofList)) := by
  refine hi.setInUse ha (by decide) (hi.arena.release _) (fun n hn => ?_) fun b n _ hn => (List.mem_filter.1 hn).1
  simpa using (List.mem_filter.1 hn).2

/-! ### A new block -/

/-- What `allocate_space` writes at the old break. -/
def newHeader (m : Memory) (b sz : Nat) : Memory := setInUse (setNext (setSize m b sz) b 0) b 1

private theorem sameHeader_newHeader {sz : Nat} (hab : a + sizeofList ≤ b) : SameHeader m (newHeader m b sz) a :=
  ((sameBytes_store (Or.inl hab)).trans (sameBytes_store (Or.inl (by omega)))).trans
    (sameBytes_store (Or.inl (by omega)))

theorem newHeader_fields {sz : Nat} (hsz : sz < addressSpace) :
    size (newHeader m b sz) b = sz ∧ next (newHeader m b sz) b = 0 ∧ inUse (newHeader m b sz) b = 1 := by
  refine ⟨?_, ?_, inUse_setInUse (by decide)⟩
  · rw [newHeader, size_setInUse, size_setNext, size_setSize hsz]
  · rw [newHeader, next_setInUse, next_setNext (by decide)]

/-- The list grows by a block at the break; `m'` differs from the old memory in the new header and in the link of the
last block. -/
private theorem Inv.extend (hi : Inv start h blocks live) {sz brk base : Nat}
    (hsz : sz + metaSize + (alignment - 1) < 2 ^ 63) (hbrk : brk = h.brk + align ((sz + metaSize) % addressSpace))
    (hlt : brk < addressSpace) (hlist : IsChain (next m') 0 base (blocks ++ [h.brk]))
    (hsize : ∀ b ∈ blocks, size m' b = size h.mem b) (hused : ∀ b ∈ blocks, inUse m' b = inUse h.mem b)
    (hnew : size m' h.brk = sz) (hnewUsed : inUse m' h.brk = 1) :
    Inv start { mem := m', brk := brk, base := base } (blocks ++ [h.brk]) ((h.brk + sizeofList, sz) :: live) := by
  have hext : extent m' h.brk = align ((sz + metaSize) % addressSpace) := by rw [extent, hnew]
  have hroom := (extent_of_small (m := m') (b := h.brk) (by rw [hnew]; exact hsz)).2
  rw [hnew] at hroom
  have hfresh : ∀ n, (h.brk + sizeofList, n) ∉ live := fun n hn => by
    have := (hi.arena.inside hn).2
    unfold sizeofList at this
    omega
  have harena : Arena sizeofList (extent m') start h.brk blocks live :=
    hi.arena.congr fun b hb => by rw [extent, extent, hsize b hb]
  refine ⟨hi.start_pos, hlt, hlist, ?_, fun b hb n hn => ?_, fun b hb => ?_⟩
  · have hpush := harena.push (by unfold sizeofList at hroom; omega)
    rw [hext, ← hbrk] at hpush
    exact hpush.take (by simp) (by omega) hfresh
  · rcases List.mem_append.1 hb with hb | hb
    · rcases List.mem_cons.1 hn with heq | hn
      · rw [Prod.mk.injEq] at heq
        have := (hi.arena.tiles.bounds hb)
        omega
      · exact (hused b hb).trans (hi.used b hb n hn)
    · rw [List.mem_singleton.1 hb]; exact hnewUsed
  · show size m' b + metaSize + (alignment - 1) < 2 ^ 63
    rcases List.mem_append.1 hb with hb | hb
    · rw [hsize b hb]; exact hi.small b hb
    · rw [List.mem_singleton.1 hb, hnew]; exact hsz

/-- The header written at the break and the link to it leave the headers of the blocks as they are, but for the link of
the last block. -/
theorem Inv.linked (hi : Inv start h blocks live) {sz : Nat} {m₂ : Memory}
    (hm₂ : m₂ = if blocks.getLastD 0 ≠ 0 then setNext (newHeader h.mem h.brk sz) (blocks.getLastD 0) h.brk
      else newHeader h.mem h.brk sz) :
    (∀ b ∈ blocks, size m₂ b = size h.mem b ∧ inUse m₂ b = inUse h.mem b ∧
      next m₂ b = if blocks.getLast? = some b then h.brk else next h.mem b) ∧
      SameHeader (newHeader h.mem h.brk sz) m₂ h.brk := by
  have hpos := hi.start_pos
  have hle := hi.arena.tiles.le
  have hend : ∀ b ∈ blocks, b + sizeofList ≤ h.brk := fun b hb => by
    have := hi.sizeofList_le hb
    have := hi.arena.tiles.bounds hb
    omega
  have hbelow : ∀ b ∈ blocks, SameHeader h.mem (newHeader h.mem h.brk sz) b :=
    fun b hb => sameHeader_newHeader (hend b hb)
  have hother : ∀ b, b ∈ blocks ∨ b = h.brk → b ≠ blocks.getLastD 0 →
      SameHeader (newHeader h.mem h.brk sz) m₂ b := by
    intro b hb hbl
    rw [hm₂]
    split
    · by_cases hnil : blocks = []
      · subst hnil
        exact absurd rfl ‹([] : List Nat).getLastD 0 ≠ 0›
      · have hlast := getLastD_mem 0 hnil
        rcases hb with hb | rfl
        · exact hi.sameHeader hlast hb hbl _ (by decide)
        · have := hend _ hlast
          exact sameBytes_store (Or.inr (by unfold sizeofList at this; omega))
    · exact fun _ _ _ => rfl
  constructor
  · intro b hb
    by_cases hbl : b = blocks.getLastD 0
    · have hb0 : b ≠ 0 := by rintro rfl; exact hi.list.stop_notMem hb
      rw [if_pos ((getLast?_eq_some_iff 0 hb).2 hbl), hm₂, ← hbl, if_pos hb0]
      exact ⟨size_setNext.trans (hbelow b hb).size_eq, inUse_setNext.trans (hbelow b hb).inUse_eq,
        next_setNext hi.brk_lt⟩
    · rw [if_neg fun hl => hbl ((getLast?_eq_some_iff 0 hb).1 hl)]
      have hsame : SameHeader h.mem m₂ b := (hbelow b hb).trans (hother b (Or.inl hb) hbl)
      exact ⟨hsame.size_eq, hsame.inUse_eq, hsame.next_eq⟩
  · apply hother h.brk (Or.inr rfl)
    by_cases hnil : blocks = []
    · rw [hnil]
      exact (by omega : h.brk ≠ 0)
    · have := hend _ (getLastD_mem 0 hnil)
      unfold sizeofList at this
      omega

/-- `allocate_space` puts a block at the break, or leaves the heap alone. -/
theorem allocateSpace_spec (hi : Inv start h blocks live) {sz : Nat} (hsz : sz + metaSize + (alignment - 1) < 2 ^ 63)
    (ok : Bool) :
    allocateSpace h (blocks.getLastD 0) sz ok = (0, h) ∨
      ∃ h', allocateSpace h (blocks.getLastD 0) sz ok = (h.brk, h') ∧ h.brk ≠ 0 ∧ h'.base = h.base ∧ h.brk ≤ h'.brk ∧
        Inv start (if h.base = 0 then { h' with base := h.brk } else h') (blocks ++ [h.brk])
          ((h.brk + sizeofList, sz) :: live) := by
  have hpos := hi.start_pos
  have hle := hi.arena.tiles.le
  have hmod : (sz + metaSize) % addressSpace = sz + metaSize :=
    Nat.mod_eq_of_lt (by rw [alignment] at hsz; unfold addressSpace; omega)
  have halign : align ((sz + metaSize) % addressSpace) < 2 ^ 63 := by
    rw [alignment] at hsz
    rw [hmod, align_eq (by unfold addressSpace; omega)]
    omega
  unfold allocateSpace
  cases hs : sbrk h.brk (align ((sz + metaSize) % addressSpace)) ok with
  | none => exact Or.inl rfl
  | some brk =>
    obtain ⟨-, hbrk, hlt⟩ := (sbrk_eq_some halign).1 hs
    refine Or.inr ⟨_, rfl, by omega, rfl, (by omega : h.brk ≤ brk), ?_⟩
    have hszlt : sz < addressSpace := by rw [alignment] at hsz; unfold addressSpace; omega
    obtain ⟨hnsize, hnnext, hnused⟩ := newHeader_fields (m := h.mem) (b := h.brk) hszlt
    obtain ⟨m₂, hm₂⟩ : ∃ m₂, m₂ = if blocks.getLastD 0 ≠ 0 then
        setNext (newHeader h.mem h.brk sz) (blocks.getLastD 0) h.brk else newHeader h.mem h.brk sz := ⟨_, rfl⟩
    obtain ⟨hlink, hnew⟩ := hi.linked hm₂
    have hlist : IsChain (next m₂) 0 (if h.base = 0 then h.brk else h.base) (blocks ++ [h.brk]) := by
      refine hi.list.snoc (by omega) (hnew.next_eq.trans hnnext) (fun b hb => (hlink b hb).2.2) (fun hnil => ?_)
        fun hne => ?_
      · have hl := hi.list
        rw [hnil] at hl
        exact if_pos hl
      · refine if_neg fun h0 => hne ?_
        have hl := hi.list
        rw [h0] at hl
        exact hl.eq_nil
    have hinv := hi.extend hsz hbrk hlt hlist (fun b hb => (hlink b hb).1) (fun b hb => (hlink b hb).2.1)
      (hnew.size_eq.trans hnsize) (hnew.inUse_eq.trans hnused)
    rw [hm₂] at hinv
    by_cases h0 : h.base = 0
    · rw [if_pos h0] at hinv ⊢; exact hinv
    · rw [if_neg h0] at hinv ⊢; exact hinv

/-! ### The calls of a client -/

abbrev Client := Project.Client Heap

/-- A call of `malloc` or `free`, or a write of the client. -/
inductive Call
  | malloc (sz : UInt64) (ok : Bool)
  | free (ptr : Nat)
  | write (x : Nat) (v : UInt8)

/-- One call: the pointer it returns (0 if it returns none) and the state after it. -/
def step (s : Client) : Call → Option (Nat × Client)
  | .malloc sz ok => (malloc s.heap sz ok).map fun x =>
      (x.1, ⟨x.2, if x.1 = 0 then s.live else (x.1, sz.toNat) :: s.live⟩)
  | .free ptr => (free s.heap ptr).map fun h => (0, ⟨h, s.live.filter (·.1 ≠ ptr)⟩)
  | .write x v => some (0, ⟨{ s.heap with mem := Function.update s.heap.mem x v }, s.live⟩)

/-- Requests are small enough for `ALIGN`, only `NULL` and live pointers are freed, and clients write into their
allocations. -/
def Allowed (s : Client) : Call → Prop
  | .malloc sz _ => sz.toNat + metaSize + (alignment - 1) < 2 ^ 63
  | .free ptr => ptr = 0 ∨ ∃ n, (ptr, n) ∈ s.live
  | .write x _ => ∃ p n, (p, n) ∈ s.live ∧ p ≤ x ∧ x < p + n

/-- The state before the first call. -/
def initial (m : Memory) (start : Nat) : Client := ⟨⟨m, start, 0⟩, []⟩

theorem inv_initial {m : Memory} (hpos : 0 < start) (hlt : start < addressSpace) :
    Inv start (initial m start).heap [] (initial m start).live :=
  ⟨hpos, hlt, rfl, ⟨rfl, by simp [initial], by simp [initial]⟩, by simp, by simp⟩

/-- `malloc` returns 0 and leaves the heap alone, or a pointer to a block that was not live. -/
theorem malloc_spec (hi : Inv start h blocks live) {sz : UInt64} (hsz : sz.toNat + metaSize + (alignment - 1) < 2 ^ 63)
    (ok : Bool) :
    malloc h sz ok = some (0, h) ∨
      ∃ a h' blocks', malloc h sz ok = some (a + sizeofList, h') ∧ h.brk ≤ h'.brk ∧
        Inv start h' blocks' ((a + sizeofList, sz.toNat) :: live) := by
  unfold malloc
  by_cases h0 : sz.toNat = 0
  · exact Or.inl (if_pos h0)
  · rw [if_neg h0]
    obtain ⟨r, last, hfind, ⟨hr, hr0, hfree, hle⟩ | ⟨rfl, rfl⟩⟩ := findBlock_spec hi sz.toNat
    · refine Or.inr ⟨r, { h with mem := setInUse h.mem r 1 }, blocks, ?_, Nat.le_refl _, hi.take hr hfree hle⟩
      simp only [hfind, Option.bind_eq_bind, Option.bind_some, if_neg hr0, Option.pure_def]
    · rcases allocateSpace_spec hi hsz ok with hs | ⟨h', hs, hbrk, hbase, hle, hnew⟩
      · left
        simp only [hfind, Option.bind_eq_bind, Option.bind_some, if_true, hs, Option.pure_def]
      · have hle' : h.brk ≤ (if h.base = 0 then { h' with base := h.brk } else h').brk := by
          split <;> exact hle
        refine Or.inr ⟨h.brk, _, _, ?_, hle', hnew⟩
        simp only [hfind, Option.bind_eq_bind, Option.bind_some, if_true, hs, if_neg hbrk, Option.pure_def, hbase]

theorem free_spec (hi : Inv start h blocks live) {ptr : Nat} (hp : ptr = 0 ∨ ∃ n, (ptr, n) ∈ live) :
    ∃ h', free h ptr = some h' ∧ Inv start h' blocks (live.filter (·.1 ≠ ptr)) := by
  unfold free
  rcases hp with rfl | ⟨n, hn⟩
  · refine ⟨h, if_pos rfl, ?_⟩
    have hall : live.filter (·.1 ≠ 0) = live := List.filter_eq_self.2 fun x hx => by
      have := (hi.arena.inside (p := x.1) (n := x.2) hx).1
      have := hi.start_pos
      simp only [ne_eq, decide_eq_true_eq]
      omega
    rwa [hall]
  · obtain ⟨a, ha, rfl, -⟩ := hi.arena.room ptr n hn
    have hused := hi.used a ha n hn
    refine ⟨_, ?_, hi.release ha⟩
    rw [if_neg (by unfold sizeofList; omega)]
    simp only [Nat.add_sub_cancel, hused, if_true]

/-- Every call keeps the invariant; the assertion of `free` holds. -/
theorem step_inv {s : Client} {c : Call} (hi : Inv start s.heap blocks s.live) (hc : Allowed s c) :
    ∃ r s' blocks', step s c = some (r, s') ∧ Inv start s'.heap blocks' s'.live := by
  cases c with
  | malloc sz ok =>
    rcases malloc_spec hi hc ok with hs | ⟨a, h', blocks', hs, -, hi'⟩
    · exact ⟨0, _, blocks, by rw [step, hs]; rfl, by simpa using hi⟩
    · refine ⟨a + sizeofList, _, blocks', by rw [step, hs]; rfl, ?_⟩
      rw [if_neg (by unfold sizeofList; omega)]
      exact hi'
  | free ptr =>
    obtain ⟨h', hs, hi'⟩ := free_spec hi hc
    exact ⟨0, _, blocks, by rw [step, hs]; rfl, hi'⟩
  | write x v =>
    obtain ⟨p, n, hp, h₁, h₂⟩ := hc
    refine ⟨0, _, blocks, rfl, hi.congr_mem fun b hb k hk₁ hk₂ => Function.update_of_ne ?_ _ _⟩
    have := hi.arena.header hp hb
    omega

/-- In every state reached from the empty heap the invariant holds. -/
theorem reach_inv {m : Memory} {s : Client} (hpos : 0 < start) (hlt : start < addressSpace)
    (hs : Reach step Allowed (initial m start) s) : ∃ blocks, Inv start s.heap blocks s.live := by
  exact hs.exists_invariant (I := fun blocks s => Inv start s.heap blocks s.live) ⟨[], inv_initial hpos hlt⟩
    fun _ _ _ hi hc => step_inv hi hc

/-- In every run every call returns.  A pointer that `malloc` returns is a multiple of 8, its `sz` bytes lie in the
heap and overlap neither a live allocation nor a header; when it returns 0 the heap is what it was. -/
theorem malloc_disjoint {m : Memory} {s : Client} (hpos : 0 < start) (hal : 8 ∣ start) (hlt : start < addressSpace)
    (hs : Reach step Allowed (initial m start) s) {c : Call} (hc : Allowed s c) :
    ∃ r s', step s c = some (r, s') ∧ ∀ sz ok, c = .malloc sz ok →
      (r = 0 → s'.heap = s.heap) ∧
      (r ≠ 0 → 8 ∣ r ∧ start ≤ r ∧ r + sz.toNat ≤ s'.heap.brk ∧
        (∀ q n, (q, n) ∈ s.live → r + sz.toNat ≤ q ∨ q + n ≤ r) ∧
        ∃ blocks, IsChain (next s'.heap.mem) 0 s'.heap.base blocks ∧
          ∀ b ∈ blocks, r + sz.toNat ≤ b ∨ b + sizeofList ≤ r) := by
  obtain ⟨blocks, hi⟩ := reach_inv hpos hlt hs
  by_cases hm : ∃ sz ok, c = .malloc sz ok
  · obtain ⟨sz, ok, rfl⟩ := hm
    rcases malloc_spec hi hc ok with hms | ⟨a, h', blocks', hms, -, hi'⟩
    · refine ⟨0, _, by rw [step, hms]; rfl, ?_⟩
      rintro sz' ok' heq
      obtain ⟨rfl, rfl⟩ := Call.malloc.inj heq
      exact ⟨fun _ => rfl, fun h => absurd rfl h⟩
    · refine ⟨a + sizeofList, _, by rw [step, hms]; rfl, ?_⟩
      rintro sz' ok' heq
      obtain ⟨rfl, rfl⟩ := Call.malloc.inj heq
      refine ⟨fun h => by simp [sizeofList] at h, fun _ => ?_⟩
      have hmem : (a + sizeofList, sz.toNat) ∈ (a + sizeofList, sz.toNat) :: s.live := by simp
      have hin := hi'.arena.inside hmem
      obtain ⟨b, hb, hba, -⟩ := hi'.arena.room _ _ hmem
      have hdistinct := hi'.arena.distinct
      rw [List.map_cons, List.nodup_cons] at hdistinct
      refine ⟨?_, by omega, hin.2, fun q n hq => ?_, blocks', hi'.list, fun b hb => hi'.arena.header hmem hb⟩
      · have := hi'.aligned hal b hb
        rw [hba]
        exact Nat.dvd_add this (by decide)
      · apply hi'.arena.disjoint hmem (List.mem_cons_of_mem _ hq)
        rintro rfl
        exact hdistinct.1 (List.mem_map.2 ⟨_, hq, rfl⟩)
  · obtain ⟨r, s', -, hst, -⟩ := step_inv hi hc
    exact ⟨r, s', hst, fun sz ok heq => absurd ⟨sz, ok, heq⟩ hm⟩

/-- Two blocks are allocated, and then a third of 9 bytes. -/
theorem malloc_disjoint_third :
    ∃ s s', Reach step Allowed (initial (fun _ => 0) 4096) s ∧ s.live = [(4152, 6), (4120, 5)] ∧
      step s (.malloc 9 true) = some (4184, s') ∧ 8 ∣ 4184 ∧ 4184 + 9 ≤ s'.heap.brk ∧
      ∃ blocks, IsChain (next s'.heap.mem) 0 s'.heap.base blocks ∧
        ∀ b ∈ blocks, 4184 + 9 ≤ b ∨ b + sizeofList ≤ 4184 := by
  have hev : ((step (initial (fun _ => 0) 4096) (.malloc 5 true)).bind fun x =>
      (step x.2 (.malloc 6 true)).bind fun y => (step y.2 (.malloc 9 true)).map fun z => (z.1, y.2.live)) =
      some (4184, [(4152, 6), (4120, 5)]) := by decide +kernel
  obtain ⟨⟨r₁, s₁⟩, hs₁, hev⟩ := Option.bind_eq_some_iff.1 hev
  obtain ⟨⟨r₂, s₂⟩, hs₂, hev⟩ := Option.bind_eq_some_iff.1 hev
  obtain ⟨⟨r₃, s₃⟩, hs₃, hev⟩ := Option.map_eq_some_iff.1 hev
  simp only [Prod.mk.injEq] at hev
  obtain ⟨rfl, hlive⟩ := hev
  have hok : ∀ (s : Client) (sz : UInt64), sz.toNat ≤ 9 → Allowed s (.malloc sz true) := fun s sz h => by
    rw [Allowed, metaSize_eq, alignment]
    omega
  have hreach : Reach step Allowed (initial (fun _ => 0) 4096) s₂ :=
    (Reach.refl.tail (hok _ 5 (by decide)) hs₁).tail (hok _ 6 (by decide)) hs₂
  obtain ⟨r, s', hs', hsafe⟩ := malloc_disjoint (by decide) (by decide) (by decide) hreach (hok s₂ 9 (by decide))
  rw [hs₃, Option.some.injEq, Prod.mk.injEq] at hs'
  obtain ⟨rfl, rfl⟩ := hs'
  obtain ⟨hdvd, -, hend, -, hheaders⟩ := (hsafe 9 true rfl).2 (by decide)
  exact ⟨s₂, s₃, hreach, hlive, hs₃, hdvd, hend, hheaders⟩

end Edaf35.Project.Dude
