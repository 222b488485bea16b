import Mathlib.Algebra.BigOperators.Ring.Finset
import Mathlib.Algebra.Order.BigOperators.Group.Finset
import Edaf35.Project.DudeHeap

/-!
# How far the heap of `dude.c` grows

`dude.c` never gives memory back to the kernel and never joins blocks.  It puts a new block at the break only when every
block of at least that size is in use, and a block in use belongs to a live allocation.  So there are never more blocks
of one size than there were live allocations at one time, and the heap has a bound that does not depend on the number
of calls.  A client that asks for the smaller sizes first reaches it, since no block serves a larger request later.
-/

namespace Edaf35.Project.Dude

/-- Numbers of which none occurs more than `P` times. -/
private theorem sum_map_le {l : List Nat} {S : Finset Nat} {P : Nat} (g : Nat → Nat) (hS : ∀ n ∈ l, n ∈ S)
    (hP : ∀ n, l.count n ≤ P) : (l.map g).sum ≤ P * ∑ n ∈ S, g n := by
  have hsub : l.toFinset ⊆ S := fun n hn => hS n (List.mem_toFinset.1 hn)
  calc (l.map g).sum = ∑ n ∈ l.toFinset, l.count n • g n := Finset.sum_list_map_count l g
    _ ≤ ∑ n ∈ l.toFinset, P * g n := Finset.sum_le_sum fun n _ => Nat.mul_le_mul_right _ (hP n)
    _ ≤ ∑ n ∈ S, P * g n := Finset.sum_le_sum_of_subset hsub
    _ = P * ∑ n ∈ S, g n := (Finset.mul_sum S g P).symm

variable {start P : Nat} {S : Finset Nat} {m m' : Memory} {h h' : Heap} {blocks : List Nat} {live : List (Nat × Nat)}

/-- Blocks in use are live, and there are at most `P` of each size in `S`. -/
structure Frugal (S : Finset Nat) (P : Nat) (m : Memory) (blocks : List Nat) (live : List (Nat × Nat)) : Prop where
  held : ∀ b ∈ blocks, inUse m b ≠ 0 → ∃ n, (b + sizeofList, n) ∈ live
  asked : ∀ b ∈ blocks, size m b ∈ S
  count : ∀ n, (blocks.map (size m)).count n ≤ P

/-- The sizes stay, and so do the blocks in use and the live allocations. -/
private theorem Frugal.congr (hf : Frugal S P m blocks live) {live' : List (Nat × Nat)}
    (hsize : ∀ b ∈ blocks, size m' b = size m b)
    (hheld : ∀ b ∈ blocks, inUse m' b ≠ 0 → ∃ n, (b + sizeofList, n) ∈ live') : Frugal S P m' blocks live' := by
  have hmap : blocks.map (size m') = blocks.map (size m) := List.map_congr_left hsize
  refine ⟨hheld, fun b hb => ?_, fun n => ?_⟩
  · rw [hsize b hb]
    exact hf.asked b hb
  · rw [hmap]
    exact hf.count n

/-- If no block of a size is free, there are at most as many as live allocations. -/
private theorem Frugal.count_le (hf : Frugal S P m blocks live) (hnd : blocks.Nodup) {n : Nat}
    (hfull : ∀ b ∈ blocks, size m b = n → inUse m b ≠ 0) : (blocks.map (size m)).count n ≤ live.length := by
  have hcount : (blocks.map (size m)).count n = (blocks.filter (size m · == n)).length := by
    rw [List.count, List.countP_map, List.countP_eq_length_filter, Function.comp_def]
  have hsub : (blocks.filter (size m · == n)).map (· + sizeofList) ⊆ live.map Prod.fst := by
    intro p hp
    obtain ⟨b, hb, rfl⟩ := List.mem_map.1 hp
    obtain ⟨hb, hbn⟩ := List.mem_filter.1 hb
    obtain ⟨k, hk⟩ := hf.held b hb (hfull b hb (by simpa using hbn))
    exact List.mem_map.2 ⟨_, hk, rfl⟩
  have hndMap : ((blocks.filter (size m · == n)).map (· + sizeofList)).Nodup :=
    (hnd.filter _).map fun a b hab => Nat.add_right_cancel hab
  have hle := (hndMap.subperm hsub).length_le
  rw [List.length_map, List.length_map] at hle
  omega

/-- A new block. -/
private theorem Frugal.push (hf : Frugal S P m blocks live) {b n : Nat} {live' : List (Nat × Nat)} (hn : n ∈ S)
    (hcount : (blocks.map (size m)).count n < P) (hsize : ∀ b ∈ blocks, size m' b = size m b)
    (hused : ∀ b ∈ blocks, inUse m' b = inUse m b) (hnew : size m' b = n) (hlive : (b + sizeofList, n) ∈ live')
    (hsub : ∀ x ∈ live, x ∈ live') : Frugal S P m' (blocks ++ [b]) live' := by
  have hmap : blocks.map (size m') = blocks.map (size m) := List.map_congr_left hsize
  refine ⟨fun c hc hu => ?_, fun c hc => ?_, fun k => ?_⟩
  · rcases List.mem_append.1 hc with hc | hc
    · rw [hused c hc] at hu
      obtain ⟨k, hk⟩ := hf.held c hc hu
      exact ⟨k, hsub _ hk⟩
    · rw [List.mem_singleton.1 hc]
      exact ⟨n, hlive⟩
  · rcases List.mem_append.1 hc with hc | hc
    · rw [hsize c hc]
      exact hf.asked c hc
    · rw [List.mem_singleton.1 hc, hnew]
      exact hn
  · rw [List.map_append, hmap, List.map_singleton, hnew, List.count_append]
    by_cases hk : k = n
    · subst hk
      rw [List.count_singleton_self]
      exact hcount
    · rw [List.count_singleton, if_neg (by simpa using Ne.symm hk)]
      exact hf.count k

/-! ### The functions -/

/-- If `find_block` finds nothing, no free block is large enough. -/
private theorem findLoop_eq_zero {sz fuel last last' current : Nat} {l : List Nat} (hl : IsChain (next m) 0 current l)
    (hs : findLoop m sz fuel last current = some (0, last')) : ∀ b ∈ l, ¬(inUse m b = 0 ∧ sz ≤ size m b) := by
  induction l generalizing fuel last current with
  | nil => simp
  | cons a l ih =>
    obtain ⟨rfl, hne, ht⟩ := hl
    cases fuel with
    | zero => cases hs
    | succ fuel =>
      rw [findLoop, if_neg hne] at hs
      by_cases hfit : inUse m current = 0 ∧ sz ≤ size m current
      · rw [if_pos hfit, Option.some.injEq, Prod.mk.injEq] at hs
        exact absurd hs.1 hne
      · rw [if_neg hfit] at hs
        intro b hb
        rcases List.mem_cons.1 hb with rfl | hb
        · exact hfit
        · exact ih ht hs b hb

/-- A new block leaves the fields of the others as they are, but for a link. -/
private theorem allocateSpace_fields (hi : Inv start h blocks live) {sz r : Nat} {ok : Bool} (hsz : sz < addressSpace)
    (hs : allocateSpace h (blocks.getLastD 0) sz ok = (r, h')) (hr : r ≠ 0) :
    (∀ b ∈ blocks, size h'.mem b = size h.mem b ∧ inUse h'.mem b = inUse h.mem b) ∧ size h'.mem h.brk = sz := by
  unfold allocateSpace at hs
  cases hb : sbrk h.brk (align ((sz + metaSize) % addressSpace)) ok with
  | none =>
    rw [hb] at hs
    cases hs
    exact absurd rfl hr
  | some brk =>
    rw [hb] at hs
    cases hs
    obtain ⟨m₂, hm₂⟩ : ∃ m₂, m₂ = if blocks.getLastD 0 ≠ 0 then
        setNext (newHeader h.mem h.brk sz) (blocks.getLastD 0) h.brk else newHeader h.mem h.brk sz := ⟨_, rfl⟩
    obtain ⟨hlink, hnew⟩ := hi.linked hm₂
    rw [hm₂] at hlink hnew
    exact ⟨fun b hb => ⟨(hlink b hb).1, (hlink b hb).2.1⟩, hnew.size_eq.trans (newHeader_fields hsz).1⟩

/-- Setting `in_use` of a block, which is live afterwards if it is in use. -/
private theorem Frugal.setInUse (hf : Frugal S P h.mem blocks live) (hi : Inv start h blocks live) {a v : Nat}
    (ha : a ∈ blocks) (hv : v < 2) {live' : List (Nat × Nat)} (hself : v ≠ 0 → ∃ n, (a + sizeofList, n) ∈ live')
    (hother : ∀ b n, b ≠ a → (b + sizeofList, n) ∈ live → (b + sizeofList, n) ∈ live') :
    Frugal S P (setInUse h.mem a v) blocks live' := by
  have hsame : ∀ b ∈ blocks, b ≠ a → SameHeader h.mem (Dude.setInUse h.mem a v) b :=
    fun b hb hba => hi.sameHeader ha hb hba h.mem (by decide)
  refine hf.congr (fun b hb => ?_) fun b hb hu => ?_
  · by_cases hba : b = a
    · rw [hba, size_setInUse]
    · exact (hsame b hb hba).size_eq
  · by_cases hba : b = a
    · subst hba
      rw [inUse_setInUse hv] at hu
      exact hself hu
    · rw [(hsame b hb hba).inUse_eq] at hu
      obtain ⟨n, hn⟩ := hf.held b hb hu
      exact ⟨n, hother b n hba hn⟩

private theorem malloc_frugal (hi : Inv start h blocks live) (hf : Frugal S P h.mem blocks live) {sz : UInt64} {r : Nat}
    {ok : Bool} (hsz : sz.toNat + metaSize + (alignment - 1) < 2 ^ 63) (hS : sz.toNat ∈ S) (hP : live.length < P)
    (hs : malloc h sz ok = some (r, h')) :
    ∃ blocks', Inv start h' blocks' (if r = 0 then live else (r, sz.toNat) :: live) ∧
      Frugal S P h'.mem blocks' (if r = 0 then live else (r, sz.toNat) :: live) := by
  have hne : ∀ b, b + sizeofList ≠ 0 := fun b => by unfold sizeofList; omega
  unfold malloc at hs
  by_cases h0 : sz.toNat = 0
  · rw [if_pos h0] at hs
    cases hs
    exact ⟨blocks, hi, hf⟩
  · obtain ⟨p, last, hfind, ⟨hp, hp0, hfree, hle⟩ | ⟨rfl, rfl⟩⟩ := findBlock_spec hi sz.toNat
    · simp only [if_neg h0, hfind, Option.bind_eq_bind, Option.bind_some, if_neg hp0, Option.pure_def] at hs
      cases hs
      rw [if_neg (hne p)]
      refine ⟨blocks, hi.take hp hfree hle, hf.setInUse hi hp (by decide) (fun _ => ⟨_, List.mem_cons_self ..⟩) ?_⟩
      exact fun b n _ hn => List.mem_cons_of_mem _ hn
    · simp only [if_neg h0, hfind, Option.bind_eq_bind, Option.bind_some, if_true, Option.pure_def] at hs
      rcases allocateSpace_spec hi hsz ok with ha | ⟨h₁, ha, hbrk, hbase, -, hi₁⟩
      · simp only [ha, if_true] at hs
        cases hs
        exact ⟨blocks, hi, hf⟩
      · -- no block of this size is free, so there are fewer than `P`
        have hfull := findLoop_eq_zero hi.list hfind
        have hcount : (blocks.map (size h.mem)).count sz.toNat < P := by
          refine lt_of_le_of_lt (hf.count_le hi.arena.tiles.nodup fun b hb hsize hu => ?_) hP
          exact hfull b hb ⟨hu, hsize.ge⟩
        have hszlt : sz.toNat < addressSpace := by unfold addressSpace; omega
        obtain ⟨hfields, hnew⟩ := allocateSpace_fields hi hszlt ha hbrk
        have hf₁ : Frugal S P h₁.mem (blocks ++ [h.brk]) ((h.brk + sizeofList, sz.toNat) :: live) :=
          hf.push hS hcount (fun b hb => (hfields b hb).1) (fun b hb => (hfields b hb).2) hnew
            (List.mem_cons_self ..) fun x hx => List.mem_cons_of_mem _ hx
        simp only [ha, if_neg hbrk, hbase] at hs
        cases hs
        rw [if_neg (hne _)]
        refine ⟨_, hi₁, ?_⟩
        split
        · exact hf₁
        · exact hf₁

/-! ### Runs -/

/-- Allowed calls with requests of sizes in `S`, made while less than `P` allocations are live. -/
def Modest (S : Finset Nat) (P : Nat) (s : Client) (c : Call) : Prop :=
  Allowed s c ∧ ∀ sz ok, c = .malloc sz ok → sz.toNat ∈ S ∧ s.live.length < P

theorem step_frugal {s s' : Client} {c : Call} {r : Nat} (hi : Inv start s.heap blocks s.live)
    (hf : Frugal S P s.heap.mem blocks s.live) (hc : Modest S P s c) (hs : step s c = some (r, s')) :
    ∃ blocks', Inv start s'.heap blocks' s'.live ∧ Frugal S P s'.heap.mem blocks' s'.live := by
  obtain ⟨hallowed, hmodest⟩ := hc
  cases c with
  | malloc sz ok =>
    obtain ⟨⟨p, h'⟩, hm, heq⟩ := Option.map_eq_some_iff.1 hs
    cases heq
    obtain ⟨hS, hP⟩ := hmodest sz ok rfl
    exact malloc_frugal hi hf hallowed hS hP hm
  | free ptr =>
    obtain ⟨h', hm, heq⟩ := Option.map_eq_some_iff.1 hs
    cases heq
    obtain ⟨h₁, hm₁, hi₁⟩ := free_spec hi hallowed
    obtain rfl : h₁ = h' := Option.some.inj (hm₁.symm.trans hm)
    refine ⟨blocks, hi₁, ?_⟩
    unfold free at hm
    by_cases h0 : ptr = 0
    · rw [if_pos h0] at hm
      cases hm
      refine hf.congr (fun _ _ => rfl) fun b hb hu => ?_
      obtain ⟨n, hn⟩ := hf.held b hb hu
      exact ⟨n, List.mem_filter.2 ⟨hn, by unfold sizeofList; simp [h0]⟩⟩
    · obtain ⟨n, hn⟩ := hallowed.resolve_left h0
      obtain ⟨a, ha, rfl, -⟩ := hi.arena.room ptr n hn
      rw [if_neg h0, Nat.add_sub_cancel] at hm
      simp only at hm
      split at hm
      · cases hm
        refine hf.setInUse hi ha (by decide) (fun hne => absurd rfl hne) fun b n hba hn => ?_
        exact List.mem_filter.2 ⟨hn, by simpa using hba⟩
      · cases hm
  | write x v =>
    cases hs
    obtain ⟨p, n, hp, h₁, h₂⟩ := hallowed
    have hsame : ∀ b ∈ blocks, SameHeader s.heap.mem (Function.update s.heap.mem x v) b := fun b hb k hk₁ hk₂ =>
      Function.update_of_ne (by have := hi.arena.header hp hb; omega) ..
    refine ⟨blocks, hi.congr_mem hsame, hf.congr (fun b hb => (hsame b hb).size_eq) fun b hb hu => ?_⟩
    rw [(hsame b hb).inUse_eq] at hu
    exact hf.held b hb hu

/-- In every run in which at most `P` allocations are live at a time and the sizes of the requests are in `S`, the heap
is not larger than `P` blocks of each of these sizes, however many calls there are. -/
theorem heap_bounded {m : Memory} {s : Client} (hpos : 0 < start) (hlt : start < addressSpace)
    (hs : Reach step (Modest S P) (initial m start) s) :
    s.heap.brk ≤ start + P * ∑ n ∈ S, (n + 31) / 8 * 8 := by
  obtain ⟨blocks, hi, hf⟩ := hs.invariant
    (I := fun s => ∃ blocks, Inv start s.heap blocks s.live ∧ Frugal S P s.heap.mem blocks s.live)
    ⟨[], inv_initial hpos hlt, by simp, by simp, by simp⟩
    fun s c r s' ⟨blocks, hi, hf⟩ hc hst => step_frugal hi hf hc hst
  have hsum : (blocks.map (extent s.heap.mem)).sum ≤ P * ∑ n ∈ S, (n + 31) / 8 * 8 := by
    have hext : blocks.map (extent s.heap.mem) = (blocks.map (size s.heap.mem)).map fun n => (n + 31) / 8 * 8 := by
      rw [List.map_map]
      exact List.map_congr_left fun b hb => (extent_of_small (hi.small b hb)).1
    rw [hext]
    refine sum_map_le _ (fun n hn => ?_) hf.count
    obtain ⟨b, hb, rfl⟩ := List.mem_map.1 hn
    exact hf.asked b hb
  rw [← hi.arena.tiles.sum]
  exact Nat.add_le_add_left hsum start

/-- With one allocation of 5 bytes at a time the heap stays a single block. -/
theorem heap_bounded_one : ∃ s, Reach step (Modest {5} 1) (initial (fun _ => 0) 4096) s ∧ s.live = [(4120, 5)] ∧
    s.heap.brk ≤ 4096 + 1 * ∑ n ∈ {5}, (n + 31) / 8 * 8 := by
  have hev : ((step (initial (fun _ => 0) 4096) (.malloc 5 true)).bind fun x =>
      (step x.2 (.free x.1)).bind fun y => (step y.2 (.malloc 5 true)).map fun z =>
        (x.1, [x.2.live, y.2.live, z.2.live])) = some (4120, [[(4120, 5)], [], [(4120, 5)]]) := by decide +kernel
  obtain ⟨⟨r₁, s₁⟩, hs₁, hev⟩ := Option.bind_eq_some_iff.1 hev
  obtain ⟨⟨r₂, s₂⟩, hs₂, hev⟩ := Option.bind_eq_some_iff.1 hev
  obtain ⟨⟨r₃, s₃⟩, hs₃, hev⟩ := Option.map_eq_some_iff.1 hev
  simp only [Prod.mk.injEq, List.cons.injEq, and_true] at hev
  obtain ⟨rfl, hlive₁, hlive₂, hlive₃⟩ := hev
  have hmalloc : ∀ s : Client, s.live = [] → Modest {5} 1 s (.malloc 5 true) := fun s hs => by
    refine ⟨?_, fun sz ok heq => ?_⟩
    · rw [Allowed, metaSize_eq, alignment]
      decide
    · cases heq
      rw [hs]
      decide
  have hfree : Modest {5} 1 s₁ (.free 4120) := ⟨Or.inr ⟨5, by simp [hlive₁]⟩, fun _ _ heq => by cases heq⟩
  have hreach : Reach step (Modest {5} 1) (initial (fun _ => 0) 4096) s₃ :=
    ((Reach.refl.tail (hmalloc _ rfl) hs₁).tail hfree hs₂).tail (hmalloc s₂ hlive₂) hs₃
  exact ⟨s₃, hreach, hlive₃, heap_bounded (by decide) (by decide) hreach⟩

/-! ### The bound is reached -/

variable {n : Nat} {s₀ s : Client}

/-- `sbrk` moves the break up by a block of `sz` bytes, if there is room. -/
private theorem sbrk_block {brk sz : Nat} (hsz : sz + metaSize + (alignment - 1) < 2 ^ 63)
    (hroom : brk + (sz + 31) / 8 * 8 < addressSpace) :
    sbrk brk (align ((sz + metaSize) % addressSpace)) true = some (brk + (sz + 31) / 8 * 8) := by
  rw [metaSize_eq, alignment] at hsz
  have hlt : sz + 24 < addressSpace := by unfold addressSpace; omega
  have halign : align ((sz + metaSize) % addressSpace) = (sz + 31) / 8 * 8 := by
    rw [metaSize_eq, Nat.mod_eq_of_lt hlt, align_eq (by unfold addressSpace; omega)]
  rw [halign]
  exact (sbrk_eq_some (by omega)).2 ⟨Or.inl rfl, rfl, hroom⟩

private theorem allocateSpace_fst {last sz brk : Nat} {ok : Bool}
    (hs : sbrk h.brk (align ((sz + metaSize) % addressSpace)) ok = some brk) :
    (allocateSpace h last sz ok).1 = h.brk := by
  unfold allocateSpace
  rw [hs]

/-- If all blocks of at least this size are in use, `malloc` makes a new one. -/
private theorem malloc_new (hi : Inv start h blocks live) {sz : UInt64} {ok : Bool} {brk : Nat}
    (hsz : sz.toNat + metaSize + (alignment - 1) < 2 ^ 63) (hne : sz.toNat ≠ 0)
    (hs : sbrk h.brk (align ((sz.toNat + metaSize) % addressSpace)) ok = some brk)
    (hbusy : ∀ b ∈ blocks, sz.toNat ≤ size h.mem b → inUse h.mem b ≠ 0) :
    ∃ h', malloc h sz ok = some (h.brk + sizeofList, h') ∧
      Inv start h' (blocks ++ [h.brk]) ((h.brk + sizeofList, sz.toNat) :: live) ∧
      (∀ b ∈ blocks, size h'.mem b = size h.mem b ∧ inUse h'.mem b = inUse h.mem b) ∧
      size h'.mem h.brk = sz.toNat := by
  obtain ⟨p, last, hfind, ⟨hp, -, hfree, hle⟩ | ⟨rfl, rfl⟩⟩ := findBlock_spec hi sz.toNat
  · exact absurd hfree (hbusy p hp hle)
  · have hbrk : h.brk ≠ 0 := by
      have := hi.start_pos
      have := hi.arena.tiles.le
      omega
    rcases allocateSpace_spec hi hsz ok with ha | ⟨h₁, ha, -, hbase, -, hi₁⟩
    · have hfst : (allocateSpace h (blocks.getLastD 0) sz.toNat ok).1 = h.brk := allocateSpace_fst hs
      rw [ha] at hfst
      exact absurd hfst.symm hbrk
    · have hszlt : sz.toNat < addressSpace := by
        unfold addressSpace
        omega
      obtain ⟨hfields, hnew⟩ := allocateSpace_fields hi hszlt ha hbrk
      have hmem : (if h.base = 0 then { h₁ with base := h.brk } else h₁).mem = h₁.mem := by
        split
        · rfl
        · rfl
      refine ⟨_, ?_, hi₁, ?_, ?_⟩
      · unfold malloc
        simp only [if_neg hne, hfind, Option.bind_eq_bind, Option.bind_some, if_true, ha, if_neg hbrk, Option.pure_def,
          hbase]
      · rw [hmem]
        exact hfields
      · rw [hmem]
        exact hnew

/-- The blocks that are there keep their sizes, so the break moves up by the new one. -/
private theorem Inv.brk_push (hi : Inv start h blocks live) {live' : List (Nat × Nat)}
    (hi' : Inv start h' (blocks ++ [h.brk]) live') (hsize : ∀ b ∈ blocks, size h'.mem b = size h.mem b)
    (hnew : size h'.mem h.brk = n) : h'.brk = h.brk + (n + 31) / 8 * 8 := by
  have hext : extent h'.mem h.brk = (n + 31) / 8 * 8 := by
    rw [(extent_of_small (hi'.small h.brk (by simp))).1, hnew]
  have hsame : blocks.map (extent h'.mem) = blocks.map (extent h.mem) :=
    List.map_congr_left fun b hb => by rw [extent, extent, hsize b hb]
  have hsum := hi.arena.tiles.sum
  rw [← hi'.arena.tiles.sum, List.map_append, List.sum_append, hsame, List.map_singleton, List.sum_singleton, hext,
    ← Nat.add_assoc, hsum]

/-- `free` changes no size, and the break stays where it is. -/
private theorem free_fields (hi : Inv start h blocks live) {ptr k : Nat} (hp : (ptr, k) ∈ live)
    (hs : free h ptr = some h') : (∀ b ∈ blocks, size h'.mem b = size h.mem b) ∧ h'.brk = h.brk := by
  obtain ⟨a, ha, rfl, -⟩ := hi.arena.room ptr k hp
  have hne : a + sizeofList ≠ 0 := by
    unfold sizeofList
    omega
  rw [free, if_neg hne, Nat.add_sub_cancel] at hs
  simp only at hs
  split at hs
  · cases hs
    refine ⟨fun b hb => ?_, rfl⟩
    by_cases hba : b = a
    · rw [hba, size_setInUse]
    · exact (hi.sameHeader ha hb hba h.mem (by decide)).size_eq
  · cases hs

/-- The blocks have at most `n` bytes, and those with `n` bytes are in use, when `j` allocations are live. -/
structure Filling (start n j : Nat) (s : Client) : Prop where
  filled : ∃ blocks, Inv start s.heap blocks s.live ∧
    ∀ b ∈ blocks, size s.heap.mem b ≤ n ∧ (size s.heap.mem b = n → inUse s.heap.mem b ≠ 0)
  count : s.live.length = j

/-- One more block. -/
private theorem Filling.malloc {j : Nat} {sz : UInt64} (hf : Filling start sz.toNat j s) (hj : j < P)
    (hS : sz.toNat ∈ S) (hne : sz.toNat ≠ 0) (hsz : sz.toNat + metaSize + (alignment - 1) < 2 ^ 63)
    (hroom : s.heap.brk + (sz.toNat + 31) / 8 * 8 < addressSpace) :
    ∃ r s', Modest S P s (.malloc sz true) ∧ step s (.malloc sz true) = some (r, s') ∧
      Filling start sz.toNat (j + 1) s' ∧ s'.heap.brk = s.heap.brk + (sz.toNat + 31) / 8 * 8 := by
  obtain ⟨⟨blocks, hi, hblocks⟩, hcount⟩ := hf
  obtain ⟨ok, hok⟩ : ∃ ok, ok = true := ⟨true, rfl⟩
  have hsbrk := sbrk_block hsz hroom
  rw [← hok] at hsbrk ⊢
  obtain ⟨h', hm, hi', hfields, hnew⟩ := malloc_new hi hsz hne hsbrk fun b hb hle =>
    (hblocks b hb).2 (Nat.le_antisymm (hblocks b hb).1 hle)
  have hr : s.heap.brk + sizeofList ≠ 0 := by
    unfold sizeofList
    omega
  refine ⟨s.heap.brk + sizeofList, ⟨h', (s.heap.brk + sizeofList, sz.toNat) :: s.live⟩, ⟨hsz, ?_⟩, ?_,
    ⟨⟨_, hi', ?_⟩, ?_⟩, hi.brk_push hi' (fun b hb => (hfields b hb).1) hnew⟩
  · intro sz' ok' heq
    cases heq
    exact ⟨hS, by rwa [hcount]⟩
  · rw [step, hm, Option.map_some, if_neg hr]
  · intro b hb
    rcases List.mem_append.1 hb with hb | hb
    · rw [(hfields b hb).1, (hfields b hb).2]
      exact hblocks b hb
    · rw [List.mem_singleton.1 hb, hnew]
      refine ⟨Nat.le_refl _, fun _ => ?_⟩
      rw [hi'.used s.heap.brk (by simp) sz.toNat (by simp)]
      exact Nat.one_ne_zero
  · rw [List.length_cons, hcount]

/-- As many blocks as may be live. -/
private theorem Filling.malloc_all {sz : UInt64} (hreach : Reach step (Modest S P) s₀ s)
    (hf : Filling start sz.toNat 0 s) (hS : sz.toNat ∈ S) (hne : sz.toNat ≠ 0)
    (hsz : sz.toNat + metaSize + (alignment - 1) < 2 ^ 63) {j : Nat} (hj : j ≤ P)
    (hroom : s.heap.brk + j * ((sz.toNat + 31) / 8 * 8) < addressSpace) :
    ∃ s', Reach step (Modest S P) s₀ s' ∧ Filling start sz.toNat j s' ∧
      s'.heap.brk = s.heap.brk + j * ((sz.toNat + 31) / 8 * 8) := by
  induction j with
  | zero => exact ⟨s, hreach, hf, by rw [Nat.zero_mul, Nat.add_zero]⟩
  | succ j ih =>
    rw [Nat.succ_mul] at hroom ⊢
    obtain ⟨s₁, hreach₁, hf₁, hbrk₁⟩ := ih (Nat.le_of_succ_le hj) (by omega)
    obtain ⟨r, s₂, hok, hs, hf₂, hbrk₂⟩ := hf₁.malloc hj hS hne hsz (by rw [hbrk₁]; omega)
    exact ⟨s₂, hreach₁.tail hok hs, hf₂, by rw [hbrk₂, hbrk₁, Nat.add_assoc]⟩

/-- All of them are given back. -/
private theorem Filling.free_all {j : Nat} (hreach : Reach step (Modest S P) s₀ s) (hf : Filling start n j s) :
    ∃ s', Reach step (Modest S P) s₀ s' ∧ s'.live = [] ∧ s'.heap.brk = s.heap.brk ∧
      ∃ blocks, Inv start s'.heap blocks s'.live ∧ ∀ b ∈ blocks, size s'.heap.mem b ≤ n := by
  obtain ⟨⟨blocks, hi, hblocks⟩, -⟩ := hf
  replace hblocks : ∀ b ∈ blocks, size s.heap.mem b ≤ n := fun b hb => (hblocks b hb).1
  induction hlen : s.live.length using Nat.strong_induction_on generalizing s with
  | _ j ih =>
    cases hlive : s.live with
    | nil => exact ⟨s, hreach, hlive, rfl, blocks, hi, hblocks⟩
    | cons x rest =>
      have hx : (x.1, x.2) ∈ s.live := by rw [hlive]; exact List.mem_cons_self ..
      obtain ⟨h', hm, hi'⟩ := free_spec hi (Or.inr ⟨x.2, hx⟩)
      obtain ⟨hsize, hbrk⟩ := free_fields hi hx hm
      have hs : step s (.free x.1) = some (0, ⟨h', s.live.filter (·.1 ≠ x.1)⟩) := by
        rw [step, hm]
        rfl
      have hok : Modest S P s (.free x.1) := by
        refine ⟨Or.inr ⟨x.2, hx⟩, ?_⟩
        intro sz ok heq
        cases heq
      have hshorter : (s.live.filter (·.1 ≠ x.1)).length < j := by
        rw [← hlen]
        exact List.length_filter_lt_length_iff_exists.2 ⟨x, hx, by simp⟩
      obtain ⟨s', hreach', hlive', hbrk', hend⟩ := ih _ hshorter (hreach.tail hok hs) hi'
        (fun b hb => by rw [hsize b hb]; exact hblocks b hb) rfl
      exact ⟨s', hreach', hlive', hbrk'.trans hbrk, hend⟩

/-- The bound on the heap is reached: from the smallest size on, as many blocks as may be live, all of them in use at
once, so that none of the smaller ones and none of the same size can be handed out again. -/
theorem heap_bound_reached (hpos : 0 < start) (hS : ∀ n ∈ S, n ≠ 0 ∧ n + metaSize + (alignment - 1) < 2 ^ 63)
    (hroom : start + P * ∑ n ∈ S, (n + 31) / 8 * 8 < addressSpace) :
    ∃ s, Reach step (Modest S P) (initial m start) s ∧ s.live = [] ∧
      s.heap.brk = start + P * ∑ n ∈ S, (n + 31) / 8 * 8 := by
  suffices h : ∀ T ⊆ S, ∃ s, Reach step (Modest S P) (initial m start) s ∧ s.live = [] ∧
      s.heap.brk = start + P * ∑ n ∈ T, (n + 31) / 8 * 8 ∧
      ∃ blocks, Inv start s.heap blocks s.live ∧ ∀ b ∈ blocks, ∃ n ∈ T, size s.heap.mem b ≤ n by
    obtain ⟨s, hreach, hlive, hbrk, -⟩ := h S (Finset.Subset.refl S)
    exact ⟨s, hreach, hlive, hbrk⟩
  intro T hT
  induction T using Finset.induction_on_max with
  | empty =>
    have hlt : start < addressSpace := by omega
    refine ⟨_, Reach.refl, rfl, ?_, [], inv_initial hpos hlt, by simp⟩
    rw [Finset.sum_empty, Nat.mul_zero, Nat.add_zero]
    rfl
  | insert a T ha ih =>
    have haT : a ∉ T := fun h => Nat.lt_irrefl a (ha a h)
    have haS : a ∈ S := hT (Finset.mem_insert_self a T)
    obtain ⟨s, hreach, hlive, hbrk, blocks, hi, hblocks⟩ := ih fun n hn => hT (Finset.mem_insert_of_mem hn)
    obtain ⟨hne, hsmall⟩ := hS a haS
    obtain ⟨sz, rfl⟩ : ∃ sz : UInt64, sz.toNat = a :=
      ⟨UInt64.ofNat a, UInt64.toNat_ofNat_of_lt' (by rw [metaSize_eq, alignment] at hsmall; unfold UInt64.size; omega)⟩
    have hsum : P * ∑ n ∈ insert sz.toNat T, (n + 31) / 8 * 8 =
        P * ∑ n ∈ T, (n + 31) / 8 * 8 + P * ((sz.toNat + 31) / 8 * 8) := by
      rw [Finset.sum_insert haT, Nat.mul_add, Nat.add_comm]
    have hroomT : P * ∑ n ∈ insert sz.toNat T, (n + 31) / 8 * 8 ≤ P * ∑ n ∈ S, (n + 31) / 8 * 8 :=
      Nat.mul_le_mul_left P (Finset.sum_le_sum_of_subset hT)
    have hstart : Filling start sz.toNat 0 s := by
      refine ⟨⟨blocks, hi, fun b hb => ?_⟩, by rw [hlive]; rfl⟩
      obtain ⟨n, hn, hle⟩ := hblocks b hb
      have := ha n hn
      exact ⟨by omega, fun heq => by omega⟩
    obtain ⟨s₁, hreach₁, hf₁, hbrk₁⟩ := hstart.malloc_all hreach haS hne hsmall (Nat.le_refl P) (by omega)
    obtain ⟨s₂, hreach₂, hlive₂, hbrk₂, blocks₂, hi₂, hblocks₂⟩ := hf₁.free_all hreach₁
    refine ⟨s₂, hreach₂, hlive₂, by omega, blocks₂, hi₂, fun b hb => ?_⟩
    exact ⟨sz.toNat, Finset.mem_insert_self _ T, hblocks₂ b hb⟩

theorem heap_bound_reached_two : ∃ s, Reach step (Modest {5, 100} 1000) (initial (fun _ => 0) 4096) s ∧ s.live = [] ∧
    s.heap.brk = 4096 + 1000 * ∑ n ∈ {5, 100}, (n + 31) / 8 * 8 :=
  heap_bound_reached (by decide) (by decide) (by decide)

end Edaf35.Project.Dude
