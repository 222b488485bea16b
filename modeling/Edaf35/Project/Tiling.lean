import Edaf35.Project.ListAllocators

/-!
# The list of blocks covers the heap

For `malloc`, `free` and writes of the clients outside the headers, the blocks on the list from `head` lie one after
the other from the start of the heap to the break, whatever the sizes of the requests that reuse a block; in
`mem_luke.c` no two neighbours are both vacant, and `merge_list` leaves the blocks in use alone.  This holds in every
run in which the new blocks are not too large for `sbrk`: of the live allocations only the pointers matter here.
-/

namespace Edaf35.Project

/-- The blocks on the list are in increasing order, each ends where the next one starts and the last one at the break,
and they sum to the bytes obtained. -/
structure Tiled (next size : Nat → Nat) (hdr start brk head : Nat) (blocks : List Nat) : Prop where
  list : IsChain next 0 head blocks
  sorted : blocks.Pairwise (· < ·)
  tiles : Tiles (fun b => size b + hdr) start blocks brk
  sum : start + (blocks.map fun b => size b + hdr).sum = brk

/-- The live allocations without their sizes. -/
def pointers (live : List (Nat × Nat)) : List (Nat × Nat) := live.map fun x => (x.1, 0)

private theorem mem_pointers {live : List (Nat × Nat)} {p n : Nat} (h : (p, n) ∈ live) : (p, 0) ∈ pointers live :=
  List.mem_map.2 ⟨_, h, rfl⟩

private theorem pointers_cons (live : List (Nat × Nat)) (p n : Nat) :
    pointers ((p, n) :: live) = (p, 0) :: pointers live :=
  rfl

private theorem pointers_filter (live : List (Nat × Nat)) (p : Nat) :
    pointers (live.filter (·.1 ≠ p)) = (pointers live).filter (·.1 ≠ p) := by
  rw [pointers, pointers, List.filter_map]
  rfl

private theorem pointers_idem (live : List (Nat × Nat)) : pointers (pointers live) = pointers live := by
  rw [pointers, pointers, List.map_map]
  rfl

/-! ### `memory.c` -/

namespace MemoryList

variable {start : Nat} {blocks : List Nat}

/-- `malloc`, `free` of `NULL` and of live pointers, and writes outside the headers; `sbrk` succeeds. -/
def Proper (s : Client) : Call → Prop
  | .malloc sz => SbrkSucceeds s.heap sz.toNat
  | .free node => node = 0 ∨ ∃ n, (node, n) ∈ s.live
  | .write x _ => ∀ blocks, IsChain (next s.heap.mem) 0 s.heap.head blocks → ∀ b ∈ blocks, x < b ∨ b + sizeofList ≤ x
  | .calloc _ _ | .realloc _ _ => False

private theorem Inv.tiled {h : Heap} {live : List (Nat × Nat)} (hi : Inv start h blocks live) :
    Tiled (next h.mem) (size h.mem) sizeofList start h.brk h.head blocks :=
  ⟨hi.list, hi.arena.tiles.sorted, hi.arena.tiles, hi.arena.tiles.sum⟩

private theorem Inv.pointers {h : Heap} {live : List (Nat × Nat)} (hi : Inv start h blocks live) :
    Inv start h blocks (Project.pointers live) :=
  ⟨hi.start_pos, hi.brk_lt, hi.list, hi.arena.forget⟩

private theorem step_pointers {s : Client} {c : Call} (hi : Inv start s.heap blocks (pointers s.live)) (hc : Proper s c)
    (hf : FitsCall c) :
    ∃ r s' blocks', step s c = some (r, s') ∧ Inv start s'.heap blocks' (pointers s'.live) := by
  cases c with
  | malloc sz =>
    obtain ⟨h', hm, hi'⟩ := malloc_spec hi (hf _ rfl) hc
    have hp := hi'.pointers
    rw [pointers_cons, pointers_idem] at hp
    exact ⟨_, _, _, by rw [step, hm]; rfl, hp⟩
  | calloc nitems sz => exact hc.elim
  | realloc node sz => exact hc.elim
  | free node =>
    refine ⟨0, _, blocks, rfl, ?_⟩
    rw [pointers_filter]
    exact hi.release node
  | write x v =>
    refine ⟨0, _, blocks, rfl, hi.start_pos, hi.brk_lt, ?_, ?_⟩
    all_goals
      have hsame : ∀ b ∈ blocks, SameHeader s.heap.mem (Function.update s.heap.mem x v) b := fun b hb k h₁ h₂ => by
        have := hc blocks hi.list b hb
        exact Function.update_of_ne (by omega) _ _
    · exact hi.list.congr fun b hb => (hsame b hb).next_eq
    · exact hi.arena.congr fun b hb => by rw [extent, extent, (hsame b hb).size_eq]

theorem inv_of_reach {m : Memory} {s : Client} (hpos : 0 < start) (hlt : start < addressSpace)
    (hs : Reach step (fun s c => Proper s c ∧ FitsCall c) (initial m start) s) :
    ∃ blocks, Inv start s.heap blocks (pointers s.live) := by
  exact hs.exists_invariant (I := fun blocks s => Inv start s.heap blocks (pointers s.live))
    ⟨[], inv_initial hpos hlt⟩ fun _ _ _ hi hok => step_pointers hi hok.1 hok.2

end MemoryList

/-! ### `mem_luke.c` -/

namespace MemLuke

variable {start : Nat} {blocks : List Nat}

/-- `malloc`, `free` of `NULL` and of live pointers, and writes outside the headers; `sbrk` succeeds. -/
def Proper (s : Client) : Call → Prop
  | .malloc sz => SbrkSucceeds s.heap sz.toNat
  | .free node => node = 0 ∨ ∃ n, (node, n) ∈ s.live
  | .write x _ => ∀ blocks, IsChain (next s.heap.mem) 0 s.heap.head blocks → ∀ b ∈ blocks, x < b ∨ b + sizeofList ≤ x
  | .calloc _ | .realloc _ _ => False

/-- If no block is vacant, the new block and its header are no more than `sbrk` can add. -/
def NewBlockFits (s : Client) (c : Call) : Prop :=
  ∀ n, c.request = some n → ∀ blocks, IsChain (next s.heap.mem) 0 s.heap.head blocks →
    firstVacant s.heap blocks = none → n + sizeofList < 2 ^ 63

/-- The heap on which `free` calls `merge_list`. -/
def vacated (h : Heap) (node : Nat) : Heap := { h with mem := setVacant h.mem (node - sizeofList) 1 }

private theorem Inv.tiled {h : Heap} {live : List (Nat × Nat)} (hi : Inv start h blocks live) :
    Tiled (next h.mem) (size h.mem) sizeofList start h.brk h.head blocks :=
  ⟨hi.list, hi.arena.tiles.sorted, hi.arena.tiles, hi.arena.tiles.sum⟩

private theorem Inv.pointers {h : Heap} {live : List (Nat × Nat)} (hi : Inv start h blocks live) :
    Inv start h blocks (Project.pointers live) := by
  refine ⟨hi.start_pos, hi.brk_lt, hi.list, hi.arena.forget, fun b hb n hn => ?_⟩
  obtain ⟨⟨q, k⟩, hq, heq⟩ := List.mem_map.1 hn
  rw [Prod.mk.injEq] at heq
  exact hi.occupied b hb k (heq.1 ▸ hq)

/-- `free` of a live pointer: the heap on which `merge_list` is called, and what it returns. -/
private theorem free_merges {h : Heap} {live : List (Nat × Nat)} (hi : Inv start h blocks live) {node n : Nat}
    (hn : (node, n) ∈ live) :
    Inv start (vacated h node) blocks (live.filter (·.1 ≠ node)) ∧ free h node = mergeList (vacated h node) := by
  obtain ⟨a, ha, rfl, -⟩ := hi.arena.room node n hn
  constructor
  · rw [vacated, Nat.add_sub_cancel]
    exact hi.release ha
  · rw [free, if_neg (by unfold sizeofList; omega)]
    rfl

/-- Taking a block keeps the list coalesced. -/
private theorem Coalesced.take {h : Heap} {live : List (Nat × Nat)} {a : Nat} (hco : Coalesced h.mem blocks)
    (hi : Inv start h blocks live) (ha : a ∈ blocks) : Coalesced (setVacant h.mem a 0) blocks := by
  have hzero : ∀ b ∈ blocks, vacant h.mem b = 0 → vacant (setVacant h.mem a 0) b = 0 := by
    intro b hb h0
    by_cases hba : b = a
    · rw [hba]
      exact vacant_setVacant (by decide)
    · exact (hi.sameHeader ha hb hba h.mem (by decide)).vacant_eq.trans h0
  exact List.IsChain.imp_of_mem_imp (fun b c hb hc hbc => hbc.imp (hzero b hb) (hzero c hc)) hco

/-- Blocks none of which is vacant are coalesced. -/
private theorem coalesced_of_vacant {m : Memory} (h : ∀ b ∈ blocks, vacant m b = 0) : Coalesced m blocks := by
  induction blocks with
  | nil => exact List.isChain_nil
  | cons b blocks ih =>
    exact List.isChain_cons.2 ⟨fun c _ => Or.inl (h b (by simp)), ih fun c hc => h c (List.mem_cons_of_mem _ hc)⟩

private theorem step_pointers {s : Client} {c : Call} (hi : Inv start s.heap blocks (pointers s.live))
    (hco : Coalesced s.heap.mem blocks) (hc : Proper s c) (hf : NewBlockFits s c) :
    ∃ r s' blocks', step s c = some (r, s') ∧ Inv start s'.heap blocks' (pointers s'.live) ∧
      Coalesced s'.heap.mem blocks' := by
  cases c with
  | malloc sz =>
    rcases malloc_cases hi (hc blocks hi.list) (hf _ rfl blocks hi.list) with
      ⟨p, hp, hv, hvac, hm⟩ | ⟨hv, h', hm, hi', hsame⟩
    · have hst : step s (.malloc sz) = some (p + sizeofList,
          ⟨{ s.heap with mem := setVacant s.heap.mem p 0 }, (p + sizeofList, sz.toNat) :: s.live⟩) := by
        rw [step, hm]
        rfl
      exact ⟨_, _, blocks, hst, hi.take hp hvac (Nat.zero_le _), hco.take hi hp⟩
    · have hp := hi'.pointers
      rw [pointers_cons, pointers_idem] at hp
      refine ⟨_, _, _, by rw [step, hm]; rfl, hp, coalesced_of_vacant fun b hb => ?_⟩
      rcases List.mem_append.1 hb with hb | hb
      · have hnone := List.find?_eq_none.1 hv b hb
        exact (hsame b hb).trans (by simpa using hnone)
      · rw [List.mem_singleton.1 hb]
        exact hi'.occupied _ (by simp) _ (List.mem_cons_self ..)
  | calloc sz => exact hc.elim
  | realloc node sz => exact hc.elim
  | free node =>
    rcases hc with rfl | ⟨n, hn⟩
    · refine ⟨0, ⟨s.heap, s.live.filter (·.1 ≠ 0)⟩, blocks, by rw [step, free, if_pos rfl]; rfl, ?_, hco⟩
      rw [pointers_filter]
      exact ⟨hi.start_pos, hi.brk_lt, hi.list, hi.arena.release 0,
        fun b hb n hn => hi.occupied b hb n (List.mem_filter.1 hn).1⟩
    · obtain ⟨hi₁, hfree⟩ := free_merges hi (mem_pointers hn)
      obtain ⟨h', blocks', hm, hi', -, hco', -⟩ := mergeList_inv hi₁
      refine ⟨0, ⟨h', s.live.filter (·.1 ≠ node)⟩, blocks', by rw [step, hfree, hm]; rfl, ?_, hco'⟩
      rw [pointers_filter]
      exact hi'
  | write x v =>
    have hsame : ∀ b ∈ blocks, SameHeader s.heap.mem (Function.update s.heap.mem x v) b := fun b hb k h₁ h₂ => by
      have := hc blocks hi.list b hb
      exact Function.update_of_ne (by omega) _ _
    exact ⟨0, _, blocks, rfl, hi.congr_mem hsame, hco.congr fun b hb => by rw [(hsame b hb).vacant_eq]⟩

theorem inv_of_reach {m : Memory} {s : Client} (hpos : 0 < start) (hlt : start < addressSpace)
    (hs : Reach step (fun s c => Proper s c ∧ NewBlockFits s c) (initial m start) s) :
    ∃ blocks, Inv start s.heap blocks (pointers s.live) ∧ Coalesced s.heap.mem blocks := by
  exact hs.exists_invariant
    (I := fun blocks s => Inv start s.heap blocks (pointers s.live) ∧ Coalesced s.heap.mem blocks)
    ⟨[], inv_initial hpos hlt, List.isChain_nil⟩ fun _ _ _ ⟨hi, hco⟩ hok => step_pointers hi hco hok.1 hok.2

end MemLuke

/-! ### Every run -/

/-- In every run of `malloc` and `free` whose new blocks are not too large, the list covers the heap; in `mem_luke.c` it
is coalesced, and `merge_list`, called by `free`, keeps the place and the size of every block that is not vacant. -/
theorem tiled_of_fits {m : Memory} {start : Nat} (hpos : 0 < start) (hlt : start < addressSpace) :
    (∀ s, Reach MemoryList.step (fun s c => MemoryList.Proper s c ∧ MemoryList.FitsCall c)
        (MemoryList.initial m start) s →
      (∃ blocks, Tiled (MemoryList.next s.heap.mem) (MemoryList.size s.heap.mem) MemoryList.sizeofList start s.heap.brk
        s.heap.head blocks) ∧
      ∀ c, MemoryList.Proper s c → MemoryList.FitsCall c → (MemoryList.step s c).isSome) ∧
    ∀ s, Reach MemLuke.step (fun s c => MemLuke.Proper s c ∧ MemLuke.NewBlockFits s c) (MemLuke.initial m start) s →
      (∃ blocks, Tiled (MemLuke.next s.heap.mem) (MemLuke.size s.heap.mem) MemLuke.sizeofList start s.heap.brk
          s.heap.head blocks ∧ MemLuke.Coalesced s.heap.mem blocks ∧
        ∀ node n, (node, n) ∈ s.live → ∃ h' blocks',
          MemLuke.mergeList (MemLuke.vacated s.heap node) = some h' ∧
          IsChain (MemLuke.next h'.mem) 0 h'.head blocks' ∧
          MemLuke.Kept (MemLuke.vacated s.heap node).mem h'.mem blocks blocks') ∧
      ∀ c, MemLuke.Proper s c → MemLuke.NewBlockFits s c → (MemLuke.step s c).isSome := by
  constructor
  · intro s hs
    obtain ⟨blocks, hi⟩ := MemoryList.inv_of_reach hpos hlt hs
    refine ⟨⟨blocks, hi.tiled⟩, fun c hc hf => ?_⟩
    obtain ⟨r, s', -, hst, -⟩ := MemoryList.step_pointers hi hc hf
    exact Option.isSome_iff_exists.2 ⟨_, hst⟩
  · intro s hs
    obtain ⟨blocks, hi, hco⟩ := MemLuke.inv_of_reach hpos hlt hs
    refine ⟨⟨blocks, hi.tiled, hco, fun node n hn => ?_⟩, fun c hc hf => ?_⟩
    · obtain ⟨hi₁, -⟩ := MemLuke.free_merges hi (mem_pointers hn)
      obtain ⟨h', blocks', hm, hi', -, -, hkept⟩ := MemLuke.mergeList_inv hi₁
      exact ⟨h', blocks', hm, hi'.list, hkept⟩
    · obtain ⟨r, s', -, hst, -⟩ := MemLuke.step_pointers hi hco hc hf
      exact Option.isSome_iff_exists.2 ⟨_, hst⟩

/-- After `malloc(5)` of `memory.c`, and after `malloc(8)`, `malloc(1)` and `free` of the first of `mem_luke.c`. -/
theorem tiled_of_fits_runs :
    (∃ r s blocks, MemoryList.step (MemoryList.initial (fun _ => 0) heapStart) (.malloc 5) = some (r, s) ∧
      Tiled (MemoryList.next s.heap.mem) (MemoryList.size s.heap.mem) 24 4096 4125 s.heap.head blocks) ∧
    ∃ s blocks, ((MemLuke.step (MemLuke.initial (fun _ => 0) heapStart) (.malloc 8)).bind fun x =>
        (MemLuke.step x.2 (.malloc 1)).bind fun y => MemLuke.step y.2 (.free x.1)) = some (0, s) ∧
      Tiled (MemLuke.next s.heap.mem) (MemLuke.size s.heap.mem) 24 4096 4153 s.heap.head blocks ∧
      MemLuke.Coalesced s.heap.mem blocks := by
  obtain ⟨hlist, hluke⟩ := @tiled_of_fits (fun _ => 0) heapStart (by decide) (by decide)
  constructor
  · have hev : (MemoryList.step (MemoryList.initial (fun _ => 0) heapStart) (.malloc 5)).map (fun x => x.2.heap.brk) =
        some 4125 := by decide +kernel
    obtain ⟨⟨r, s⟩, hs, hbrk⟩ := Option.map_eq_some_iff.1 hev
    have hok : MemoryList.Proper (MemoryList.initial (fun _ => 0) heapStart) (.malloc 5) ∧
        MemoryList.FitsCall (.malloc 5) :=
      ⟨sbrk_of_small (by decide) (by decide), fun n hn => by cases hn; decide⟩
    obtain ⟨⟨blocks, ht⟩, -⟩ := hlist s (.tail .refl hok hs)
    exact ⟨r, s, blocks, hs, by rw [← hbrk]; exact ht⟩
  · have hev : ((MemLuke.step (MemLuke.initial (fun _ => 0) heapStart) (.malloc 8)).bind fun x =>
        (MemLuke.step x.2 (.malloc 1)).bind fun y => (MemLuke.step y.2 (.free x.1)).map fun z =>
          ([x.2.heap.brk, z.1, z.2.heap.brk], x.1, y.2.live)) =
        some ([4128, 0, 4153], 4120, [(4152, 1), (4120, 8)]) := by decide +kernel
    obtain ⟨⟨r₁, s₁⟩, hs₁, hev⟩ := Option.bind_eq_some_iff.1 hev
    obtain ⟨⟨r₂, s₂⟩, hs₂, hev⟩ := Option.bind_eq_some_iff.1 hev
    obtain ⟨⟨r₃, s₃⟩, hs₃, hev⟩ := Option.map_eq_some_iff.1 hev
    simp only [Prod.mk.injEq, List.cons.injEq, and_true] at hev
    obtain ⟨⟨hbrk₁, rfl, hbrk⟩, rfl, hlive⟩ := hev
    have hfits : ∀ (s : MemLuke.Client) (sz : UInt64), sz.toNat < 2 ^ 16 → MemLuke.NewBlockFits s (.malloc sz) := by
      intro s sz hsz n hn blocks _ _
      cases hn
      unfold MemLuke.sizeofList
      omega
    have h₁ : MemLuke.Proper (MemLuke.initial (fun _ => 0) heapStart) (.malloc 8) :=
      fun _ _ _ => sbrk_of_small (by decide) (by decide)
    have h₂ : MemLuke.Proper s₁ (.malloc 1) := fun _ _ _ => sbrk_of_small (by rw [hbrk₁]; decide) (by decide)
    have h₃ : MemLuke.Proper s₂ (.free 4120) := Or.inr ⟨8, by simp [hlive]⟩
    obtain ⟨⟨blocks, ht, hco, -⟩, -⟩ := hluke s₃
      (.tail (.tail (.tail .refl ⟨h₁, hfits _ _ (by decide)⟩ hs₁) ⟨h₂, hfits _ _ (by decide)⟩ hs₂)
        ⟨h₃, fun n hn => by cases hn⟩ hs₃)
    refine ⟨s₃, blocks, ?_, by rw [← hbrk]; exact ht, hco⟩
    rw [hs₁, Option.bind_some, hs₂, Option.bind_some]
    exact hs₃

/-- `sbrk(-1)` succeeds. -/
private theorem sbrk_lowered {brk : Nat} (h : brk = 4128) :
    (sbrk brk ((18446744073709551591 + 24) % addressSpace) true).isSome := by
  rw [h]
  decide +kernel

private theorem not_tiled_memoryList :
    ∃ s, Reach MemoryList.step MemoryList.Proper (MemoryList.initial (fun _ => 0) heapStart) s ∧
      ∀ blocks, ¬Tiled (MemoryList.next s.heap.mem) (MemoryList.size s.heap.mem) MemoryList.sizeofList heapStart
        s.heap.brk s.heap.head blocks := by
  have hev : ((MemoryList.step (MemoryList.initial (fun _ => 0) heapStart) (.malloc 8)).bind fun x =>
      (MemoryList.step x.2 (.malloc 18446744073709551591)).bind fun y =>
        (MemoryList.step y.2 (.malloc 0)).map fun z =>
          [x.2.heap.brk, y.2.heap.brk, z.2.heap.head, MemoryList.next z.2.heap.mem 4096,
            MemoryList.next z.2.heap.mem 4128]) = some [4128, 4127, 4096, 4128, 4127] := by decide +kernel
  obtain ⟨⟨r₁, s₁⟩, hs₁, hev⟩ := Option.bind_eq_some_iff.1 hev
  obtain ⟨⟨r₂, s₂⟩, hs₂, hev⟩ := Option.bind_eq_some_iff.1 hev
  obtain ⟨⟨r₃, s₃⟩, hs₃, hev⟩ := Option.map_eq_some_iff.1 hev
  simp only [List.cons.injEq, and_true] at hev
  obtain ⟨hbrk₁, hbrk₂, hhead, hnext₁, hnext₂⟩ := hev
  have h₁ : MemoryList.Proper (MemoryList.initial (fun _ => 0) heapStart) (.malloc 8) :=
    sbrk_of_small (by decide) (by decide)
  have h₂ : MemoryList.Proper s₁ (.malloc 18446744073709551591) := sbrk_lowered hbrk₁
  have h₃ : MemoryList.Proper s₂ (.malloc 0) := sbrk_of_small (by rw [hbrk₂]; decide) (by decide)
  refine ⟨s₃, .tail (.tail (.tail .refl h₁ hs₁) h₂ hs₂) h₃ hs₃, fun blocks ht => ?_⟩
  -- the list starts with 4096, 4128, 4127, which is not increasing
  have hl := ht.list
  rw [hhead] at hl
  obtain ⟨l, rfl, hl₁⟩ := hl.exists_cons (by decide)
  rw [hnext₁] at hl₁
  obtain ⟨l, rfl, hl₂⟩ := hl₁.exists_cons (by decide)
  rw [hnext₂] at hl₂
  obtain ⟨l, rfl, -⟩ := hl₂.exists_cons (by decide)
  have hsorted := ht.sorted
  simp at hsorted

private theorem not_tiled_memLuke :
    ∃ s, Reach MemLuke.step MemLuke.Proper (MemLuke.initial (fun _ => 0) heapStart) s ∧
      ∀ blocks, ¬Tiled (MemLuke.next s.heap.mem) (MemLuke.size s.heap.mem) MemLuke.sizeofList heapStart
        s.heap.brk s.heap.head blocks := by
  have hev : ((MemLuke.step (MemLuke.initial (fun _ => 0) heapStart) (.malloc 8)).bind fun x =>
      (MemLuke.step x.2 (.malloc 18446744073709551591)).bind fun y => (MemLuke.step y.2 (.malloc 0)).map fun z =>
        [x.2.heap.brk, y.2.heap.brk, z.2.heap.brk, z.2.heap.head, MemLuke.next z.2.heap.mem 4096,
          MemLuke.next z.2.heap.mem 4128, MemLuke.size z.2.heap.mem 4128]) =
      some [4128, 4127, 4151, 4096, 4128, 0, 0] := by decide +kernel
  obtain ⟨⟨r₁, s₁⟩, hs₁, hev⟩ := Option.bind_eq_some_iff.1 hev
  obtain ⟨⟨r₂, s₂⟩, hs₂, hev⟩ := Option.bind_eq_some_iff.1 hev
  obtain ⟨⟨r₃, s₃⟩, hs₃, hev⟩ := Option.map_eq_some_iff.1 hev
  simp only [List.cons.injEq, and_true] at hev
  obtain ⟨hbrk₁, hbrk₂, hbrk₃, hhead, hnext₁, hnext₂, hsize⟩ := hev
  have h₁ : MemLuke.Proper (MemLuke.initial (fun _ => 0) heapStart) (.malloc 8) :=
    fun _ _ _ => sbrk_of_small (by decide) (by decide)
  have h₂ : MemLuke.Proper s₁ (.malloc 18446744073709551591) := fun _ _ _ => sbrk_lowered hbrk₁
  have h₃ : MemLuke.Proper s₂ (.malloc 0) := fun _ _ _ => sbrk_of_small (by rw [hbrk₂]; decide) (by decide)
  refine ⟨s₃, .tail (.tail (.tail .refl h₁ hs₁) h₂ hs₂) h₃ hs₃, fun blocks ht => ?_⟩
  -- the last block on the list is at 4128 and has the size 0, but the break is 4151
  have hl := ht.list
  rw [hhead] at hl
  obtain ⟨l, rfl, hl₁⟩ := hl.exists_cons (by decide)
  rw [hnext₁] at hl₁
  obtain ⟨l, rfl, hl₂⟩ := hl₁.exists_cons (by decide)
  rw [hnext₂] at hl₂
  obtain rfl := hl₂.eq_nil
  obtain ⟨-, -, -, -, hend⟩ := ht.tiles
  have hend' : 4128 + (MemLuke.size s₃.heap.mem 4128 + MemLuke.sizeofList) = s₃.heap.brk := hend
  rw [hsize, hbrk₃] at hend'
  exact absurd hend' (by decide)

/-- After `malloc(8)`, `malloc(2^64 - 25)` takes one byte back from the heap, and the header of the next block starts
inside the one before it. -/
theorem not_tiled :
    (∃ s, Reach MemoryList.step MemoryList.Proper (MemoryList.initial (fun _ => 0) heapStart) s ∧
      ∀ blocks, ¬Tiled (MemoryList.next s.heap.mem) (MemoryList.size s.heap.mem) MemoryList.sizeofList heapStart
        s.heap.brk s.heap.head blocks) ∧
    ∃ s, Reach MemLuke.step MemLuke.Proper (MemLuke.initial (fun _ => 0) heapStart) s ∧
      ∀ blocks, ¬Tiled (MemLuke.next s.heap.mem) (MemLuke.size s.heap.mem) MemLuke.sizeofList heapStart
        s.heap.brk s.heap.head blocks :=
  ⟨not_tiled_memoryList, not_tiled_memLuke⟩

end Edaf35.Project
