import Mathlib.Data.UInt
import Edaf35.Project.DudeHeap

/-!
# `malloc` of `dude.c` at extreme sizes

The size with its header is rounded up in a `size_t` and handed to `sbrk`, which takes it as a signed increment.  From
2^63 - 31 bytes on the increment is negative, and from 2^64 - 31 bytes on it is at most the size of a header; if the
kernel makes the change all the same, `malloc` returns a pointer without the memory asked for.
-/

namespace Edaf35.Project.Dude

variable {start : Nat} {h h' : Heap} {blocks : List Nat} {live : List (Nat × Nat)} {sz : UInt64} {ok : Bool}

/-- The increment that `allocate_space` passes to `sbrk`. -/
def increment (sz : Nat) : Nat := align ((sz + metaSize) % addressSpace)

/-- The size and its header are no more than `sbrk` can add, or the kernel refuses the increment. -/
def SmallOrRefused (h : Heap) (sz : UInt64) (ok : Bool) : Prop :=
  sz.toNat + metaSize + (alignment - 1) < 2 ^ 63 ∨ sbrk h.brk (increment sz.toNat) ok = none

/-- What a call of `malloc` on `h` may leave: with `NULL` the heap it found, with a pointer `sz` bytes between it and
the break; the break is not lowered, and no size on the list reaches over the next header or the break. -/
structure Safe (h : Heap) (sz r : Nat) (h' : Heap) : Prop where
  null : r = 0 → h' = h
  room : r ≠ 0 → r + sz ≤ h'.brk
  brk_le : h.brk ≤ h'.brk
  recorded : ∀ blocks, IsChain (next h'.mem) 0 h'.base blocks → ∀ b ∈ blocks,
    b + sizeofList + size h'.mem b ≤ h'.brk ∧ ∀ c ∈ blocks, b < c → b + sizeofList + size h'.mem b ≤ c

/-- The sizes recorded in a heap of the invariant stay inside their blocks. -/
private theorem Inv.recorded (hi : Inv start h blocks live) {blocks' : List Nat}
    (hl : IsChain (next h.mem) 0 h.base blocks') {b : Nat} (hb : b ∈ blocks') :
    b + sizeofList + size h.mem b ≤ h.brk ∧ ∀ c ∈ blocks', b < c → b + sizeofList + size h.mem b ≤ c := by
  obtain rfl := hl.unique hi.list
  have hsize := (extent_of_small (hi.small b hb)).2
  have hend := hi.arena.tiles.bounds hb
  refine ⟨by omega, fun c hc hbc => ?_⟩
  have := hi.arena.tiles.apart hb hc (by omega)
  have := (hi.arena.tiles.bounds hc).2.1
  omega

/-! ### The three kinds of sizes -/

private theorem malloc_small (hi : Inv start h blocks live) (hsz : sz.toNat + metaSize + (alignment - 1) < 2 ^ 63) :
    ∃ r h', malloc h sz ok = some (r, h') ∧ Safe h sz.toNat r h' := by
  rcases malloc_spec hi hsz ok with hm | ⟨a, h', blocks', hm, hle, hi'⟩
  · exact ⟨0, h, hm, fun _ => rfl, fun h0 => absurd rfl h0, Nat.le_refl _, fun l hl b hb => hi.recorded hl hb⟩
  · refine ⟨a + sizeofList, h', hm, fun h0 => ?_, fun _ => ?_, hle, fun l hl b hb => hi'.recorded hl hb⟩
    · unfold sizeofList at h0
      omega
    · exact (hi'.arena.inside (List.mem_cons_self ..)).2

/-- No block of the heap is large enough for a size that is not small. -/
private theorem findBlock_large (hi : Inv start h blocks live) (hsz : ¬sz.toNat + metaSize + (alignment - 1) < 2 ^ 63) :
    ∃ last, findBlock h h.base sz.toNat = some (0, last) := by
  obtain ⟨r, last, hfind, ⟨hr, -, -, hle⟩ | ⟨rfl, -⟩⟩ := findBlock_spec hi sz.toNat
  · have := hi.small r hr
    omega
  · exact ⟨last, hfind⟩

private theorem malloc_refused (hi : Inv start h blocks live) (hsz : ¬sz.toNat + metaSize + (alignment - 1) < 2 ^ 63)
    (hs : sbrk h.brk (increment sz.toNat) ok = none) : malloc h sz ok = some (0, h) := by
  have h0 : sz.toNat ≠ 0 := by
    rintro h0
    rw [h0] at hsz
    exact hsz (by decide)
  obtain ⟨last, hfind⟩ := findBlock_large hi hsz
  have halloc : allocateSpace h last sz.toNat ok = (0, h) := by
    unfold increment at hs
    simp only [allocateSpace, hs]
  unfold malloc
  rw [if_neg h0, hfind]
  simp only [Option.bind_eq_bind, Option.bind_some, if_true, halloc, Option.pure_def]

/-- The increment for a size that is not small is negative, or at most the size of a header. -/
private theorem increment_large (hsz : ¬sz.toNat + metaSize + (alignment - 1) < 2 ^ 63) :
    2 ^ 63 ≤ increment sz.toNat ∧ increment sz.toNat < 2 ^ 64 ∨ increment sz.toNat ≤ sizeofList := by
  have hlt := sz.toNat_lt
  simp only [metaSize_eq, increment, align, alignment, addressSpace, sizeofList] at hsz ⊢
  omega

/-- The break is lowered, or moves by no more than the size of a header. -/
private theorem sbrk_large {brk : Nat} (hsz : ¬sz.toNat + metaSize + (alignment - 1) < 2 ^ 63)
    (hs : sbrk h.brk (increment sz.toNat) ok = some brk) : brk < h.brk ∨ brk ≤ h.brk + sizeofList := by
  have hmove := sbrk_moves hs
  rcases increment_large hsz with ⟨hle, hlt⟩ | hle
  · have hneg : Int.bmod (increment sz.toNat) addressSpace = increment sz.toNat - 2 ^ 64 := by
      unfold addressSpace
      rw [Int.bmod]
      omega
    omega
  · have hpos : Int.bmod (increment sz.toNat) addressSpace = increment sz.toNat := by
      unfold addressSpace
      unfold sizeofList at hle
      exact Int.bmod_eq_of_le_mul_two (by omega) (by omega)
    omega

private theorem malloc_large {brk : Nat} (hi : Inv start h blocks live)
    (hsz : ¬sz.toNat + metaSize + (alignment - 1) < 2 ^ 63) (hs : sbrk h.brk (increment sz.toNat) ok = some brk) :
    ∃ h', malloc h sz ok = some (h.brk + sizeofList, h') ∧ h'.brk = brk := by
  have h0 : sz.toNat ≠ 0 := by
    rintro h0
    rw [h0] at hsz
    exact hsz (by decide)
  have hpos := hi.start_pos
  have hle := hi.arena.tiles.le
  obtain ⟨last, hfind⟩ := findBlock_large hi hsz
  obtain ⟨h₁, halloc, hbrk⟩ : ∃ h₁, allocateSpace h last sz.toNat ok = (h.brk, h₁) ∧ h₁.brk = brk := by
    unfold increment at hs
    simp only [allocateSpace, hs]
    exact ⟨_, rfl, rfl⟩
  refine ⟨if h₁.base = 0 then { h₁ with base := h.brk } else h₁, ?_, by split <;> exact hbrk⟩
  unfold malloc
  rw [if_neg h0, hfind]
  simp only [Option.bind_eq_bind, Option.bind_some, if_true, halloc, if_neg (show h.brk ≠ 0 by omega), Option.pure_def]

/-- A call of `malloc` is safe if and only if the size is small or the kernel refuses the increment. -/
theorem malloc_safe (hi : Inv start h blocks live) (sz : UInt64) (ok : Bool) :
    ∃ r h', malloc h sz ok = some (r, h') ∧ (Safe h sz.toNat r h' ↔ SmallOrRefused h sz ok) := by
  by_cases hsz : sz.toNat + metaSize + (alignment - 1) < 2 ^ 63
  · obtain ⟨r, h', hm, hsafe⟩ : ∃ r h', malloc h sz ok = some (r, h') ∧ Safe h sz.toNat r h' := malloc_small hi hsz
    exact ⟨r, h', hm, fun _ => Or.inl hsz, fun _ => hsafe⟩
  · cases hs : sbrk h.brk (increment sz.toNat) ok with
    | none =>
      exact ⟨0, h, malloc_refused hi hsz hs, fun _ => Or.inr hs, fun _ => ⟨fun _ => rfl, fun h0 => absurd rfl h0,
        Nat.le_refl _, fun l hl b hb => hi.recorded hl hb⟩⟩
    | some brk =>
      obtain ⟨h', hm, hbrk⟩ := malloc_large hi hsz hs
      refine ⟨_, h', hm, fun hsafe => ?_, fun hcond => ?_⟩
      · -- the break was lowered, or the pointer is at least at the break
        have hroom := hsafe.room (by unfold sizeofList; omega)
        have hle := hsafe.brk_le
        rw [hbrk] at hroom hle
        rw [metaSize_eq, alignment] at hsz
        rcases sbrk_large (by rw [metaSize_eq, alignment]; exact hsz) hs with hlow | hup
        · omega
        · omega
      · rcases hcond with hsmall | hnone
        · exact absurd hsmall hsz
        · rw [hs] at hnone
          cases hnone

/-! ### Every run -/

/-- Only `NULL` and live pointers are freed, clients write into their allocations, and each size is small or the kernel
refuses the increment. -/
def Careful (s : Client) : Call → Prop
  | .malloc sz ok => SmallOrRefused s.heap sz ok
  | .free ptr => ptr = 0 ∨ ∃ n, (ptr, n) ∈ s.live
  | .write x _ => ∃ p n, (p, n) ∈ s.live ∧ p ≤ x ∧ x < p + n

private theorem step_careful {s : Client} {c : Call} (hi : Inv start s.heap blocks s.live) (hc : Careful s c) :
    ∃ r s' blocks', step s c = some (r, s') ∧ Inv start s'.heap blocks' s'.live := by
  cases c with
  | malloc sz ok =>
    by_cases hsz : sz.toNat + metaSize + (alignment - 1) < 2 ^ 63
    · exact step_inv (c := .malloc sz ok) hi hsz
    · have hm := malloc_refused hi hsz (hc.resolve_left hsz)
      exact ⟨0, _, blocks, by rw [step, hm]; rfl, by simpa using hi⟩
  | free ptr => exact step_inv (c := .free ptr) hi hc
  | write x v => exact step_inv (c := .write x v) hi hc

/-- In every run whose sizes are small or refused, the next call of `malloc`, of whatever size, returns; it is safe if
and only if its size is small or the kernel refuses the increment. -/
theorem malloc_safe_iff {m : Memory} {s : Client} (hpos : 0 < start) (hlt : start < addressSpace)
    (hs : Reach step Careful (initial m start) s) (sz : UInt64) (ok : Bool) :
    ∃ r h', malloc s.heap sz ok = some (r, h') ∧ (Safe s.heap sz.toNat r h' ↔ SmallOrRefused s.heap sz ok) := by
  obtain ⟨blocks, hi⟩ := hs.exists_invariant (I := fun blocks s => Inv start s.heap blocks s.live)
    ⟨[], inv_initial hpos hlt⟩ fun _ _ _ hi hc => step_careful hi hc
  exact malloc_safe hi sz ok

/-- With 5 bytes allocated, a call for 16 bytes is safe, and one for 2^64 - 24 bytes is not. -/
theorem malloc_safe_iff_second :
    ∃ s, Reach step Careful (initial (fun _ => 0) 4096) s ∧ s.live = [(4120, 5)] ∧
      (∃ r h', malloc s.heap 16 true = some (r, h') ∧ Safe s.heap 16 r h') ∧
      ∃ r h', malloc s.heap 18446744073709551592 true = some (r, h') ∧ ¬Safe s.heap 18446744073709551592 r h' := by
  have hev : (step (initial (fun _ => 0) 4096) (.malloc 5 true)).map (fun x => (x.2.heap.brk, x.2.live)) =
      some (4128, [(4120, 5)]) := by decide +kernel
  obtain ⟨⟨r₁, s⟩, hs, hev⟩ := Option.map_eq_some_iff.1 hev
  rw [Prod.mk.injEq] at hev
  obtain ⟨hbrk, hlive⟩ := hev
  have hreach : Reach step Careful (initial (fun _ => 0) 4096) s :=
    Reach.refl.tail (a := .malloc 5 true) (Or.inl (by decide)) hs
  have hiff := fun sz => malloc_safe_iff (by decide) (by decide) hreach sz true
  refine ⟨s, hreach, hlive, ?_, ?_⟩
  · obtain ⟨r, h', hm, hsafe⟩ := hiff 16
    exact ⟨r, h', hm, hsafe.2 (Or.inl (by decide))⟩
  · obtain ⟨r, h', hm, hsafe⟩ := hiff 18446744073709551592
    refine ⟨r, h', hm, fun h => ?_⟩
    rcases hsafe.1 h with hsmall | hnone
    · exact absurd hsmall (by decide)
    · rw [hbrk] at hnone
      exact absurd hnone (by decide +kernel)

/-- `malloc(2^64 - 24)` on the empty heap returns a pointer behind the break, which does not move. -/
theorem not_safe :
    ∃ h', malloc (initial (fun _ => 0) 4096).heap 18446744073709551592 true = some (4120, h') ∧ h'.brk = 4096 ∧
      size h'.mem 4096 = 18446744073709551592 ∧
      ¬Safe (initial (fun _ => 0) 4096).heap 18446744073709551592 4120 h' := by
  have hev : (malloc (initial (fun _ => 0) 4096).heap 18446744073709551592 true).map (fun x =>
      (x.1, x.2.brk, size x.2.mem 4096)) = some (4120, 4096, 18446744073709551592) := by decide +kernel
  obtain ⟨⟨r, h'⟩, hm, hr⟩ := Option.map_eq_some_iff.1 hev
  simp only [Prod.mk.injEq] at hr
  obtain ⟨rfl, hbrk, hsize⟩ := hr
  refine ⟨h', hm, hbrk, hsize, fun hsafe => ?_⟩
  have hroom := hsafe.room (by decide)
  rw [hbrk] at hroom
  exact absurd hroom (by decide)

end Edaf35.Project.Dude
