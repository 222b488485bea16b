import Mathlib.Data.UInt
import Edaf35.Project.MemLukeHeap
import Edaf35.Project.MemoryListHeap

/-!
# The room of an allocation in the two list allocators

`memory.c` and `mem_luke.c` both keep their blocks on a list from `head`.  They hand out memory of the size asked for
as long as every request fits.  `memory.c` adds the size of the header to the request and multiplies the arguments of
`calloc` without looking at the result; `mem_luke.c` hands out the first vacant block without comparing its size with
the request.
-/

namespace Edaf35.Project

/-- In every run of calls that fit, a pointer returned for `n` bytes has `n` bytes before the next block and the break,
and none of them belongs to another live allocation. -/
theorem hasRoom_of_fits {m : Memory} {start : Nat} (hpos : 0 < start) (hlt : start < addressSpace) :
    (∀ s c, Reach MemoryList.step (fun s c => MemoryList.Valid s c ∧ MemoryList.FitsCall c)
        (MemoryList.initial m start) s → MemoryList.Valid s c → MemoryList.FitsCall c →
      ∃ r s', MemoryList.step s c = some (r, s') ∧ ∀ n, c.request = some n →
        ∃ blocks others, s'.live = (r, n) :: others ∧
          IsChain (MemoryList.next s'.heap.mem) 0 s'.heap.head blocks ∧ HasRoom s'.heap.brk blocks others r n) ∧
    ∀ s c, Reach MemLuke.step (fun s c => MemLuke.Valid s c ∧ MemLuke.FitsCall s c) (MemLuke.initial m start) s →
        MemLuke.Valid s c → MemLuke.FitsCall s c →
      ∃ r s', MemLuke.step s c = some (r, s') ∧ ∀ n, c.request = some n →
        ∃ blocks others, s'.live = (r, n) :: others ∧
          IsChain (MemLuke.next s'.heap.mem) 0 s'.heap.head blocks ∧ HasRoom s'.heap.brk blocks others r n :=
  ⟨fun _ _ hs hv hf => MemoryList.hasRoom_of_reach hpos hlt hs hv hf,
    fun _ _ hs hv hf => MemLuke.hasRoom_of_reach hpos hlt hs hv hf⟩

/-! ### Runs -/

/-- The address at which the heaps below start. -/
def heapStart : Nat := 4096

theorem sbrk_of_small {brk k : Nat} (hbrk : brk < 2 ^ 16) (hk : k < 2 ^ 16) :
    (sbrk brk ((k + 24) % addressSpace) true).isSome := by
  have hmod : (k + 24) % addressSpace = k + 24 := Nat.mod_eq_of_lt (by unfold addressSpace; omega)
  rw [hmod]
  exact sbrk_isSome (by omega) (by unfold addressSpace; omega)

/-- After an allocation of 5 bytes, `memory.c` has room for 12 more; `mem_luke.c` has room for 4 bytes in the block of
8 bytes that was freed. -/
theorem hasRoom_of_fits_runs :
    (∃ s' blocks others, ((MemoryList.step (MemoryList.initial (fun _ => 0) heapStart) (.malloc 5)).bind fun x =>
        MemoryList.step x.2 (.calloc 3 4)) = some (4149, s') ∧ HasRoom s'.heap.brk blocks others 4149 12) ∧
    ∃ s' blocks others, ((MemLuke.step (MemLuke.initial (fun _ => 0) heapStart) (.malloc 8)).bind fun x =>
        (MemLuke.step x.2 (.free x.1)).bind fun y => MemLuke.step y.2 (.malloc 4)) = some (4120, s') ∧
      HasRoom s'.heap.brk blocks others 4120 4 := by
  obtain ⟨hlist, hluke⟩ := @hasRoom_of_fits (fun _ => 0) heapStart (by decide) (by decide)
  constructor
  · have hev : ((MemoryList.step (MemoryList.initial (fun _ => 0) heapStart) (.malloc 5)).bind fun x =>
        (MemoryList.step x.2 (.calloc 3 4)).map fun y => (x.2.heap.brk, y.1)) = some (4125, 4149) := by decide +kernel
    obtain ⟨⟨r₁, s₁⟩, hs₁, hev⟩ := Option.bind_eq_some_iff.1 hev
    obtain ⟨⟨r₂, s₂⟩, hs₂, hev⟩ := Option.map_eq_some_iff.1 hev
    simp only [Prod.mk.injEq] at hev
    obtain ⟨hbrk, rfl⟩ := hev
    have hfirst : MemoryList.Valid (MemoryList.initial (fun _ => 0) heapStart) (.malloc 5) ∧
        MemoryList.FitsCall (.malloc 5) :=
      ⟨sbrk_of_small (by decide) (by decide), fun n hn => by cases hn; decide⟩
    have hvalid : MemoryList.Valid s₁ (.calloc 3 4) := sbrk_of_small (by rw [hbrk]; decide) (by decide)
    have hfits : MemoryList.FitsCall (.calloc 3 4) := fun n hn => by cases hn; decide
    obtain ⟨r, s', hs', hroom⟩ := hlist s₁ (.calloc 3 4) (.tail .refl hfirst hs₁) hvalid hfits
    rw [hs₂, Option.some.injEq, Prod.mk.injEq] at hs'
    obtain ⟨rfl, rfl⟩ := hs'
    obtain ⟨blocks, others, -, -, h⟩ := hroom 12 rfl
    refine ⟨s₂, blocks, others, ?_, h⟩
    rw [hs₁, Option.bind_some]
    exact hs₂
  · have hev : ((MemLuke.step (MemLuke.initial (fun _ => 0) heapStart) (.malloc 8)).bind fun x =>
        (MemLuke.step x.2 (.free x.1)).bind fun y => (MemLuke.step y.2 (.malloc 4)).map fun z =>
          (x.1, x.2.live, [y.2.heap.head, MemLuke.next y.2.heap.mem 4096, MemLuke.vacant y.2.heap.mem 4096,
            MemLuke.size y.2.heap.mem 4096], z.1)) = some (4120, [(4120, 8)], [4096, 0, 1, 8], 4120) := by
      decide +kernel
    obtain ⟨⟨r₁, s₁⟩, hs₁, hev⟩ := Option.bind_eq_some_iff.1 hev
    obtain ⟨⟨r₂, s₂⟩, hs₂, hev⟩ := Option.bind_eq_some_iff.1 hev
    obtain ⟨⟨r₃, s₃⟩, hs₃, hev⟩ := Option.map_eq_some_iff.1 hev
    simp only [Prod.mk.injEq, List.cons.injEq, and_true] at hev
    obtain ⟨rfl, hlive, ⟨hhead, hnext, hvacant, hsize⟩, rfl⟩ := hev
    have hempty : ∀ blocks, IsChain (MemLuke.next fun _ => 0) 0 0 blocks → blocks = [] := fun _ hb => hb.eq_nil
    have hfirst : MemLuke.Valid (MemLuke.initial (fun _ => 0) heapStart) (.malloc 8) ∧
        MemLuke.FitsCall (MemLuke.initial (fun _ => 0) heapStart) (.malloc 8) := by
      refine ⟨fun _ _ _ => sbrk_of_small (by decide) (by decide), fun n hn blocks hb => ?_⟩
      cases hn
      obtain rfl := hempty blocks hb
      exact ⟨fun p hp => by simp [MemLuke.firstVacant] at hp, fun _ => by decide⟩
    have hchain : ∀ blocks, IsChain (MemLuke.next s₂.heap.mem) 0 s₂.heap.head blocks →
        MemLuke.firstVacant s₂.heap blocks = some 4096 := fun blocks hb => by
      obtain rfl := hb.unique (show IsChain _ 0 _ [4096] from ⟨hhead, by decide, hnext⟩)
      simp [MemLuke.firstVacant, hvacant]
    have hvalid : MemLuke.Valid s₂ (.malloc 4) := fun blocks hb hnone => by
      rw [hchain blocks hb] at hnone
      cases hnone
    have hfits : MemLuke.FitsCall s₂ (.malloc 4) := fun n hn blocks hb => by
      cases hn
      rw [hchain blocks hb]
      exact ⟨fun p hp => by cases hp; rw [hsize]; decide, fun hnone => by cases hnone⟩
    have hfree : MemLuke.Valid s₁ (.free 4120) ∧ MemLuke.FitsCall s₁ (.free 4120) :=
      ⟨Or.inr ⟨8, by simp [hlive]⟩, fun n hn => by cases hn⟩
    have hreach : Reach MemLuke.step (fun s c => MemLuke.Valid s c ∧ MemLuke.FitsCall s c)
        (MemLuke.initial (fun _ => 0) heapStart) s₂ := (.tail (.tail .refl hfirst hs₁) hfree hs₂)
    obtain ⟨r, s', hs', hroom⟩ := hluke s₂ (.malloc 4) hreach hvalid hfits
    rw [hs₃, Option.some.injEq, Prod.mk.injEq] at hs'
    obtain ⟨rfl, rfl⟩ := hs'
    obtain ⟨blocks, others, -, -, h⟩ := hroom 4 rfl
    refine ⟨s₃, blocks, others, ?_, h⟩
    rw [hs₁, Option.bind_some, hs₂, Option.bind_some]
    exact hs₃

/-- `calloc(2^63, 2)` of `memory.c` returns a pointer to the break; after 1 byte was freed before a live byte,
`malloc(100)` of `mem_luke.c` returns the vacant block, although the header of the live byte starts 1 byte after the
pointer. -/
theorem not_hasRoom :
    (∃ s', MemoryList.Valid (MemoryList.initial (fun _ => 0) heapStart) (.calloc (2 ^ 63) 2) ∧
      MemoryList.step (MemoryList.initial (fun _ => 0) heapStart) (.calloc (2 ^ 63) 2) = some (4120, s') ∧
      ∀ blocks others, ¬HasRoom s'.heap.brk blocks others 4120 (2 ^ 64)) ∧
    ∃ s s', Reach MemLuke.step MemLuke.Valid (MemLuke.initial (fun _ => 0) heapStart) s ∧
      MemLuke.Valid s (.malloc 100) ∧ MemLuke.step s (.malloc 100) = some (4120, s') ∧
      s'.live = [(4120, 100), (4145, 1)] ∧
      ∀ blocks others, IsChain (MemLuke.next s'.heap.mem) 0 s'.heap.head blocks →
        ¬HasRoom s'.heap.brk blocks others 4120 100 := by
  constructor
  · have hev : (MemoryList.step (MemoryList.initial (fun _ => 0) heapStart) (.calloc (2 ^ 63) 2)).map (fun x =>
        (x.1, x.2.heap.brk)) = some (4120, 4120) := by decide +kernel
    obtain ⟨⟨r, s'⟩, hs', hr⟩ := Option.map_eq_some_iff.1 hev
    simp only [Prod.mk.injEq] at hr
    obtain ⟨rfl, hbrk⟩ := hr
    have hprod : (2 ^ 63 : UInt64).toNat * (2 : UInt64).toNat = 2 ^ 64 := by decide +kernel
    have hmod : (2 ^ 64 + MemoryList.sizeofList) % addressSpace = (0 + 24) % addressSpace := by decide
    refine ⟨s', ?_, hs', fun blocks others h => ?_⟩
    · rw [MemoryList.Valid, MemoryList.SbrkSucceeds, hprod, hmod]
      exact sbrk_of_small (by decide) (by decide)
    · have := h.end_le
      omega
  · have hev : ((MemLuke.step (MemLuke.initial (fun _ => 0) heapStart) (.malloc 1)).bind fun x =>
        (MemLuke.step x.2 (.malloc 1)).bind fun y => (MemLuke.step y.2 (.free x.1)).bind fun z =>
          (MemLuke.step z.2 (.malloc 100)).map fun w =>
            ([x.1, x.2.heap.brk, z.2.heap.brk, w.1, w.2.heap.brk], [y.2.live, w.2.live])) =
        some ([4120, 4121, 4146, 4120, 4146], [[(4145, 1), (4120, 1)], [(4120, 100), (4145, 1)]]) := by decide +kernel
    obtain ⟨⟨r₁, s₁⟩, hs₁, hev⟩ := Option.bind_eq_some_iff.1 hev
    obtain ⟨⟨r₂, s₂⟩, hs₂, hev⟩ := Option.bind_eq_some_iff.1 hev
    obtain ⟨⟨r₃, s₃⟩, hs₃, hev⟩ := Option.bind_eq_some_iff.1 hev
    obtain ⟨⟨r₄, s₄⟩, hs₄, hev⟩ := Option.map_eq_some_iff.1 hev
    simp only [Prod.mk.injEq, List.cons.injEq, and_true] at hev
    obtain ⟨⟨rfl, hbrk₁, hbrk₃, rfl, hbrk⟩, hlive₂, hlive⟩ := hev
    have hfree : MemLuke.Valid s₂ (.free 4120) := Or.inr ⟨1, by simp [hlive₂]⟩
    have hmalloc₁ : MemLuke.Valid (MemLuke.initial (fun _ => 0) heapStart) (.malloc 1) :=
      fun _ _ _ => sbrk_of_small (by decide) (by decide)
    have hmalloc₂ : MemLuke.Valid s₁ (.malloc 1) := fun _ _ _ => sbrk_of_small (by rw [hbrk₁]; decide) (by decide)
    have hmalloc₃ : MemLuke.Valid s₃ (.malloc 100) := fun _ _ _ => sbrk_of_small (by rw [hbrk₃]; decide) (by decide)
    refine ⟨s₃, s₄, .tail (.tail (.tail .refl hmalloc₁ hs₁) hmalloc₂ hs₂) hfree hs₃, hmalloc₃, hs₄, hlive,
      fun blocks others hl h => ?_⟩
    have := h.end_le
    omega

end Edaf35.Project
