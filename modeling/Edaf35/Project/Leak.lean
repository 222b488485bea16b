import Edaf35.Project.MemLukeHeap

/-!
# How far the heap of `mem_luke.c` grows

`mem_luke.c` joins vacant neighbours and never divides a block, so a joined block is handed out whole for any request.
Two allocations of the same size that are made and given back again and again therefore move the break up each time:
the block that was joined is used for the first one, and the second one needs a new block.
-/

namespace Edaf35.Project.MemLuke

variable {start a b : Nat} {m : Memory} {h h' : Heap} {live : List (Nat × Nat)} {s₀ s : Client} {n : UInt64}

/-- A single block is left as it is. -/
private theorem mergeList_single (hi : Inv start h [a] live) : mergeList h = some h := by
  obtain ⟨rfl, hne, hend⟩ := hi.list
  obtain ⟨k, hk⟩ : ∃ k, addressSpace = k + 1 := ⟨2 ^ 64 - 1, rfl⟩
  have hlast : next h.mem h.head = 0 := hend
  rw [mergeList, if_neg hne, hk, mergeLoop, if_pos hlast, Option.map_some]

/-- Two blocks are joined if both are vacant. -/
private theorem mergeList_pair (hi : Inv start h [a, b] live) :
    mergeList h = some (if vacant h.mem a ≠ 0 ∧ vacant h.mem b ≠ 0 then { h with mem := joined h.mem a b } else h) := by
  obtain ⟨rfl, hne, hb, hbne, hend⟩ := hi.list
  have hlast : next h.mem b = 0 := hend
  obtain ⟨k, hk⟩ : ∃ k, addressSpace = k + 2 := ⟨2 ^ 64 - 2, rfl⟩
  rw [mergeList, if_neg hne, hk, mergeLoop, hb, if_neg hbne]
  by_cases hvac : vacant h.mem h.head ≠ 0 ∧ vacant h.mem b ≠ 0
  · have hab : b ≠ h.head := by
      have hnd := hi.arena.tiles.nodup
      rintro rfl
      simp at hnd
    have hsame := hi.sameHeader (a := h.head) (b := b) (o := 8) (n := 8)
      (v := size h.mem h.head + (size h.mem b + sizeofList)) (by simp) (by simp) hab h.mem (by decide)
    have hbnext : next (setSize h.mem h.head (size h.mem h.head + (size h.mem b + sizeofList))) b = next h.mem b :=
      hsame.next_eq
    rw [if_pos hvac, if_pos hvac]
    simp only [next_setSize, hb, hbnext]
    have hjoined : next (joined h.mem h.head b) h.head = 0 := (next_setNext (load_lt _ _ _)).trans hlast
    change (mergeLoop (k + 1) (joined h.mem h.head b) h.head).map _ = _
    rw [mergeLoop, if_pos hjoined, Option.map_some]
  · rw [if_neg hvac, if_neg hvac, mergeLoop, if_pos hlast, Option.map_some]

/-- A new block moves the break up by its size and its header. -/
private theorem malloc_brk {r : Nat} (hn : n.toNat + sizeofList < 2 ^ 63)
    (hroom : h.brk + (n.toNat + sizeofList) < addressSpace) (hm : malloc h n true = some (r, h'))
    (hne : h'.brk ≠ h.brk) : h'.brk = h.brk + (n.toNat + sizeofList) := by
  have hmod : (n.toNat + sizeofList) % addressSpace = n.toNat + sizeofList :=
    Nat.mod_eq_of_lt (by unfold addressSpace; omega)
  have hsbrk : sbrk h.brk ((n.toNat + sizeofList) % addressSpace) true = some (h.brk + (n.toNat + sizeofList)) := by
    rw [hmod]
    exact (sbrk_eq_some hn).2 ⟨Or.inl rfl, rfl, hroom⟩
  have hcreate : ∀ tail p h₁, createBlock h tail n.toNat true = (p, h₁) → h₁.brk = h.brk + (n.toNat + sizeofList) := by
    intro tail p h₁ hc
    simp only [createBlock, hsbrk, Option.isSome_some, if_true, Option.getD_some] at hc
    split at hc
    · cases hc
      rfl
    · cases hc
      rfl
  unfold malloc at hm
  split at hm
  · obtain ⟨⟨p, h₁⟩, hc⟩ : ∃ x, createBlock h 0 n.toNat true = x := ⟨_, rfl⟩
    rw [hc] at hm
    simp only at hm
    split at hm
    · cases hm
      exact hcreate 0 p h' hc
    · cases hm
      exact hcreate 0 p h₁ hc
  · obtain ⟨⟨p, tail⟩, -, hm⟩ := Option.bind_eq_some_iff.1 hm
    obtain ⟨⟨q, h₁⟩, hc⟩ : ∃ x, createBlock h tail n.toNat true = x := ⟨_, rfl⟩
    simp only [hc, Option.pure_def] at hm
    split at hm
    · split at hm
      · cases hm
        exact hcreate tail q h' hc
      · cases hm
        exact hcreate tail q h' hc
    · cases hm
      exact absurd rfl hne

/-- Calls that fit, with requests of `n` bytes that are made while less than two allocations are live. -/
def Sparing (n : UInt64) (s : Client) (c : Call) : Prop :=
  Valid s c ∧ FitsCall s c ∧ ∀ k, c.request = some k → k = n.toNat ∧ s.live.length < 2

/-- The heap is one vacant block with room for `n` bytes. -/
structure OneVacant (start : Nat) (n : UInt64) (s : Client) : Prop where
  inv : Inv start s.heap [start] s.live
  vacant : vacant s.heap.mem start ≠ 0
  live : s.live = []
  room : n.toNat ≤ size s.heap.mem start

/-- A request that is met by a new block. -/
private theorem sparing_new {blocks : List Nat} (hi : Inv start s.heap blocks s.live)
    (hnone : firstVacant s.heap blocks = none) (hn : n.toNat + sizeofList < 2 ^ 63)
    (hroom : s.heap.brk + (n.toNat + sizeofList) < addressSpace) (hlen : s.live.length < 2) :
    Sparing n s (.malloc n) ∧ ∃ h', malloc s.heap n true = some (s.heap.brk + sizeofList, h') ∧
      Inv start h' (blocks ++ [s.heap.brk]) ((s.heap.brk + sizeofList, n.toNat) :: s.live) ∧
      h'.brk = s.heap.brk + (n.toNat + sizeofList) := by
  have hsbrk : (sbrk s.heap.brk ((n.toNat + sizeofList) % addressSpace) true).isSome := by
    rw [Nat.mod_eq_of_lt (by unfold addressSpace; omega)]
    exact sbrk_isSome hn hroom
  have hvalid : SbrkSucceeds s.heap n.toNat := fun _ _ _ => hsbrk
  have hfits : Fits s.heap n.toNat := by
    intro blocks' hb
    obtain rfl := hb.unique hi.list
    refine ⟨fun p hp => ?_, fun _ => hn⟩
    rw [hnone] at hp
    cases hp
  refine ⟨⟨hvalid, fun k hk => ?_, fun k hk => ?_⟩, ?_⟩
  · obtain rfl : n.toNat = k := Option.some.inj hk
    exact hfits
  · exact ⟨(Option.some.inj hk).symm, hlen⟩
  · rcases malloc_cases hi (fun _ => hsbrk) (fun _ => hn) with ⟨p, -, hp, -⟩ | ⟨-, h', hm, hi', -⟩
    · rw [hnone] at hp
      cases hp
    · refine ⟨h', hm, hi', malloc_brk hn hroom hm ?_⟩
      have := hi'.arena.tiles.bounds (a := s.heap.brk) (by simp)
      omega

/-- A request that is met by the first vacant block. -/
private theorem sparing_reuse {blocks : List Nat} (hi : Inv start s.heap blocks s.live)
    (hfirst : firstVacant s.heap blocks = some a) (hsize : n.toNat ≤ size s.heap.mem a) (hlen : s.live.length < 2) :
    Sparing n s (.malloc n) ∧
      malloc s.heap n true = some (a + sizeofList, { s.heap with mem := setVacant s.heap.mem a 0 }) := by
  have hsome : ∀ p, firstVacant s.heap blocks = some p → p = a := fun p hp => Option.some.inj (hp.symm.trans hfirst)
  have hnot : firstVacant s.heap blocks ≠ none := by
    rw [hfirst]
    exact Option.some_ne_none a
  refine ⟨⟨fun blocks' hb hnone => ?_, fun k hk blocks' hb => ?_, fun k hk => ⟨(Option.some.inj hk).symm, hlen⟩⟩, ?_⟩
  · obtain rfl := hb.unique hi.list
    exact absurd hnone hnot
  · obtain rfl : n.toNat = k := Option.some.inj hk
    obtain rfl := hb.unique hi.list
    refine ⟨fun p hp => ?_, fun hnone => absurd hnone hnot⟩
    rw [hsome p hp]
    exact hsize
  · rcases malloc_cases hi (fun hnone => absurd hnone hnot) (fun hnone => absurd hnone hnot) with
      ⟨p, -, hp, -, hm⟩ | ⟨hnone, -⟩
    · rw [hm, hsome p hp]
    · exact absurd hnone hnot

/-- Giving back one of the live allocations. -/
private theorem sparing_free {p k : Nat} (hp : (p, k) ∈ s.live) : Sparing n s (.free p) := by
  refine ⟨Or.inr ⟨k, hp⟩, ?_, ?_⟩
  · intro j hj
    cases hj
  · intro j hj
    cases hj

private theorem free_eq : free h (a + sizeofList) = mergeList { h with mem := setVacant h.mem a 1 } := by
  rw [free, if_neg (by unfold sizeofList; omega), Nat.add_sub_cancel]

/-- The first two calls make the heap a vacant block. -/
private theorem oneVacant_first (hpos : 0 < start) (hn : n.toNat + sizeofList < 2 ^ 63)
    (hroom : start + (n.toNat + sizeofList) < addressSpace) :
    ∃ s, Reach step (Sparing n) (initial m start) s ∧ OneVacant start n s ∧
      s.heap.brk = start + (n.toNat + sizeofList) := by
  have hi₀ := @inv_initial start m hpos (by omega)
  obtain ⟨hok, h₁, hm, hi₁, hbrk⟩ := sparing_new (s := initial m start) hi₀ rfl hn hroom Nat.two_pos
  obtain ⟨s₁, hs₁⟩ : ∃ s₁ : Client, s₁ = ⟨h₁, [(start + sizeofList, n.toNat)]⟩ := ⟨_, rfl⟩
  have hstep₁ : step (initial m start) (.malloc n) = some (start + sizeofList, s₁) := by
    rw [step, hm, hs₁]
    rfl
  have hi₂ : Inv start { h₁ with mem := setVacant h₁.mem start 1 } [start] [] := by
    have hrel := hi₁.release (a := start) (by simp [initial])
    simpa [initial] using hrel
  have hstep₂ : step s₁ (.free (start + sizeofList)) = some (0, ⟨{ h₁ with mem := setVacant h₁.mem start 1 }, []⟩) := by
    rw [step, hs₁, free_eq, mergeList_single hi₂]
    simp
  refine ⟨_, (Reach.refl.tail hok hstep₁).tail (sparing_free (by rw [hs₁]; exact List.mem_singleton_self _)) hstep₂,
    ⟨hi₂, ?_, rfl, ?_⟩, hbrk⟩
  · rw [vacant_setVacant (by decide)]
    decide
  · rw [size_setVacant]
    have := hi₁.arena.tiles.sum
    simp [initial, extent] at this hbrk
    omega

/-- Two more allocations: the block is handed out whole for the first one, so the second one needs a new block. -/
private theorem OneVacant.malloc_twice (hs : OneVacant start n s) (hreach : Reach step (Sparing n) s₀ s)
    (hn : n.toNat + sizeofList < 2 ^ 63) (hroom : s.heap.brk + (n.toNat + sizeofList) < addressSpace) :
    ∃ s', Reach step (Sparing n) s₀ s' ∧ Inv start s'.heap [start, s.heap.brk] s'.live ∧
      s'.live = [(s.heap.brk + sizeofList, n.toNat), (start + sizeofList, n.toNat)] ∧
      s'.heap.brk = s.heap.brk + (n.toNat + sizeofList) := by
  obtain ⟨hi, hvac, hlive, hsize⟩ := hs
  have hfirst : firstVacant s.heap [start] = some start := by simp [firstVacant, hvac]
  obtain ⟨hok₁, hm₁⟩ := sparing_reuse hi hfirst hsize (by rw [hlive]; exact Nat.two_pos)
  obtain ⟨s₁, hs₁⟩ : ∃ s₁ : Client, s₁ = ⟨{ s.heap with mem := setVacant s.heap.mem start 0 },
    (start + sizeofList, n.toNat) :: s.live⟩ := ⟨_, rfl⟩
  have hstep₁ : step s (.malloc n) = some (start + sizeofList, s₁) := by
    rw [step, hm₁, hs₁]
    rfl
  have hi₁ : Inv start s₁.heap [start] s₁.live := by
    rw [hs₁]
    exact hi.take (List.mem_singleton_self start) hvac hsize
  have hbrk₁ : s₁.heap.brk = s.heap.brk := by rw [hs₁]
  have hlive₁ : s₁.live = [(start + sizeofList, n.toNat)] := by rw [hs₁, hlive]
  have hnone : firstVacant s₁.heap [start] = none := by
    have hvac₁ : MemLuke.vacant s₁.heap.mem start = 0 := by
      rw [hs₁]
      exact vacant_setVacant (by decide)
    simp [firstVacant, hvac₁]
  obtain ⟨hok₂, h₂, hm₂, hi₂, hbrk₂⟩ :=
    sparing_new hi₁ hnone hn (by rwa [hbrk₁]) (by rw [hlive₁]; exact Nat.one_lt_two)
  rw [hlive₁] at hi₂
  rw [hbrk₁] at hm₂ hi₂ hbrk₂
  have hstep₂ : step s₁ (.malloc n) = some (s.heap.brk + sizeofList,
      ⟨h₂, [(s.heap.brk + sizeofList, n.toNat), (start + sizeofList, n.toNat)]⟩) := by
    rw [step, hm₂, hlive₁]
    rfl
  exact ⟨_, (hreach.tail hok₁ hstep₁).tail hok₂ hstep₂, hi₂, rfl, hbrk₂⟩

/-- Two allocations, which are all there is, are given back: their blocks are joined. -/
private theorem OneVacant.free_both (hreach : Reach step (Sparing n) s₀ s) (hi : Inv start s.heap [start, b] s.live)
    (hlive : s.live = [(b + sizeofList, n.toNat), (start + sizeofList, n.toNat)]) :
    ∃ s', Reach step (Sparing n) s₀ s' ∧ OneVacant start n s' ∧ s'.heap.brk = s.heap.brk := by
  have hne : start ≠ b := fun heq => by
    have hnd := hi.arena.tiles.nodup
    simp [heq] at hnd
  -- the first one is given back while the other one is live
  obtain ⟨h₁, hh₁⟩ : ∃ h₁ : Heap, h₁ = { s.heap with mem := setVacant s.heap.mem start 1 } := ⟨_, rfl⟩
  have hi₁ : Inv start h₁ [start, b] [(b + sizeofList, n.toNat)] := by
    have hrel := hi.release (a := start) (by simp)
    rw [← hh₁, hlive] at hrel
    simpa [hne.symm] using hrel
  have hvac₁ : MemLuke.vacant h₁.mem start = 1 := by
    rw [hh₁]
    exact vacant_setVacant (by decide)
  have hused₁ : MemLuke.vacant h₁.mem b = 0 := hi₁.occupied _ (by simp) n.toNat (by simp)
  have hstep₁ : step s (.free (start + sizeofList)) = some (0, ⟨h₁, [(b + sizeofList, n.toNat)]⟩) := by
    have hmerge := mergeList_pair hi₁
    rw [if_neg (fun hboth => hboth.2 hused₁)] at hmerge
    rw [step, free_eq, ← hh₁, hmerge, hlive]
    simp [hne.symm]
  -- then the other one, so that both blocks are vacant
  obtain ⟨h₂, hh₂⟩ : ∃ h₂ : Heap, h₂ = { h₁ with mem := setVacant h₁.mem b 1 } := ⟨_, rfl⟩
  have hi₂ : Inv start h₂ [start, b] [] := by
    have hrel := hi₁.release (a := b) (by simp)
    rw [← hh₂] at hrel
    simpa using hrel
  have hsame : SameHeader h₁.mem h₂.mem start := by
    rw [hh₂]
    exact hi₁.sameHeader (a := b) (by simp) (by simp) hne h₁.mem (by decide)
  have hvac₂ : MemLuke.vacant h₂.mem start ≠ 0 := (hsame.vacant_eq.trans hvac₁).trans_ne Nat.one_ne_zero
  have hfree₂ : MemLuke.vacant h₂.mem b ≠ 0 := by
    rw [hh₂]
    exact (vacant_setVacant (by decide)).trans_ne Nat.one_ne_zero
  have hjoin : Inv start h₂ ([] ++ start :: b :: []) [] := hi₂
  obtain ⟨hi₃, hvac₃, -⟩ := hjoin.merge hvac₂ hfree₂
  have hstep₂ : step ⟨h₁, [(b + sizeofList, n.toNat)]⟩ (.free (b + sizeofList)) =
      some (0, ⟨{ h₂ with mem := joined h₂.mem start b }, []⟩) := by
    have hmerge := mergeList_pair hi₂
    rw [if_pos ⟨hvac₂, hfree₂⟩] at hmerge
    rw [step, free_eq, ← hh₂, hmerge]
    simp
  have hbrk₂ : h₂.brk = s.heap.brk := by rw [hh₂, hh₁]
  have hok₁ : Sparing n s (.free (start + sizeofList)) := sparing_free (k := n.toNat) (by simp [hlive])
  have hok₂ : Sparing n ⟨h₁, [(b + sizeofList, n.toNat)]⟩ (.free (b + sizeofList)) :=
    sparing_free (List.mem_singleton_self _)
  refine ⟨_, (hreach.tail hok₁ hstep₁).tail hok₂ hstep₂, ⟨hi₃, hvac₃.trans_ne hvac₂, rfl, ?_⟩, hbrk₂⟩
  -- the joined block reaches up to the break, so there is room for what was in the first one
  have hinside := (hi.arena.inside (p := start + sizeofList) (n := n.toNat) (by simp [hlive])).2
  have hsum := hi₃.arena.tiles.sum
  simp only [List.nil_append, List.map_cons, List.map_nil, List.sum_cons, List.sum_nil, extent, hbrk₂] at hsum
  simp only
  omega

/-- `mem_luke.c` does not reuse all that is freed: with at most two allocations live at a time, all of `n` bytes, the
break moves up by another `n` bytes and a header as often as there is room. -/
theorem heap_unbounded {k : Nat} (hpos : 0 < start) (hn : n.toNat + sizeofList < 2 ^ 63)
    (hroom : start + (k + 1) * (n.toNat + sizeofList) < addressSpace) :
    ∃ s, Reach step (Sparing n) (initial m start) s ∧ s.live = [] ∧
      s.heap.brk = start + (k + 1) * (n.toNat + sizeofList) := by
  suffices h : ∃ s, Reach step (Sparing n) (initial m start) s ∧ OneVacant start n s ∧
      s.heap.brk = start + (k + 1) * (n.toNat + sizeofList) by
    obtain ⟨s, hreach, hs, hbrk⟩ := h
    exact ⟨s, hreach, hs.live, hbrk⟩
  induction k with
  | zero =>
    rw [Nat.zero_add, Nat.one_mul] at hroom ⊢
    exact oneVacant_first hpos hn hroom
  | succ k ih =>
    rw [Nat.succ_mul] at hroom
    obtain ⟨s, hreach, hs, hbrk⟩ := ih (by omega)
    obtain ⟨s₁, hreach₁, hi₁, hlive₁, hbrk₁⟩ := hs.malloc_twice hreach hn (by rw [hbrk]; omega)
    obtain ⟨s₂, hreach₂, hs₂, hbrk₂⟩ := OneVacant.free_both hreach₁ hi₁ hlive₁
    refine ⟨s₂, hreach₂, hs₂, ?_⟩
    rw [hbrk₂, hbrk₁, hbrk, Nat.succ_mul (k + 1), Nat.add_assoc]

theorem heap_unbounded_eight : ∃ s, Reach step (Sparing 8) (initial (fun _ => 0) 4096) s ∧ s.live = [] ∧
    s.heap.brk = 4096 + (2 ^ 40 + 1) * ((8 : UInt64).toNat + sizeofList) :=
  heap_unbounded (by decide) (by decide) (by decide)

end Edaf35.Project.MemLuke
