import Mathlib.Data.List.Chain
import Edaf35.Lib.Arena
import Edaf35.Lib.Chain
import Edaf35.Lib.Run
import Edaf35.Project.MemLuke

/-!
# The heap of `mem_luke.c` in every run

The blocks on the list from `head` tile the heap obtained so far: a block of size `s` takes `s + sizeof(list_t)` bytes
(`Inv`).  `merge_list` turns two neighbouring vacant blocks into one, which keeps the tiling; a live allocation lies
in a block that is not vacant, so it is never merged away.  The invariant holds in every run in which the first vacant
block, if there is one, is large enough for the request, and a new block is not too large for `sbrk`.
-/

namespace Edaf35.Project.MemLuke

variable {m m' : Memory} {a b v : Nat}

/-! ### Headers -/

/-- The two memories hold the same header at `b`. -/
abbrev SameHeader (m m' : Memory) (b : Nat) : Prop := SameBytes m m' b sizeofList

theorem SameHeader.next_eq (h : SameHeader m m' b) : next m' b = next m b :=
  h.load_eq (o := 0) (by decide)

private theorem SameHeader.size_eq (h : SameHeader m m' b) : size m' b = size m b :=
  h.load_eq (by decide)

theorem SameHeader.vacant_eq (h : SameHeader m m' b) : vacant m' b = vacant m b :=
  h.load_eq (by decide)

@[simp] theorem next_setNext (hv : v < addressSpace) : next (setNext m b v) b = v := by
  rw [next, setNext, load_store_same]
  exact Nat.mod_eq_of_lt hv

@[simp] theorem next_setSize : next (setSize m b v) b = next m b := load_store_disjoint (by omega)

@[simp] theorem next_setVacant : next (setVacant m b v) b = next m b := load_store_disjoint (by omega)

@[simp] theorem size_setNext : size (setNext m b v) b = size m b := load_store_disjoint (by omega)

@[simp] theorem size_setSize (hv : v < addressSpace) : size (setSize m b v) b = v := by
  rw [size, setSize, load_store_same]
  exact Nat.mod_eq_of_lt hv

@[simp] theorem size_setVacant : size (setVacant m b v) b = size m b := load_store_disjoint (by omega)

@[simp] theorem vacant_setNext : vacant (setNext m b v) b = vacant m b := load_store_disjoint (by omega)

@[simp] theorem vacant_setSize : vacant (setSize m b v) b = vacant m b := load_store_disjoint (by omega)

theorem vacant_setVacant (hv : v < 2) : vacant (setVacant m b v) b = v := by
  rw [vacant, setVacant, load_store_same]
  exact Nat.mod_eq_of_lt (by omega)

/-! ### The invariant -/

/-- The bytes a block takes. -/
def extent (m : Memory) (b : Nat) : Nat := size m b + sizeofList

private theorem SameHeader.extent_eq (h : SameHeader m m' b) : extent m' b = extent m b :=
  by rw [extent, extent, h.size_eq]

/-- The blocks tile the heap from `start` to the break; the blocks of live allocations are not vacant. -/
structure Inv (start : Nat) (h : Heap) (blocks : List Nat) (live : List (Nat × Nat)) : Prop where
  start_pos : 0 < start
  brk_lt : h.brk < addressSpace
  list : IsChain (next h.mem) 0 h.head blocks
  arena : Arena sizeofList (extent h.mem) start h.brk blocks live
  occupied : ∀ b ∈ blocks, ∀ n, (b + sizeofList, n) ∈ live → vacant h.mem b = 0

variable {start : Nat} {h : Heap} {blocks : List Nat} {live : List (Nat × Nat)}

/-- The invariant only depends on the headers of the blocks. -/
theorem Inv.congr_mem (hi : Inv start h blocks live) (heq : ∀ b ∈ blocks, SameHeader h.mem m' b) :
    Inv start { h with mem := m' } blocks live :=
  ⟨hi.start_pos, hi.brk_lt, hi.list.congr fun b hb => (heq b hb).next_eq,
    hi.arena.congr fun b hb => (heq b hb).extent_eq,
    fun b hb n hn => (heq b hb).vacant_eq.trans (hi.occupied b hb n hn)⟩

/-- Writing into a live allocation keeps the invariant. -/
theorem Inv.write (hi : Inv start h blocks live) {p n : Nat} (hp : (p, n) ∈ live)
    (hm : ∀ k, k < p ∨ p + n ≤ k → m' k = h.mem k) : Inv start { h with mem := m' } blocks live :=
  hi.congr_mem fun b hb k h₁ h₂ => hm k (by have := hi.arena.header hp hb; omega)

/-- A store into the header of a block leaves the other headers alone. -/
theorem Inv.sameHeader (hi : Inv start h blocks live) (ha : a ∈ blocks) (hb : b ∈ blocks) (hab : b ≠ a) (m : Memory)
    {o n : Nat} (ho : o + n ≤ sizeofList) : SameHeader m (store m (a + o) n v) b := by
  have := hi.arena.tiles.apart ha hb (Ne.symm hab)
  unfold extent at this
  exact sameBytes_store (by omega)

/-- Setting `vacant` of a block. -/
private theorem Inv.setVacant (hi : Inv start h blocks live) (ha : a ∈ blocks) (hv : v < 2) {live' : List (Nat × Nat)}
    (harena : Arena sizeofList (extent h.mem) start h.brk blocks live')
    (hself : ∀ n, (a + sizeofList, n) ∈ live' → v = 0)
    (hother : ∀ b n, b ≠ a → (b + sizeofList, n) ∈ live' → (b + sizeofList, n) ∈ live) :
    Inv start { h with mem := setVacant h.mem a v } blocks live' := by
  have hsame : ∀ b ∈ blocks, b ≠ a → SameHeader h.mem (MemLuke.setVacant h.mem a v) b :=
    fun b hb hba => hi.sameHeader ha hb hba h.mem (by decide)
  refine ⟨hi.start_pos, hi.brk_lt, hi.list.congr fun b hb => ?_, harena.congr fun b hb => ?_, fun b hb n hn => ?_⟩
  · by_cases hba : b = a
    · rw [hba, next_setVacant]
    · exact (hsame b hb hba).next_eq
  · by_cases hba : b = a
    · rw [hba, extent, extent, size_setVacant]
    · exact (hsame b hb hba).extent_eq
  · by_cases hba : b = a
    · subst hba
      exact (vacant_setVacant hv).trans (hself n hn)
    · exact (hsame b hb hba).vacant_eq.trans (hi.occupied b hb n (hother b n hba hn))

/-- A vacant block that is large enough is handed out. -/
theorem Inv.take (hi : Inv start h blocks live) {sz : Nat} (ha : a ∈ blocks) (hfree : vacant h.mem a ≠ 0)
    (hsz : sz ≤ size h.mem a) :
    Inv start { h with mem := MemLuke.setVacant h.mem a 0 } blocks ((a + sizeofList, sz) :: live) := by
  refine hi.setVacant ha (by decide) (hi.arena.take ha (by unfold extent; omega) fun n hn => ?_) (fun _ _ => rfl)
    fun b n hba hn => ?_
  · exact hfree (hi.occupied a ha n hn)
  · rcases List.mem_cons.1 hn with heq | hn
    · rw [Prod.mk.injEq] at heq
      omega
    · exact hn

/-- An allocation is given back. -/
theorem Inv.release (hi : Inv start h blocks live) (ha : a ∈ blocks) :
    Inv start { h with mem := MemLuke.setVacant h.mem a 1 } blocks (live.filter (·.1 ≠ a + sizeofList)) := by
  refine hi.setVacant ha (by decide) (hi.arena.release _) (fun n hn => ?_) fun b n _ hn => (List.mem_filter.1 hn).1
  simpa using (List.mem_filter.1 hn).2

/-! ### Merging -/

/-- No two neighbours are both vacant. -/
def Coalesced (m : Memory) (blocks : List Nat) : Prop := blocks.IsChain fun a b => vacant m a = 0 ∨ vacant m b = 0

theorem Coalesced.congr {m m' : Memory} {blocks : List Nat} (h : Coalesced m blocks)
    (heq : ∀ b ∈ blocks, vacant m' b = 0 ↔ vacant m b = 0) : Coalesced m' blocks :=
  List.IsChain.imp_of_mem_imp (fun a b ha hb hab => by rwa [heq a ha, heq b hb]) h

/-- Every block that is not vacant keeps its place and its size, and is not vacant afterwards. -/
def Kept (m m' : Memory) (blocks blocks' : List Nat) : Prop :=
  ∀ b ∈ blocks, vacant m b = 0 → b ∈ blocks' ∧ size m' b = size m b ∧ vacant m' b = 0

/-- The memory after block `b` was joined to the block `a` before it. -/
def joined (m : Memory) (a b : Nat) : Memory :=
  setNext (setSize m a (size m a + (size m b + sizeofList))) a (next m b)

/-- Joining changes the header of the first block only. -/
private theorem Inv.sameHeader_joined {c : Nat} (hi : Inv start h blocks live) (ha : a ∈ blocks) (hc : c ∈ blocks)
    (hca : c ≠ a) (b : Nat) : SameHeader h.mem (joined h.mem a b) c :=
  (hi.sameHeader ha hc hca h.mem (by decide)).trans (hi.sameHeader (o := 0) ha hc hca _ (by decide))

private theorem mem_of_ne {c : Nat} {l₁ l₂ : List Nat} (hc : c ∈ l₁ ++ a :: b :: l₂) (hne : c ≠ b) :
    c ∈ l₁ ++ a :: l₂ := by
  rcases List.mem_append.1 hc with hc | hc
  · exact List.mem_append_left _ hc
  · simp only [List.mem_append, List.mem_cons] at hc ⊢
    tauto

private theorem mem_of_mem_joined {c : Nat} {l₁ l₂ : List Nat} (hc : c ∈ l₁ ++ a :: l₂) : c ∈ l₁ ++ a :: b :: l₂ := by
  simp only [List.mem_append, List.mem_cons] at hc ⊢
  tauto

/-- Two vacant neighbours become one block. -/
theorem Inv.merge {l₁ l₂ : List Nat} (hi : Inv start h (l₁ ++ a :: b :: l₂) live) (ha : vacant h.mem a ≠ 0)
    (hb : vacant h.mem b ≠ 0) :
    Inv start { h with mem := joined h.mem a b } (l₁ ++ a :: l₂) live ∧
      vacant (joined h.mem a b) a = vacant h.mem a ∧
      Kept h.mem (joined h.mem a b) (l₁ ++ a :: b :: l₂) (l₁ ++ a :: l₂) := by
  have hca : ∀ c ∈ l₁ ++ a :: l₂, c ∈ l₁ ++ a :: b :: l₂ := fun c hc => mem_of_mem_joined hc
  have hma : a ∈ l₁ ++ a :: b :: l₂ := by simp
  have hmb : b ∈ l₁ ++ a :: b :: l₂ := by simp
  have hmerged := hi.arena.merge fun n hn => hb (hi.occupied b hmb n hn)
  have hlt : size h.mem a + (size h.mem b + sizeofList) < addressSpace := by
    have hbnd := hmerged.tiles.bounds (a := a) (by simp)
    have := hi.brk_lt
    rw [Function.update_self] at hbnd
    unfold extent at hbnd
    omega
  have hsame : ∀ c ∈ l₁ ++ a :: l₂, c ≠ a → SameHeader h.mem (joined h.mem a b) c :=
    fun c hc hne => hi.sameHeader_joined hma (hca c hc) hne b
  have hnext : next (joined h.mem a b) a = next h.mem b := next_setNext (load_lt _ _ _)
  have hvac : vacant (joined h.mem a b) a = vacant h.mem a := by rw [joined, vacant_setNext, vacant_setSize]
  refine ⟨⟨hi.start_pos, hi.brk_lt, hi.list.unlink.congr fun c hc => ?_, hmerged.congr fun c hc => ?_,
    fun c hc n hn => ?_⟩, hvac, fun c hc h0 => ?_⟩
  · by_cases hne : c = a
    · rw [hne, Function.update_self]; exact hnext
    · rw [Function.update_of_ne hne]; exact (hsame c hc hne).next_eq
  · by_cases hne : c = a
    · rw [hne, Function.update_self, extent, joined, size_setNext, size_setSize hlt, extent, extent]
      omega
    · rw [Function.update_of_ne hne]; exact (hsame c hc hne).extent_eq
  · by_cases hne : c = a
    · subst hne
      exact absurd (hi.occupied c hma n hn) ha
    · exact (hsame c hc hne).vacant_eq.trans (hi.occupied c (hca c hc) n hn)
  · have hne : c ≠ a := by rintro rfl; exact ha h0
    have hneb : c ≠ b := by rintro rfl; exact hb h0
    have hc' : c ∈ l₁ ++ a :: l₂ := mem_of_ne hc hneb
    exact ⟨hc', (hsame c hc' hne).size_eq, (hsame c hc' hne).vacant_eq.trans h0⟩

/-- The walk of `merge_list` from block `a` on.  The blocks up to `a` are coalesced already. -/
theorem mergeLoop_inv {l₁ l₂ : List Nat} {fuel : Nat} (hi : Inv start h (l₁ ++ a :: l₂) live)
    (hco : Coalesced h.mem (l₁ ++ [a])) (hfuel : l₂.length < fuel) :
    ∃ m' blocks', mergeLoop fuel h.mem a = some m' ∧ Inv start { h with mem := m' } blocks' live ∧
      Coalesced m' blocks' ∧ Kept h.mem m' (l₁ ++ a :: l₂) blocks' := by
  induction l₂ generalizing h l₁ a fuel with
  | nil =>
    obtain ⟨fuel, rfl⟩ : ∃ k, fuel = k + 1 := ⟨fuel - 1, by simp at hfuel; omega⟩
    refine ⟨h.mem, _, ?_, hi, hco, fun b hb h0 => ⟨hb, rfl, h0⟩⟩
    rw [mergeLoop, if_pos hi.list.next_last]
  | cons b l₂ ih =>
    obtain ⟨fuel, rfl⟩ : ∃ k, fuel = k + 1 := ⟨fuel - 1, by simp at hfuel; omega⟩
    have hb : next h.mem a = b := hi.list.suffix.tail.head_eq
    have hne : b ≠ 0 := hi.list.suffix.tail.2.1
    rw [mergeLoop, hb, if_neg hne]
    by_cases hvac : vacant h.mem a ≠ 0 ∧ vacant h.mem b ≠ 0
    · rw [if_pos hvac]
      have hab : b ≠ a := by
        have hnd := hi.list.nodup
        rw [List.nodup_append, List.nodup_cons] at hnd
        rintro rfl
        exact hnd.2.1.1 (by simp)
      have hsame := hi.sameHeader (a := a) (b := b) (o := 8) (n := 8)
        (v := size h.mem a + (size h.mem b + sizeofList)) (by simp) (by simp) hab h.mem (by decide)
      have hbnext : next (setSize h.mem a (size h.mem a + (size h.mem b + sizeofList))) b = next h.mem b :=
        hsame.next_eq
      simp only [next_setSize, hb, hbnext]
      obtain ⟨hi', hvaca, hkept⟩ := hi.merge hvac.1 hvac.2
      have hco' : Coalesced (joined h.mem a b) (l₁ ++ [a]) := hco.congr fun c hc => by
        by_cases hca : c = a
        · rw [hca, hvaca]
        · have hcl : c ∈ l₁ := by simpa [hca] using hc
          rw [(hi.sameHeader_joined (by simp) (List.mem_append_left _ hcl) hca b).vacant_eq]
      obtain ⟨m', blocks', hm, hi'', hco'', hkept'⟩ := ih hi' hco' (by simpa using hfuel)
      refine ⟨m', blocks', hm, hi'', hco'', fun c hc h0 => ?_⟩
      obtain ⟨hc₁, hs₁, hv₁⟩ := hkept c hc h0
      obtain ⟨hc₂, hs₂, hv₂⟩ := hkept' c hc₁ hv₁
      exact ⟨hc₂, hs₂.trans hs₁, hv₂⟩
    · rw [if_neg hvac]
      have hi' : Inv start h ((l₁ ++ [a]) ++ b :: l₂) live := by simpa using hi
      have hab : vacant h.mem a = 0 ∨ vacant h.mem b = 0 := by
        by_contra hcon
        rw [not_or] at hcon
        exact hvac hcon
      have hco' : Coalesced h.mem ((l₁ ++ [a]) ++ [b]) := by
        unfold Coalesced at hco ⊢
        rw [List.append_assoc]
        exact List.isChain_append_cons_cons.2 ⟨hco, hab, List.isChain_singleton b⟩
      obtain ⟨m', blocks', hm, hi'', hco'', hkept⟩ := ih hi' hco' (by simpa using hfuel)
      exact ⟨m', blocks', hm, hi'', hco'', by simpa using hkept⟩

/-- `merge_list` joins all vacant neighbours and leaves the blocks in use where they are. -/
theorem mergeList_inv (hi : Inv start h blocks live) :
    ∃ h' blocks', mergeList h = some h' ∧ Inv start h' blocks' live ∧ h'.brk = h.brk ∧ Coalesced h'.mem blocks' ∧
      Kept h.mem h'.mem blocks blocks' := by
  unfold mergeList
  by_cases h0 : h.head = 0
  · have hl := hi.list
    rw [h0] at hl
    obtain rfl := hl.eq_nil
    exact ⟨h, [], if_pos h0, hi, rfl, List.isChain_nil, fun b hb => by simp at hb⟩
  · rw [if_neg h0]
    obtain ⟨l, rfl, -⟩ := hi.list.exists_cons h0
    have hlen := hi.arena.tiles.length_le
    have hbrk := hi.brk_lt
    rw [List.length_cons] at hlen
    have hi₀ : Inv start h ([] ++ h.head :: l) live := hi
    have hfuel : l.length < addressSpace := by omega
    obtain ⟨m', blocks', hm, hi', hco, hkept⟩ := mergeLoop_inv hi₀ (List.isChain_singleton _) hfuel
    exact ⟨_, blocks', by rw [hm]; rfl, hi', rfl, hco, hkept⟩

/-! ### A new block -/

/-- What `create_block` writes at the old break. -/
def newHeader (m : Memory) (b sz : Nat) : Memory := setVacant (setNext (setSize m b sz) b 0) b 0

private theorem sameHeader_newHeader {sz : Nat} (hab : a + sizeofList ≤ b) : SameHeader m (newHeader m b sz) a :=
  ((sameBytes_store (Or.inl (by omega))).trans (sameBytes_store (Or.inl hab))).trans
    (sameBytes_store (Or.inl (by omega)))

private theorem newHeader_fields {sz : Nat} (hsz : sz < addressSpace) :
    size (newHeader m b sz) b = sz ∧ next (newHeader m b sz) b = 0 ∧ vacant (newHeader m b sz) b = 0 := by
  refine ⟨?_, ?_, vacant_setVacant (by decide)⟩
  · rw [newHeader, size_setVacant, size_setNext, size_setSize hsz]
  · rw [newHeader, next_setVacant, next_setNext (by decide)]

/-- The list grows by a block at the break. -/
private theorem Inv.extend (hi : Inv start h blocks live) {sz head : Nat}
    (hlt : h.brk + (sz + sizeofList) < addressSpace)
    (hlist : IsChain (next m') 0 head (blocks ++ [h.brk])) (hsize : ∀ b ∈ blocks, size m' b = size h.mem b)
    (hvac : ∀ b ∈ blocks, vacant m' b = vacant h.mem b) (hnew : size m' h.brk = sz) (hnewVac : vacant m' h.brk = 0) :
    Inv start { mem := m', brk := h.brk + (sz + sizeofList), head := head } (blocks ++ [h.brk])
      ((h.brk + sizeofList, sz) :: live) := by
  have hext : extent m' h.brk = sz + sizeofList := by rw [extent, hnew]
  have hfresh : ∀ n, (h.brk + sizeofList, n) ∉ live := fun n hn => by
    have := (hi.arena.inside hn).2
    unfold sizeofList at this
    omega
  have harena : Arena sizeofList (extent m') start h.brk blocks live :=
    hi.arena.congr fun b hb => by rw [extent, extent, hsize b hb]
  refine ⟨hi.start_pos, hlt, hlist, ?_, fun b hb n hn => ?_⟩
  · have hpush := harena.push (by rw [hext, sizeofList]; omega)
    rw [hext] at hpush
    exact hpush.take (by simp) (by rw [hext]; omega) hfresh
  · rcases List.mem_append.1 hb with hb | hb
    · rcases List.mem_cons.1 hn with heq | hn
      · rw [Prod.mk.injEq] at heq
        have := hi.arena.tiles.bounds hb
        omega
      · exact (hvac b hb).trans (hi.occupied b hb n hn)
    · rw [List.mem_singleton.1 hb]; exact hnewVac

/-- `create_block` puts a block at the break and links the last block to it. -/
theorem createBlock_spec (hi : Inv start h blocks live) {sz : Nat} (hsz : sz + sizeofList < 2 ^ 63)
    (hroom : (sbrk h.brk ((sz + sizeofList) % addressSpace) true).isSome) :
    ∃ h', createBlock h (blocks.getLastD 0) sz true = (h.brk, h') ∧ h.brk ≠ 0 ∧
      Inv start (if h.head = 0 then { h' with head := h.brk } else h') (blocks ++ [h.brk])
        ((h.brk + sizeofList, sz) :: live) ∧ ∀ b ∈ blocks, vacant h'.mem b = vacant h.mem b := by
  have hpos := hi.start_pos
  have hle := hi.arena.tiles.le
  obtain ⟨new, hnew⟩ := Option.isSome_iff_exists.1 hroom
  have hmod : (sz + sizeofList) % addressSpace = sz + sizeofList := Nat.mod_eq_of_lt (by unfold addressSpace; omega)
  rw [hmod] at hnew
  obtain ⟨-, rfl, hlt⟩ := (sbrk_eq_some hsz).1 hnew
  obtain ⟨m₁, hm₁⟩ : ∃ m₁, m₁ = if blocks.getLastD 0 ≠ 0 then setNext h.mem (blocks.getLastD 0) h.brk else h.mem :=
    ⟨_, rfl⟩
  have hbelow : ∀ b ∈ blocks, SameHeader m₁ (newHeader m₁ h.brk sz) b := fun b hb => by
    have := hi.arena.tiles.bounds hb
    unfold extent at this
    exact sameHeader_newHeader (by omega)
  have hszlt : sz < addressSpace := by unfold addressSpace; omega
  obtain ⟨hnsize, hnnext, hnvac⟩ := newHeader_fields (m := m₁) (b := h.brk) hszlt
  -- what the link of the last block changes
  have hlink : ∀ b ∈ blocks, size m₁ b = size h.mem b ∧ vacant m₁ b = vacant h.mem b ∧
      next m₁ b = if blocks.getLast? = some b then h.brk else next h.mem b := by
    intro b hb
    have hb0 : b ≠ 0 := by rintro rfl; exact hi.list.stop_notMem hb
    by_cases hbl : b = blocks.getLastD 0
    · rw [if_pos ((getLast?_eq_some_iff 0 hb).2 hbl), hm₁, ← hbl, if_pos hb0]
      exact ⟨size_setNext, vacant_setNext, next_setNext hi.brk_lt⟩
    · have hsame : SameHeader h.mem m₁ b := by
        rw [hm₁]
        split
        · exact hi.sameHeader (o := 0) (getLastD_mem 0 (List.ne_nil_of_mem hb)) hb hbl h.mem (by decide)
        · exact fun _ _ _ => rfl
      rw [if_neg fun hl => hbl ((getLast?_eq_some_iff 0 hb).1 hl)]
      exact ⟨hsame.size_eq, hsame.vacant_eq, hsame.next_eq⟩
  have hlist : IsChain (next (newHeader m₁ h.brk sz)) 0 (if h.head = 0 then h.brk else h.head) (blocks ++ [h.brk]) := by
    refine hi.list.snoc (by omega) hnnext (fun b hb => (hbelow b hb).next_eq.trans (hlink b hb).2.2)
      (fun hnil => ?_) fun hne => ?_
    · have hl := hi.list
      rw [hnil] at hl
      exact if_pos hl
    · refine if_neg fun h0 => hne ?_
      have hl := hi.list
      rw [h0] at hl
      exact hl.eq_nil
  have hinv := hi.extend hlt hlist (fun b hb => (hbelow b hb).size_eq.trans (hlink b hb).1)
    (fun b hb => (hbelow b hb).vacant_eq.trans (hlink b hb).2.1) hnsize hnvac
  refine ⟨{ mem := newHeader m₁ h.brk sz, brk := h.brk + (sz + sizeofList), head := h.head }, ?_, by omega, ?_,
    fun b hb => (hbelow b hb).vacant_eq.trans (hlink b hb).2.1⟩
  · unfold createBlock
    simp only [hmod, hnew, Option.isSome_some, if_true, Option.getD_some, ← hm₁]
    rw [if_neg (by omega)]
    rfl
  · by_cases h0 : h.head = 0
    · rw [if_pos h0] at hinv ⊢; exact hinv
    · rw [if_neg h0] at hinv ⊢; exact hinv

/-! ### `malloc` -/

/-- The walk of `first_free_block` over the rest `l` of the list. -/
private theorem firstFreeLoop_spec {l : List Nat} {fuel p : Nat} (last : Nat) (hl : IsChain (next m) 0 p l)
    (hfuel : l.length < fuel) :
    ∃ last', firstFreeLoop m fuel last p = some ((l.find? (vacant m · ≠ 0)).getD 0, last') ∧
      (l.find? (vacant m · ≠ 0) = none → last' = l.getLastD last) := by
  induction l generalizing p last fuel with
  | nil =>
    obtain ⟨fuel, rfl⟩ : ∃ k, fuel = k + 1 := ⟨fuel - 1, by simp at hfuel; omega⟩
    cases hl
    exact ⟨last, by simp [firstFreeLoop], fun _ => rfl⟩
  | cons a l ih =>
    obtain ⟨fuel, rfl⟩ : ∃ k, fuel = k + 1 := ⟨fuel - 1, by simp at hfuel; omega⟩
    obtain ⟨rfl, hne, ht⟩ := hl
    rw [firstFreeLoop]
    by_cases hvac : vacant m p = 0
    · obtain ⟨last', hs, hlast⟩ := ih p ht (by simpa using hfuel)
      rw [if_pos ⟨hne, hvac⟩, List.find?_cons_of_neg (by simpa using hvac)]
      refine ⟨last', hs, fun hnone => (hlast hnone).trans ?_⟩
      cases l <;> rfl
    · rw [if_neg fun h => hvac h.2, List.find?_cons_of_pos (by simpa using hvac)]
      exact ⟨last, rfl, fun h => by simp at h⟩

/-- The first vacant block of the list. -/
def firstVacant (h : Heap) (blocks : List Nat) : Option Nat := blocks.find? (vacant h.mem · ≠ 0)

theorem firstFreeBlock_spec (hi : Inv start h blocks live) (h0 : h.head ≠ 0) :
    ∃ last, firstFreeBlock h h.head = some ((firstVacant h blocks).getD 0, last) ∧
      (firstVacant h blocks = none → last = blocks.getLastD 0) := by
  have hlen := hi.arena.tiles.length_le
  have hbrk := hi.brk_lt
  have hfuel : blocks.length < addressSpace := by omega
  obtain ⟨last, hs, hlast⟩ := firstFreeLoop_spec h.head hi.list hfuel
  refine ⟨last, hs, fun hnone => (hlast hnone).trans ?_⟩
  obtain ⟨l, rfl, -⟩ := hi.list.exists_cons h0
  rfl

private theorem malloc_reuse {sz : UInt64} {ok : Bool} {p last : Nat} (h0 : h.head ≠ 0)
    (hs : firstFreeBlock h h.head = some (p, last)) (hp : p ≠ 0) :
    malloc h sz ok = some (p + sizeofList, { h with mem := setVacant h.mem p 0 }) := by
  unfold malloc
  rw [if_neg h0, hs]
  simp only [Option.bind_eq_bind, Option.bind_some, Option.pure_def, if_neg hp]

private theorem malloc_append {h' : Heap} {sz : UInt64} {ok : Bool} {last p : Nat} (h0 : h.head ≠ 0)
    (hs : firstFreeBlock h h.head = some (0, last)) (hc : createBlock h last sz.toNat ok = (p, h')) (hp : p ≠ 0) :
    malloc h sz ok = some (p + sizeofList, h') := by
  unfold malloc
  rw [if_neg h0, hs]
  simp only [Option.bind_eq_bind, Option.bind_some, Option.pure_def, if_true, hc, if_neg hp]

private theorem malloc_first {h' : Heap} {sz : UInt64} {ok : Bool} {p : Nat} (h0 : h.head = 0)
    (hc : createBlock h 0 sz.toNat ok = (p, h')) (hp : p ≠ 0) :
    malloc h sz ok = some (p + sizeofList, { h' with head := p }) := by
  unfold malloc
  rw [if_pos h0]
  simp only [hc, if_neg hp]

/-- `malloc` hands out the first vacant block, or a new block when no block is vacant. -/
theorem malloc_cases (hi : Inv start h blocks live) {sz : UInt64}
    (hroom : firstVacant h blocks = none → (sbrk h.brk ((sz.toNat + sizeofList) % addressSpace) true).isSome)
    (hsmall : firstVacant h blocks = none → sz.toNat + sizeofList < 2 ^ 63) :
    (∃ p ∈ blocks, firstVacant h blocks = some p ∧ vacant h.mem p ≠ 0 ∧
      malloc h sz true = some (p + sizeofList, { h with mem := setVacant h.mem p 0 })) ∨
    (firstVacant h blocks = none ∧ ∃ h', malloc h sz true = some (h.brk + sizeofList, h') ∧
      Inv start h' (blocks ++ [h.brk]) ((h.brk + sizeofList, sz.toNat) :: live) ∧
      ∀ b ∈ blocks, vacant h'.mem b = vacant h.mem b) := by
  by_cases h0 : h.head = 0
  · have hnil : blocks = [] := by
      have hl := hi.list
      rw [h0] at hl
      exact hl.eq_nil
    subst hnil
    obtain ⟨h', hc, hbrk, hi', hvac⟩ := createBlock_spec hi (hsmall rfl) (hroom rfl)
    rw [if_pos h0] at hi'
    exact Or.inr ⟨rfl, _, malloc_first h0 hc hbrk, hi', hvac⟩
  · obtain ⟨last, hs, hlast⟩ := firstFreeBlock_spec hi h0
    cases hv : firstVacant h blocks with
    | some p =>
      rw [hv] at hs
      have hp : p ∈ blocks := List.mem_of_find?_eq_some hv
      have hp0 : p ≠ 0 := by rintro rfl; exact hi.list.stop_notMem hp
      have hvac : vacant h.mem p ≠ 0 := by simpa using List.find?_some hv
      exact Or.inl ⟨p, hp, rfl, hvac, malloc_reuse h0 hs hp0⟩
    | none =>
      rw [hv, hlast hv] at hs
      obtain ⟨h', hc, hbrk, hi', hvac⟩ := createBlock_spec hi (hsmall hv) (hroom hv)
      rw [if_neg h0] at hi'
      exact Or.inr ⟨rfl, h', malloc_append h0 hs hc hbrk, hi', hvac⟩

/-- The block handed out becomes live, if it is large enough. -/
private theorem malloc_spec (hi : Inv start h blocks live) {sz : UInt64}
    (hroom : firstVacant h blocks = none → (sbrk h.brk ((sz.toNat + sizeofList) % addressSpace) true).isSome)
    (hsmall : firstVacant h blocks = none → sz.toNat + sizeofList < 2 ^ 63)
    (hfit : ∀ p, firstVacant h blocks = some p → sz.toNat ≤ size h.mem p) :
    ∃ a h' blocks', malloc h sz true = some (a + sizeofList, h') ∧
      Inv start h' blocks' ((a + sizeofList, sz.toNat) :: live) := by
  rcases malloc_cases hi hroom hsmall with ⟨p, hp, hv, hvac, hm⟩ | ⟨-, h', hm, hi', -⟩
  · exact ⟨p, _, blocks, hm, hi.take hp hvac (hfit p hv)⟩
  · exact ⟨h.brk, h', _, hm, hi'⟩

/-! ### The other calls -/

theorem free_spec (hi : Inv start h blocks live) {node n : Nat} (hn : (node, n) ∈ live) :
    ∃ h' blocks', free h node = some h' ∧ Inv start h' blocks' (live.filter (·.1 ≠ node)) := by
  obtain ⟨a, ha, rfl, -⟩ := hi.arena.room node n hn
  obtain ⟨h', blocks', hm, hi', -⟩ := mergeList_inv (hi.release ha)
  refine ⟨h', blocks', ?_, hi'⟩
  rw [free, if_neg (by unfold sizeofList; omega), Nat.add_sub_cancel]
  exact hm

/-- A request of `sz` bytes that `malloc` can meet: `sbrk` succeeds if a new block is needed. -/
def SbrkSucceeds (h : Heap) (sz : Nat) : Prop :=
  ∀ blocks, IsChain (next h.mem) 0 h.head blocks → firstVacant h blocks = none →
    (sbrk h.brk ((sz + sizeofList) % addressSpace) true).isSome

/-- The first vacant block is large enough, or there is none and the new block is not too large. -/
def Fits (h : Heap) (sz : Nat) : Prop :=
  ∀ blocks, IsChain (next h.mem) 0 h.head blocks →
    (∀ p, firstVacant h blocks = some p → sz ≤ size h.mem p) ∧
    (firstVacant h blocks = none → sz + sizeofList < 2 ^ 63)

theorem malloc_inv (hi : Inv start h blocks live) {sz : UInt64} (hs : SbrkSucceeds h sz.toNat) (hf : Fits h sz.toNat) :
    ∃ a h' blocks', malloc h sz true = some (a + sizeofList, h') ∧
      Inv start h' blocks' ((a + sizeofList, sz.toNat) :: live) :=
  malloc_spec hi (hs blocks hi.list) (hf blocks hi.list).2 (hf blocks hi.list).1

private theorem calloc_inv (hi : Inv start h blocks live) {sz : UInt64} (hs : SbrkSucceeds h sz.toNat)
    (hf : Fits h sz.toNat) : ∃ a h' blocks', calloc h sz true = some (a + sizeofList, h') ∧
      Inv start h' blocks' ((a + sizeofList, sz.toNat) :: live) := by
  obtain ⟨a, h', blocks', hm, hi'⟩ := malloc_inv hi hs hf
  refine ⟨a, { h' with mem := memset0 h'.mem (a + sizeofList) sz.toNat }, blocks', ?_,
    hi'.write (List.mem_cons_self ..) fun k hk => if_neg (by omega)⟩
  unfold calloc
  rw [hm]
  simp only [Option.bind_eq_bind, Option.bind_some, Option.pure_def]
  rw [if_pos (by unfold sizeofList; omega)]

private theorem realloc_inv (hi : Inv start h blocks live) {sz : UInt64} {node n : Nat} (hn : (node, n) ∈ live)
    (hs : SbrkSucceeds h sz.toNat) (hf : Fits h sz.toNat) :
    ∃ a h' blocks', realloc h node sz true = some (a + sizeofList, h') ∧
      Inv start h' blocks' ((a + sizeofList, sz.toNat) :: live.filter (·.1 ≠ node)) := by
  obtain ⟨a, h₁, blocks₁, hm, hi₁⟩ := malloc_inv hi hs hf
  have hne : a + sizeofList ≠ node := by
    have hd := hi₁.arena.distinct
    rw [List.map_cons, List.nodup_cons] at hd
    rintro rfl
    exact hd.1 (List.mem_map.2 ⟨_, hn, rfl⟩)
  have hi₂ : Inv start { h₁ with mem := memmove h₁.mem (a + sizeofList) node sz.toNat } blocks₁ _ :=
    hi₁.write (List.mem_cons_self ..) fun k hk => if_neg (by omega)
  obtain ⟨h', blocks', hfree, hi'⟩ := free_spec hi₂ (List.mem_cons_of_mem _ hn)
  rw [List.filter_cons_of_pos (by simpa using hne)] at hi'
  refine ⟨a, h', blocks', ?_, hi'⟩
  unfold realloc
  rw [hm]
  simp only [Option.bind_eq_bind, Option.bind_some, Option.pure_def]
  rw [if_pos (by unfold sizeofList; omega), hfree, Option.bind_some]

/-! ### The calls of a client -/

abbrev Client := Project.Client Heap

/-- A call of the allocator, or a write of the client. -/
inductive Call
  | malloc (sz : UInt64)
  | calloc (sz : UInt64)
  | realloc (node : Nat) (sz : UInt64)
  | free (node : Nat)
  | write (x : Nat) (v : UInt8)

/-- The number of bytes a call asks for. -/
def Call.request : Call → Option Nat
  | .malloc sz | .calloc sz | .realloc _ sz => some sz.toNat
  | .free _ | .write _ _ => none

/-- One call: the pointer it returns (0 if it returns none) and the state after it. -/
def step (s : Client) : Call → Option (Nat × Client)
  | .malloc sz => (malloc s.heap sz true).map fun x => (x.1, ⟨x.2, (x.1, sz.toNat) :: s.live⟩)
  | .calloc sz => (calloc s.heap sz true).map fun x => (x.1, ⟨x.2, (x.1, sz.toNat) :: s.live⟩)
  | .realloc node sz => (realloc s.heap node sz true).map fun x =>
      (x.1, ⟨x.2, (x.1, sz.toNat) :: s.live.filter (·.1 ≠ node)⟩)
  | .free node => (free s.heap node).map fun h => (0, ⟨h, s.live.filter (·.1 ≠ node)⟩)
  | .write x v => some (0, ⟨{ s.heap with mem := Function.update s.heap.mem x v }, s.live⟩)

/-- Only `NULL` and live pointers are freed, only live pointers reallocated, clients write into their allocations, and
`sbrk` succeeds. -/
def Valid (s : Client) : Call → Prop
  | .malloc sz | .calloc sz => SbrkSucceeds s.heap sz.toNat
  | .realloc node sz => (∃ n, (node, n) ∈ s.live) ∧ SbrkSucceeds s.heap sz.toNat
  | .free node => node = 0 ∨ ∃ n, (node, n) ∈ s.live
  | .write x _ => ∃ p n, (p, n) ∈ s.live ∧ p ≤ x ∧ x < p + n

/-- Every request fits. -/
def FitsCall (s : Client) (c : Call) : Prop := ∀ n, c.request = some n → Fits s.heap n

/-- The state before the first call. -/
def initial (m : Memory) (start : Nat) : Client := ⟨⟨m, start, 0⟩, []⟩

theorem inv_initial {m : Memory} (hpos : 0 < start) (hlt : start < addressSpace) :
    Inv start (initial m start).heap [] (initial m start).live :=
  ⟨hpos, hlt, rfl, ⟨rfl, by simp [initial], by simp [initial]⟩, by simp⟩

/-- A call that fits keeps the invariant, and a pointer it returns for `n` bytes becomes live with `n` bytes. -/
theorem step_inv {s : Client} {c : Call} (hi : Inv start s.heap blocks s.live) (hv : Valid s c) (hf : FitsCall s c) :
    ∃ r s' blocks', step s c = some (r, s') ∧ Inv start s'.heap blocks' s'.live ∧
      ∀ n, c.request = some n → ∃ others, s'.live = (r, n) :: others := by
  cases c with
  | malloc sz =>
    obtain ⟨a, h', blocks', hm, hi'⟩ := malloc_inv hi hv (hf _ rfl)
    exact ⟨_, _, blocks', by rw [step, hm]; rfl, hi', fun n hn => by cases hn; exact ⟨_, rfl⟩⟩
  | calloc sz =>
    obtain ⟨a, h', blocks', hm, hi'⟩ := calloc_inv hi hv (hf _ rfl)
    exact ⟨_, _, blocks', by rw [step, hm]; rfl, hi', fun n hn => by cases hn; exact ⟨_, rfl⟩⟩
  | realloc node sz =>
    obtain ⟨⟨k, hk⟩, hs⟩ := hv
    obtain ⟨a, h', blocks', hm, hi'⟩ := realloc_inv hi hk hs (hf _ rfl)
    exact ⟨_, _, blocks', by rw [step, hm]; rfl, hi', fun n hn => by cases hn; exact ⟨_, rfl⟩⟩
  | free node =>
    rcases hv with rfl | ⟨k, hk⟩
    · refine ⟨0, _, blocks, by rw [step, free, if_pos rfl]; rfl, ?_, fun n hn => by cases hn⟩
      exact ⟨hi.start_pos, hi.brk_lt, hi.list, hi.arena.release 0,
        fun b hb n hn => hi.occupied b hb n (List.mem_filter.1 hn).1⟩
    · obtain ⟨h', blocks', hm, hi'⟩ := free_spec hi hk
      exact ⟨0, _, blocks', by rw [step, hm]; rfl, hi', fun n hn => by cases hn⟩
  | write x v =>
    obtain ⟨p, n, hp, h₁, h₂⟩ := hv
    refine ⟨0, _, blocks, rfl, hi.write hp fun k hk => Function.update_of_ne (by omega) _ _, fun n hn => by cases hn⟩

/-- In every run in which all requests fit, a pointer returned for `n` bytes has `n` bytes of its own. -/
theorem hasRoom_of_reach {m : Memory} {s : Client} (hpos : 0 < start) (hlt : start < addressSpace)
    (hs : Reach step (fun s c => Valid s c ∧ FitsCall s c) (initial m start) s) {c : Call} (hv : Valid s c)
    (hf : FitsCall s c) :
    ∃ r s', step s c = some (r, s') ∧ ∀ n, c.request = some n → ∃ blocks others, s'.live = (r, n) :: others ∧
      IsChain (next s'.heap.mem) 0 s'.heap.head blocks ∧ HasRoom s'.heap.brk blocks others r n := by
  obtain ⟨blocks, hi⟩ := hs.exists_invariant (I := fun blocks s => Inv start s.heap blocks s.live)
    ⟨[], inv_initial hpos hlt⟩ fun blocks s c hi hok => by
      obtain ⟨r, s', blocks', hst, hi', -⟩ := step_inv hi hok.1 hok.2
      exact ⟨r, s', blocks', hst, hi'⟩
  obtain ⟨r, s', blocks', hst, hi', hlive⟩ := step_inv hi hv hf
  refine ⟨r, s', hst, fun n hn => ?_⟩
  obtain ⟨others, heq⟩ := hlive n hn
  have harena := hi'.arena
  rw [heq] at harena
  exact ⟨blocks', others, heq, hi'.list, harena.hasRoom (by decide)⟩

end Edaf35.Project.MemLuke
