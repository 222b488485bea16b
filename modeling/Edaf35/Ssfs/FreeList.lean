import Mathlib.Data.List.Perm.Basic
import Edaf35.Lib.Chain
import Edaf35.Lib.Run
import Edaf35.Ssfs.Support

/-!
# The free list of the block map

The free blocks are a chain from entry 0 of the block map.  `allocateBlock` takes its first block off and `freeBlock`
puts one in front, while the callers write the links of the blocks that they hold.  Whatever the order of these calls,
the blocks that are held and the blocks of the chain are those of the chain at the start (`Pool.FreeList`), so no block
is handed out twice (`Pool.never_double`).
-/

namespace Edaf35.Ssfs

variable {bs : Nat}

/-! ### Taking a block and giving it back -/

/-- Freeing a block right after it was allocated restores the whole map. -/
theorem freeBlock_allocateBlock (b : Block bs) {id : Nat} (hid : b.ids 0 = id) (hne : id ≠ 0)
    (h : id < blockidsPerBlock bs) (h' : id < 65536) :
    freeBlock ((b.store (2 * 0) 2 (b.ids id)).store (2 * id) 2 eofBlock) id = some (eofBlock, b) := by
  obtain ⟨b', hb'⟩ : ∃ b', (b.store (2 * 0) 2 (b.ids id)).store (2 * id) 2 eofBlock = b' := ⟨_, rfl⟩
  have hbs : 2 * id + 2 ≤ bs := by
    unfold blockidsPerBlock at h
    omega
  have hids : b'.ids = Function.update (Function.update b.ids 0 (b.ids id)) id eofBlock := by
    rw [← hb', ids_store _ h (by decide), ids_store b (by omega) (ids_lt b id)]
  have hlink : b'.ids id = eofBlock := by rw [hids, Function.update_self]
  have hfirst : b'.ids 0 = b.ids id := by rw [hids, Function.update_of_ne (Ne.symm hne), Function.update_self]
  have hload : load b.byte 0 2 = id := hid
  rw [hb', freeBlock_of_lt b' h, hlink, hfirst, ← hb']
  congr 2
  -- the two stores to each of the two entries cancel out
  apply Block.byte_injective
  rw [Block.byte_store_eq _ _ (by omega), Block.byte_store_eq _ _ hbs, Block.byte_store_eq _ _ hbs,
    Block.byte_store_eq _ _ (by omega), store_store_same, store_comm (by omega), store_store_same,
    store_comm (by omega), Block.ids, Block.load, store_load, ← hid]
  exact store_load

/-! ### Blocks that are held -/

/-- The block map, the ids that were handed out and not freed since, and how many were handed out and freed. -/
structure Pool (bs : Nat) where
  map : Block bs
  held : List Nat
  allocated : Nat
  freed : Nat

namespace Pool

inductive Call
  | allocate
  | free (id : Nat)
  | link (id : Nat) (v : UInt16)

/-- A caller frees, and writes the links of, ids that are held. -/
def Allowed (p : Pool bs) : Call → Prop
  | .allocate => True
  | .free id => id ∈ p.held
  | .link id _ => id ∈ p.held

/-- A call of `allocateBlock` that returned `bid` and the map. -/
def handOut (p : Pool bs) (bid : Nat) (map : Block bs) : Pool bs :=
  if bid = eofBlock then { p with map := map }
  else { p with map := map, held := bid :: p.held, allocated := p.allocated + 1 }

/-- The id that a call returns, if it does; `none` for an access past the end of the map. -/
def step (p : Pool bs) : Call → Option (Option Nat × Pool bs)
  | .allocate => (allocateBlock p.map).map fun answer => (some answer.1, p.handOut answer.1 answer.2)
  | .free id => (freeBlock p.map id).map fun answer =>
    (some answer.1, { p with map := answer.2, held := p.held.erase id, freed := p.freed + 1 })
  | .link id v => (setId p.map id v.toNat).map fun map => (none, { p with map := map })

/-- Nothing is held at the start. -/
def start (b : Block bs) : Pool bs := ⟨b, [], 0, 0⟩

/-- The chain from entry 0 visits `free`; these ids and the ones held are those of the chain at the start. -/
structure FreeList (all : List Nat) (p : Pool bs) (free : List Nat) : Prop where
  chain : IsChain p.map.ids 0 (p.map.ids 0) free
  perm : (p.held ++ free).Perm all
  count : p.allocated = p.freed + p.held.length

/-- The ids of the chain at the start. -/
structure Inside (bs : Nat) (all : List Nat) : Prop where
  nodup : all.Nodup
  zero : 0 ∉ all
  lt : ∀ id ∈ all, id < blockidsPerBlock bs
  map : 0 < blockidsPerBlock bs
  eof : blockidsPerBlock bs ≤ eofBlock

section Step

variable {all free : List Nat} {p : Pool bs}

private theorem FreeList.held_mem (h : FreeList all p free) {id : Nat} (hid : id ∈ p.held) : id ∈ all :=
  h.perm.mem_iff.1 (List.mem_append_left _ hid)

private theorem FreeList.nodup (h : FreeList all p free) (ha : Inside bs all) : (p.held ++ free).Nodup :=
  h.perm.nodup_iff.2 ha.nodup

private theorem FreeList.held_notMem (h : FreeList all p free) (ha : Inside bs all) {id : Nat} (hid : id ∈ p.held) :
    id ∉ free := fun hf => List.disjoint_of_nodup_append (h.nodup ha) hid hf

/-- No block is left: the map stays as it is. -/
private theorem FreeList.allocate_nil (h : FreeList all p []) (ha : Inside bs all) :
    allocateBlock p.map = some (eofBlock, p.map) := allocateBlock_zero _ ha.map h.chain

/-- The first block of the chain is handed out, and freeing it again restores the map. -/
private theorem FreeList.allocate_cons {id : Nat} (h : FreeList all p (id :: free)) (ha : Inside bs all) :
    id ≠ eofBlock ∧ id ∉ p.held ∧ ∃ map, allocateBlock p.map = some (id, map) ∧
      freeBlock map id = some (eofBlock, p.map) ∧ FreeList all (p.handOut id map) free := by
  have hmem : id ∈ all := h.perm.mem_iff.1 (by simp)
  have hlt := ha.lt id hmem
  have heof := ha.eof
  have hne : id ≠ 0 := by
    rintro rfl
    exact ha.zero hmem
  have hid : p.map.ids 0 = id := h.chain.head_eq
  have hlt' : id < 65536 := by
    rw [← hid]
    exact ids_lt _ _
  have hne_eof : id ≠ eofBlock := by omega
  have hheld : id ∉ p.held := fun hm => h.held_notMem ha hm (by simp)
  refine ⟨hne_eof, hheld, _, allocateBlock_of_lt _ hid hne hlt, freeBlock_allocateBlock _ hid hne hlt hlt', ?_⟩
  have hnd := h.chain.nodup
  rw [List.nodup_cons] at hnd
  have hids : ((p.map.store (2 * 0) 2 (p.map.ids id)).store (2 * id) 2 eofBlock).ids =
      Function.update (Function.update p.map.ids 0 (p.map.ids id)) id eofBlock := by
    rw [ids_store _ hlt (by decide), ids_store _ ha.map (ids_lt _ _)]
  rw [handOut, if_neg hne_eof]
  constructor
  · rw [hids, Function.update_of_ne (Ne.symm hne), Function.update_self]
    exact (h.chain.tail.update h.chain.tail.stop_notMem).update hnd.1
  · exact List.perm_middle.symm.trans h.perm
  · simp only [List.length_cons, h.count]
    omega

/-- A block that is held is put in front of the chain. -/
private theorem FreeList.giveBack {id : Nat} (h : FreeList all p free) (ha : Inside bs all) (hid : id ∈ p.held) :
    ∃ bid map, freeBlock p.map id = some (bid, map) ∧
      FreeList all { p with map := map, held := p.held.erase id, freed := p.freed + 1 } (id :: free) := by
  have hmem := h.held_mem hid
  have hlt := ha.lt id hmem
  have hne : id ≠ 0 := by
    rintro rfl
    exact ha.zero hmem
  have hlt' : id < 65536 := by
    have heof := ha.eof
    simp only [eofBlock] at heof
    omega
  refine ⟨_, _, freeBlock_of_lt _ hlt, ?_⟩
  have hids : ((p.map.store (2 * id) 2 (p.map.ids 0)).store (2 * 0) 2 id).ids =
      Function.update (Function.update p.map.ids id (p.map.ids 0)) 0 id := by
    rw [ids_store _ ha.map hlt', ids_store _ hlt (ids_lt _ _)]
  have hpush := h.chain.push (h.held_notMem ha hid) hne
  constructor
  · rw [hids, Function.update_self]
    exact hpush.update hpush.stop_notMem
  · have herase : (id :: p.held.erase id).Perm p.held := (List.perm_cons_erase hid).symm
    exact List.perm_middle.trans ((herase.append_right free).trans h.perm)
  · have hlen := List.length_erase_of_mem hid
    have hpos := List.length_pos_of_mem hid
    simp only [h.count, hlen]
    omega

/-- A caller's write to the link of a block that it holds leaves the chain alone. -/
private theorem FreeList.link {id : Nat} (h : FreeList all p free) (ha : Inside bs all) (hid : id ∈ p.held)
    (v : UInt16) : ∃ map, setId p.map id v.toNat = some map ∧ FreeList all { p with map := map } free := by
  have hmem := h.held_mem hid
  have hne : 0 ≠ id := by
    rintro rfl
    exact ha.zero hmem
  obtain ⟨map, hmap, hids⟩ := setId_of_lt p.map id v.toNat (ha.lt id hmem) v.toNat_lt
  refine ⟨map, hmap, ?_, h.perm, h.count⟩
  change IsChain map.ids 0 (map.ids 0) free
  rw [hids, Function.update_of_ne hne]
  exact h.chain.update (h.held_notMem ha hid)

private theorem FreeList.step (h : FreeList all p free) (ha : Inside bs all) {call : Call} (hok : p.Allowed call) :
    ∃ answer p' free', p.step call = some (answer, p') ∧ FreeList all p' free' := by
  cases call with
  | allocate =>
    cases free with
    | nil =>
      refine ⟨some eofBlock, p, [], ?_, h⟩
      simp only [Pool.step, h.allocate_nil ha, handOut, Option.map_some, if_pos]
    | cons id free =>
      obtain ⟨-, -, map, hmap, -, h'⟩ := h.allocate_cons ha
      exact ⟨some id, _, free, by rw [Pool.step, hmap]; rfl, h'⟩
  | free id =>
    obtain ⟨bid, map, hmap, h'⟩ := h.giveBack ha hok
    exact ⟨some bid, _, id :: free, by rw [Pool.step, hmap]; rfl, h'⟩
  | link id v =>
    obtain ⟨map, hmap, h'⟩ := h.link ha hok v
    exact ⟨none, _, free, by rw [Pool.step, hmap]; rfl, h'⟩

end Step

/-! ### Every run -/

/-- In every state that is reached from a map whose chain from entry 0 visits `all`: that chain visits the ids of
`all` that are not held, and ends at 0.  Every call that is allowed returns.  `allocateBlock` returns `EOF_BLOCK` and
leaves the map alone exactly when all ids are held, and otherwise an id that is not held; freeing it at once restores
the map. -/
theorem never_double {b : Block bs} {all : List Nat} (hchain : IsChain b.ids 0 (b.ids 0) all)
    (hlt : ∀ id ∈ all, id < blockidsPerBlock bs) (hmap : 0 < blockidsPerBlock bs)
    (heof : blockidsPerBlock bs ≤ eofBlock) {p : Pool bs} (h : Reach Pool.step Allowed (start b) p) :
    (∃ free, IsChain p.map.ids 0 (p.map.ids 0) free ∧ free.Nodup ∧ ∀ id, id ∈ free ↔ id ∈ all ∧ id ∉ p.held) ∧
      (∀ call, p.Allowed call → ∃ answer p', p.step call = some (answer, p')) ∧
      ∃ bid map, allocateBlock p.map = some (bid, map) ∧
        (bid = eofBlock ↔ p.allocated = p.freed + all.length) ∧ (bid = eofBlock → map = p.map) ∧
        (bid ≠ eofBlock → bid ∉ p.held ∧ ∃ next, freeBlock map bid = some (next, p.map)) := by
  have ha : Inside bs all := ⟨hchain.nodup, hchain.stop_notMem, hlt, hmap, heof⟩
  obtain ⟨free, hf⟩ : ∃ free, FreeList all p free := by
    apply h.invariant (I := fun p => ∃ free, FreeList all p free)
    · exact ⟨all, hchain, List.Perm.refl all, rfl⟩
    · intro s call answer s' hs hok hstep
      obtain ⟨free, hs⟩ := hs
      obtain ⟨_, _, free', hstep', hs'⟩ := hs.step ha hok
      cases hstep.symm.trans hstep'
      exact ⟨free', hs'⟩
  have hlength := hf.perm.length_eq
  rw [List.length_append] at hlength
  have hcount := hf.count
  refine ⟨⟨free, hf.chain, hf.chain.nodup, ?_⟩, ?_, ?_⟩
  · intro id
    rw [← hf.perm.mem_iff, List.mem_append]
    constructor
    · intro hid
      exact ⟨Or.inr hid, fun hheld => hf.held_notMem ha hheld hid⟩
    · intro hid
      exact hid.1.resolve_left hid.2
  · intro call hok
    obtain ⟨answer, p', -, hstep, -⟩ := hf.step ha hok
    exact ⟨answer, p', hstep⟩
  · cases free with
    | nil =>
      rw [List.length_nil] at hlength
      refine ⟨eofBlock, p.map, hf.allocate_nil ha, ?_, fun _ => rfl, fun hne => absurd rfl hne⟩
      exact iff_of_true rfl (by omega)
    | cons id free =>
      obtain ⟨hne, hheld, map, hmap', hrestore, -⟩ := hf.allocate_cons ha
      rw [List.length_cons] at hlength
      refine ⟨id, map, hmap', ?_, fun he => absurd he hne, fun _ => ⟨hheld, _, hrestore⟩⟩
      exact iff_of_false hne (by omega)

/-- A map of three ids, with the chain 2, 1. -/
def twoFree : Block 6 := fun k => [2, 0, 0, 0, 1, 0].getD k 0

/-- Both blocks are handed out and the first one is freed; then it is handed out again while the other one is held. -/
theorem never_double_twoFree : ∃ p map, Reach Pool.step Allowed (start twoFree) p ∧ p.held = [1] ∧
    allocateBlock p.map = some (2, map) ∧ 2 ∉ p.held ∧ ∃ next, freeBlock map 2 = some (next, p.map) := by
  have hrun : ((Pool.step (start twoFree) .allocate).bind fun x => (x.2.step .allocate).bind fun y =>
      (y.2.step (.free 2)).map fun z => (y.2.held, z.2.held, (allocateBlock z.2.map).map Prod.fst)) =
        some ([1, 2], [1], some 2) := by decide
  obtain ⟨⟨a₁, p₁⟩, h₁, hrun⟩ := Option.bind_eq_some_iff.1 hrun
  obtain ⟨⟨a₂, p₂⟩, h₂, hrun⟩ := Option.bind_eq_some_iff.1 hrun
  obtain ⟨⟨a₃, p₃⟩, h₃, hrun⟩ := Option.map_eq_some_iff.1 hrun
  simp only [Prod.mk.injEq] at hrun
  obtain ⟨hheld₂, hheld₃, hbid⟩ := hrun
  have hfree : p₂.Allowed (.free 2) := by
    show 2 ∈ p₂.held
    rw [hheld₂]
    decide
  have hreach : Reach Pool.step Allowed (start twoFree) p₃ :=
    ((Reach.refl.tail trivial h₁).tail trivial h₂).tail hfree h₃
  have hchain : IsChain twoFree.ids 0 (twoFree.ids 0) [2, 1] := ⟨rfl, by decide, rfl, by decide, rfl⟩
  obtain ⟨-, -, bid, map, hmap, -, -, hgiven⟩ := never_double hchain (by decide) (by decide) (by decide) hreach
  rw [hmap] at hbid
  obtain rfl : bid = 2 := Option.some.inj hbid
  exact ⟨p₃, map, hreach, hheld₃, hmap, hgiven (by decide)⟩

end Pool

end Edaf35.Ssfs
