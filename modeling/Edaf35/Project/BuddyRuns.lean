import Mathlib.Data.UInt
import Edaf35.Lib.Run
import Edaf35.Project.Buddy

/-!
# Runs of the allocator of `buddy.c`

The first `malloc` makes the arena, a record and 32 bytes behind it, and returns what lies behind the node that an
uninitialised pointer points to.  Every later `malloc` that does not return `NULL` returns the bytes behind the first
record, because `split` keeps the node it divides and `vacant` is set to 1 again.  So the allocations are disjoint as
long as those bytes are not live (`live_disjoint`).
-/

namespace Edaf35.Project.Buddy

/-! ### The functions -/

/-- The memory, the break and the global `root`. -/
structure Heap where
  mem : Memory
  brk : Nat
  root : Nat

/-- `init`.  It compares the result of `sbrk` with `NULL`, and `sbrk` returns -1 when it fails. -/
def init (h : Heap) (sz : Nat) (ok : Bool) : Option (Nat × Heap) :=
  let p := h.brk
  let new := sbrk h.brk ((sz + sizeofNode) % addressSpace) ok
  let req := if new.isSome then h.brk else addressSpace - 1
  let h := { h with brk := new.getD h.brk }
  if req = 0 then some (0, h)
  else if p = 0 then none
  else some (p, { h with mem := createNode h.mem p sz })

/-- `find_free_spot`.  A child is looked at only when it is `NULL`, so that there is no recursive call. -/
def findFreeSpot (m : Memory) (node sz : Nat) : Option Nat :=
  if node = 0 then none
  else if vacant m node ≠ 0 ∧ sz ≤ size m node then some node
  -- `node->left->size`
  else if left m node = 0 then none
  -- `node->right->vacant`
  else if right m node = 0 then none
  else some 0

/-- `create_block`; 64 divisions make a node of any size empty. -/
def createBlock (m : Memory) (node sz : Nat) : Option (Nat × Memory) := do
  let p ← findFreeSpot m node sz
  if p = 0 then return (0, m)
  let result ← split 65 m p sz
  return (result.2.1, setVacant result.1 result.2.1 0)

/-- `free`; `merge` does nothing. -/
def free (h : Heap) (node : Nat) : Heap := if node = 0 then h else { h with mem := setVacant h.mem node 1 }

/-- `malloc`; `garbage` is what the local variable `p` holds before anything is assigned to it. -/
def malloc (h : Heap) (sz garbage : Nat) (ok : Bool) : Option (Nat × Heap) :=
  if h.root = 0 then do
    let result ← init h initSize ok
    return ((garbage + sizeofNode) % addressSpace, { result.2 with root := result.1 })
  else do
    let result ← createBlock h.mem h.root sz
    if result.1 = 0 then return (0, { h with mem := result.2 })
    return ((result.1 + sizeofNode) % addressSpace, { h with mem := setVacant result.2 result.1 1 })

/-! ### The cases of `malloc` -/

section Malloc

variable {h : Heap} {sz garbage : Nat}

/-- The lowest byte of the field `vacant`. -/
private theorem setVacant_flag (m : Memory) (p : Nat) : setVacant m p 1 (p + 24) = 1 := by
  rw [setVacant, store_of_mem (Nat.le_refl _) (by omega), Nat.sub_self]
  rfl

private theorem createNode_flag (m : Memory) (p sz : Nat) : createNode m p sz (p + 24) = 1 := by
  rw [createNode, setSize, store_of_notMem (by omega)]
  exact setVacant_flag _ _

private theorem malloc_first (hroot : h.root = 0) (hbrk : h.brk ≠ 0)
    (hlt : h.brk + sizeofNode + initSize < addressSpace) :
    malloc h sz garbage true = some ((garbage + sizeofNode) % addressSpace,
      ⟨createNode h.mem h.brk initSize, h.brk + sizeofNode + initSize, h.brk⟩) := by
  unfold sizeofNode initSize at *
  have hsbrk : sbrk h.brk ((32 + 32) % addressSpace) true = some (h.brk + 32 + 32) :=
    (sbrk_eq_some (by decide)).2 ⟨Or.inl rfl, by rfl, hlt⟩
  simp [malloc, hroot, init, initSize, sizeofNode, hsbrk, hbrk]

private theorem malloc_null (hroot : h.root ≠ 0) (hspot : ¬(vacant h.mem h.root ≠ 0 ∧ sz ≤ size h.mem h.root))
    (hleft : left h.mem h.root ≠ 0) (hright : right h.mem h.root ≠ 0) : malloc h sz garbage true = some (0, h) := by
  have hfind : findFreeSpot h.mem h.root sz = some 0 := by
    rw [findFreeSpot, if_neg hroot, if_neg hspot, if_neg hleft, if_neg hright]
  simp [malloc, hroot, createBlock, hfind]

/-- A later `malloc` returns the bytes behind the first record, and leaves that record vacant with a size between the
request and the old one. -/
private theorem malloc_later (hroot : h.root ≠ 0) (hlt : h.root + sizeofNode < addressSpace)
    (hvacant : vacant h.mem h.root ≠ 0) (hle : sz ≤ size h.mem h.root) (htwo : 2 ≤ sz)
    (hmax : size h.mem h.root < 2 ^ 61) :
    ∃ mem, malloc h sz garbage true = some (h.root + sizeofNode, { h with mem := mem }) ∧ mem (h.root + 24) = 1 ∧
      sz ≤ size mem h.root ∧ size mem h.root ≤ size h.mem h.root := by
  have hfind : findFreeSpot h.mem h.root sz = some h.root := by
    rw [findFreeSpot, if_neg hroot, if_pos ⟨hvacant, hle⟩]
  obtain ⟨m', ds, hsplit, -, hhigh, hsmaller⟩ :=
    split_returns hroot (by omega) (size_lt h.mem h.root) (Or.inr ⟨htwo, hmax⟩) hle
  have hmod : (h.root + sizeofNode) % addressSpace = h.root + sizeofNode := Nat.mod_eq_of_lt hlt
  have hsize : size (setVacant (setVacant m' h.root 0) h.root 1) h.root = size m' h.root := by
    rw [size_setVacant, size_setVacant]
  refine ⟨setVacant (setVacant m' h.root 0) h.root 1, ?_, setVacant_flag _ _, by rwa [hsize], by rwa [hsize]⟩
  simp [malloc, hroot, createBlock, hfind, hsplit, hmod]

/-- A request of 0 or 1 byte for a node that is too large for it goes through `NULL` in `split`. -/
private theorem malloc_split_crashes (hroot : h.root ≠ 0) (hlt : h.root < addressSpace)
    (hvacant : vacant h.mem h.root ≠ 0) (hle : sz ≤ size h.mem h.root / 2) (hone : sz ≤ 1) :
    malloc h sz garbage true = none := by
  have hfind : findFreeSpot h.mem h.root sz = some h.root := by
    rw [findFreeSpot, if_neg hroot, if_pos ⟨hvacant, by omega⟩]
  have hsplit : split 65 h.mem h.root sz = none := split_crashes hroot hlt hone hle
  simp [malloc, hroot, createBlock, hfind, hsplit]

/-- A request that the first node has no room for goes through a child that is `NULL`. -/
private theorem malloc_find_crashes (hroot : h.root ≠ 0) (hspot : ¬(vacant h.mem h.root ≠ 0 ∧ sz ≤ size h.mem h.root))
    (hchild : left h.mem h.root = 0 ∨ right h.mem h.root = 0) : malloc h sz garbage true = none := by
  have hfind : findFreeSpot h.mem h.root sz = none := by
    rw [findFreeSpot, if_neg hroot, if_neg hspot]
    split
    · rfl
    · next hleft => rw [if_pos (hchild.resolve_left hleft)]
  simp [malloc, hroot, createBlock, hfind]

end Malloc

/-! ### Clients -/

/-- An allocation: the pointer, the bytes asked for, and what the uninitialised `p` held if this was the first
`malloc`. -/
structure Alloc where
  ptr : Nat
  size : Nat
  garbage : Option Nat
deriving DecidableEq, Repr

/-- The state of the allocator, and the allocations that are live. -/
structure Client where
  heap : Heap
  live : List Alloc

/-- A call of the allocator, or a write of the client. -/
inductive Call
  | malloc (sz garbage : UInt64)
  | free (node : Nat)
  | write (x : Nat) (v : UInt8)

/-- One call: the pointer it returns (0 if it returns none) and the state after it. -/
def step (s : Client) : Call → Option (Nat × Client)
  | .malloc sz garbage => (malloc s.heap sz.toNat garbage.toNat true).map fun x =>
      (x.1, ⟨x.2, if x.1 = 0 then s.live
        else ⟨x.1, sz.toNat, if s.heap.root = 0 then some garbage.toNat else none⟩ :: s.live⟩)
  | .free node => some (0, ⟨free s.heap node, s.live.eraseP (·.ptr == node)⟩)
  | .write x v => some (0, ⟨{ s.heap with mem := Function.update s.heap.mem x v }, s.live⟩)

/-- Only `NULL` and live pointers are freed, and clients write into their allocations. -/
def Valid (s : Client) : Call → Prop
  | .malloc _ _ => True
  | .free node => node = 0 ∨ ∃ a ∈ s.live, a.ptr = node
  | .write x _ => ∃ a ∈ s.live, a.ptr ≤ x ∧ x < a.ptr + a.size

/-- The state before the first call. -/
def initial (m : Memory) (start : Nat) : Client := ⟨⟨m, start, 0⟩, []⟩

/-- The two allocations have no byte in common. -/
def Apart (a b : Alloc) : Prop := ∀ k, a.ptr ≤ k → k < a.ptr + a.size → ¬(b.ptr ≤ k ∧ k < b.ptr + b.size)

/-- The live allocations lie in the arena and have no bytes in common. -/
structure Sound (s : Client) : Prop where
  inside : ∀ a ∈ s.live, s.heap.root ≤ a.ptr ∧ a.ptr + a.size ≤ s.heap.root + sizeofNode + initSize
  apart : s.live.Pairwise Apart

/-- A live allocation next to which a later `malloc` of `n` bytes can be made: it is that of the first `malloc`, and its
`p` lies far enough from the first record. -/
def LeavesRoom (root n : Nat) (a : Alloc) : Prop :=
  ∃ p, a.garbage = some p ∧ (a.size = 0 ∨ p + a.size ≤ root ∨ root + n ≤ p)

/-- The first `malloc` finds `p` at -32, or 32 bytes before bytes of the arena.  A later one asks for 2 bytes or more
while nothing is live but the first allocation; or for more than the size of the first record, once this was divided.
Clients do not write into the first record. -/
def Safe (s : Client) : Call → Prop
  | .malloc sz garbage =>
    if s.heap.root = 0 then
      garbage.toNat + sizeofNode = addressSpace ∨
        s.heap.brk ≤ garbage.toNat + sizeofNode ∧
          garbage.toNat + sizeofNode + sz.toNat ≤ s.heap.brk + sizeofNode + initSize
    else if sz.toNat ≤ size s.heap.mem s.heap.root then
      2 ≤ sz.toNat ∧ ∀ a ∈ s.live, LeavesRoom s.heap.root sz.toNat a
    else left s.heap.mem s.heap.root ≠ 0 ∧ right s.heap.mem s.heap.root ≠ 0
  | .free _ => True
  | .write x _ => ¬(s.heap.root ≤ x ∧ x < s.heap.root + sizeofNode)

/-! ### Every run -/

/-- The first record: it is vacant, and its size is at least 2 and at most `INIT_SIZE`. -/
structure Header (h : Heap) : Prop where
  flag : h.mem (h.root + 24) = 1
  size_ge : 2 ≤ size h.mem h.root
  size_le : size h.mem h.root ≤ initSize

private theorem Header.vacant {h : Heap} (hh : Header h) : vacant h.mem h.root ≠ 0 := by
  have hload : Buddy.vacant h.mem h.root = (h.mem (h.root + 24)).toNat + 256 * load h.mem (h.root + 24 + 1) 3 := rfl
  have hone : (1 : UInt8).toNat = 1 := rfl
  rw [hload, hh.flag, hone]
  omega

/-- A change of the memory that spares the flag and the size. -/
private theorem Header.congr {h h' : Heap} (hh : Header h) (hroot : h'.root = h.root) (hflag : h'.mem (h.root + 24) = 1)
    (hsize : ∀ k, h.root + 16 ≤ k → k < h.root + 24 → h'.mem k = h.mem k) : Header h' := by
  have hsame : size h'.mem h'.root = size h.mem h.root := by
    rw [hroot]
    exact load_congr fun k h₁ h₂ => hsize k h₁ (by omega)
  refine ⟨?_, ?_, ?_⟩
  · rw [hroot]
    exact hflag
  · rw [hsame]
    exact hh.size_ge
  · rw [hsame]
    exact hh.size_le

/-- Where the pointer comes from. -/
def Placed (root : Nat) (a : Alloc) : Prop :=
  match a.garbage with
  | some p => a.ptr = p + sizeofNode
  | none => a.ptr = root + sizeofNode ∧ 2 ≤ a.size

/-- The bytes behind the first record are apart from an allocation that leaves room for them, and from no other. -/
private theorem apart_iff_leavesRoom {root n : Nat} {a : Alloc} {garbage : Option Nat} (hplaced : Placed root a)
    (hn : 2 ≤ n) : Apart ⟨root + sizeofNode, n, garbage⟩ a ↔ LeavesRoom root n a := by
  obtain ⟨ptr, size, origin⟩ := a
  cases origin with
  | none =>
    obtain ⟨rfl, htwo⟩ : ptr = root + sizeofNode ∧ 2 ≤ size := hplaced
    constructor
    · intro hapart
      refine absurd ?_ (hapart (root + sizeofNode) (Nat.le_refl _) (by dsimp only; omega))
      exact ⟨Nat.le_refl _, by dsimp only; omega⟩
    · rintro ⟨p, hp, -⟩
      cases hp
  | some p =>
    obtain rfl : ptr = p + sizeofNode := hplaced
    constructor
    · intro hapart
      refine ⟨p, rfl, ?_⟩
      by_contra hover
      have hboth := hapart (max root p + sizeofNode) (by dsimp only; omega) (by dsimp only; omega)
      dsimp only at hover hboth
      omega
    · rintro ⟨p', hp, hroom⟩ k hlow hhigh hk
      cases hp
      dsimp only at *
      omega

/-- The arena, if there is one, is at `start`; before that nothing is live. -/
structure Inv (start : Nat) (s : Client) : Prop where
  sound : Sound s
  arena : s.heap.root = start ∧ Header s.heap ∧ (∀ a ∈ s.live, Placed start a) ∨
    s.heap.root = 0 ∧ s.heap.brk = start ∧ s.live = []

section Runs

variable {m : Memory} {start : Nat} {s : Client}

private theorem inv_initial : Inv start (initial m start) :=
  ⟨⟨by simp [initial], List.Pairwise.nil⟩, Or.inr ⟨rfl, rfl, rfl⟩⟩

/-- A call that keeps `root` and the first record, and keeps or shortens the list of the allocations. -/
private theorem Inv.sublist (hi : Inv start s) {s' : Client} (hroot : s'.heap.root = s.heap.root)
    (hbrk : s'.heap.brk = s.heap.brk) (hheader : Header s.heap → Header s'.heap) (hlive : s'.live.Sublist s.live) :
    Inv start s' := by
  refine ⟨⟨fun a ha => ?_, hi.sound.apart.sublist hlive⟩, ?_⟩
  · rw [hroot]
    exact hi.sound.inside a (hlive.subset ha)
  · rcases hi.arena with ⟨h, hh, hplaced⟩ | ⟨h, hb, hl⟩
    · exact Or.inl ⟨hroot.trans h, hheader hh, fun a ha => hplaced a (hlive.subset ha)⟩
    · rw [hl, List.sublist_nil] at hlive
      exact Or.inr ⟨hroot.trans h, hbrk.trans hb, hlive⟩

/-- An allocation in the arena that is apart from the live ones. -/
private theorem Inv.cons (hi : Inv start s) {s' : Client} {a : Alloc} (hroot : s'.heap.root = start)
    (hheader : Header s'.heap) (harena : s.heap.root = start ∧ (∀ b ∈ s.live, Placed start b) ∨ s.live = [])
    (hlive : s'.live = a :: s.live) (hplaced : Placed start a)
    (hinside : start ≤ a.ptr ∧ a.ptr + a.size ≤ start + sizeofNode + initSize) (hapart : ∀ b ∈ s.live, Apart a b) :
    Inv start s' := by
  have hold : ∀ b ∈ s.live, s.heap.root = start ∧ Placed start b := by
    intro b hb
    rcases harena with ⟨h, hall⟩ | h
    · exact ⟨h, hall b hb⟩
    · rw [h] at hb
      cases hb
  refine ⟨⟨fun b hb => ?_, ?_⟩, Or.inl ⟨hroot, hheader, fun b hb => ?_⟩⟩
  · rw [hroot]
    rw [hlive] at hb
    rcases List.mem_cons.1 hb with rfl | hb
    · exact hinside
    · rw [← (hold b hb).1]
      exact hi.sound.inside b hb
  · rw [hlive]
    exact List.pairwise_cons.2 ⟨hapart, hi.sound.apart⟩
  · rw [hlive] at hb
    rcases List.mem_cons.1 hb with rfl | hb
    · exact hplaced
    · exact (hold b hb).2

/-- The pointer that a `malloc` returns, if it is not `NULL`, becomes live. -/
def Hands (s s' : Client) (r : Nat) : Call → Prop
  | .malloc sz _ => r = 0 ∧ s'.live = s.live ∨ r ≠ 0 ∧ ∃ p, s'.live = ⟨r, sz.toNat, p⟩ :: s.live
  | _ => True

/-- The bytes behind the first record are handed out. -/
private theorem step_malloc_later (hi : Inv start s) (hlt : start + sizeofNode + initSize < addressSpace)
    {sz garbage : UInt64} (hroot : s.heap.root = start) (hne : s.heap.root ≠ 0) (hheader : Header s.heap)
    (hplaced : ∀ a ∈ s.live, Placed start a) (hspot : sz.toNat ≤ size s.heap.mem s.heap.root) (htwo : 2 ≤ sz.toNat)
    (hroom : ∀ a ∈ s.live, LeavesRoom s.heap.root sz.toNat a) :
    ∃ r s', step s (.malloc sz garbage) = some (r, s') ∧ Inv start s' ∧ Hands s s' r (.malloc sz garbage) := by
  have hmax := hheader.size_le
  have hbehind : s.heap.root + sizeofNode < addressSpace := by omega
  have hlarge : size s.heap.mem s.heap.root < 2 ^ 61 := by unfold initSize at hmax; omega
  obtain ⟨mem, hm, hflag, hlow, hhigh⟩ :=
    @malloc_later s.heap sz.toNat garbage.toNat hne hbehind hheader.vacant hspot htwo hlarge
  have hr : s.heap.root + sizeofNode ≠ 0 := by omega
  rw [step, hm, Option.map_some]
  simp only [if_neg hr, if_neg hne]
  refine ⟨_, _, rfl, ?_, Or.inr ⟨hr, none, rfl⟩⟩
  refine hi.cons hroot ⟨hflag, by dsimp only; omega, by dsimp only; omega⟩ (Or.inl ⟨hroot, hplaced⟩) rfl ?_ ?_ ?_
  · exact ⟨by rw [hroot], htwo⟩
  · rw [hroot]
    dsimp only
    omega
  · rw [hroot] at hroom ⊢
    exact fun b hb => (apart_iff_leavesRoom (hplaced b hb) htwo).2 (hroom b hb)

/-- The arena is made, and what lies behind the node at `garbage` is handed out. -/
private theorem step_malloc_first (hi : Inv start s) (hstart : start ≠ 0)
    (hlt : start + sizeofNode + initSize < addressSpace) {sz garbage : UInt64} (hroot : s.heap.root = 0)
    (hbrk : s.heap.brk = start) (hlive : s.live = []) (hinside : garbage.toNat + sizeofNode = addressSpace ∨
      start ≤ garbage.toNat + sizeofNode ∧ garbage.toNat + sizeofNode + sz.toNat ≤ start + sizeofNode + initSize) :
    ∃ r s', step s (.malloc sz garbage) = some (r, s') ∧ Inv start s' ∧ Hands s s' r (.malloc sz garbage) := by
  have hheader : ∀ brk, Header ⟨createNode s.heap.mem start initSize, brk, start⟩ := fun brk => by
    have hsize : size (createNode s.heap.mem start initSize) start = initSize := size_createNode (by decide)
    exact ⟨createNode_flag _ _ _, by rw [hsize]; decide, by rw [hsize]⟩
  rw [step, malloc_first hroot (by rwa [hbrk]) (by rwa [hbrk]), Option.map_some, hbrk]
  simp only [if_pos hroot]
  rcases hinside with hnull | hinside
  · rw [hnull, Nat.mod_self, if_pos rfl, hlive]
    refine ⟨_, _, rfl, ⟨⟨?_, List.Pairwise.nil⟩, Or.inl ⟨rfl, hheader _, ?_⟩⟩, Or.inl ⟨rfl, hlive.symm⟩⟩
    · intro a ha
      cases ha
    · intro a ha
      cases ha
  · have hmod : (garbage.toNat + sizeofNode) % addressSpace = garbage.toNat + sizeofNode :=
      Nat.mod_eq_of_lt (by omega)
    have hr : garbage.toNat + sizeofNode ≠ 0 := by omega
    rw [hmod, if_neg hr]
    refine ⟨_, _, rfl, ?_, Or.inr ⟨hr, _, rfl⟩⟩
    refine hi.cons rfl (hheader _) (Or.inr hlive) rfl rfl hinside ?_
    intro a ha
    rw [hlive] at ha
    cases ha

private theorem malloc_inv (hi : Inv start s) (hstart : start ≠ 0)
    (hlt : start + sizeofNode + initSize < addressSpace) {sz garbage : UInt64} (hsafe : Safe s (.malloc sz garbage)) :
    ∃ r s', step s (.malloc sz garbage) = some (r, s') ∧ Inv start s' ∧ Hands s s' r (.malloc sz garbage) := by
  rcases hi.arena with ⟨hroot, hheader, hplaced⟩ | ⟨hroot, hbrk, hlive⟩
  · have hne : s.heap.root ≠ 0 := by rwa [hroot]
    rw [Safe, if_neg hne] at hsafe
    by_cases hspot : sz.toNat ≤ size s.heap.mem s.heap.root
    · rw [if_pos hspot] at hsafe
      exact step_malloc_later hi hlt hroot hne hheader hplaced hspot hsafe.1 hsafe.2
    · rw [if_neg hspot] at hsafe
      rw [step, malloc_null hne (fun h => hspot h.2) hsafe.1 hsafe.2, Option.map_some, if_pos rfl]
      exact ⟨_, _, rfl, hi.sublist rfl rfl id (List.Sublist.refl _), Or.inl ⟨rfl, rfl⟩⟩
  · rw [Safe, if_pos hroot, hbrk] at hsafe
    exact step_malloc_first hi hstart hlt hroot hbrk hlive hsafe

/-- `free` writes behind the size of the first record, and if it writes into the flag it sets it. -/
private theorem Header.free {h : Heap} (hh : Header h) {node : Nat} (hnode : node = 0 ∨ h.root ≤ node) :
    Header (free h node) := by
  unfold Buddy.free
  split
  · exact hh
  · next hne =>
    have hle : h.root ≤ node := hnode.resolve_left hne
    refine hh.congr rfl ?_ fun k h₁ h₂ => store_of_notMem (by omega)
    by_cases heq : node = h.root
    · rw [heq]
      exact setVacant_flag _ _
    · exact (store_of_notMem (by omega)).trans hh.flag

private theorem step_inv (hi : Inv start s) (hstart : start ≠ 0) (hlt : start + sizeofNode + initSize < addressSpace)
    {c : Call} (hvalid : Valid s c) (hsafe : Safe s c) :
    ∃ r s', step s c = some (r, s') ∧ Inv start s' ∧ Hands s s' r c := by
  cases c with
  | malloc sz garbage => exact malloc_inv hi hstart hlt hsafe
  | free node =>
    refine ⟨_, _, rfl, hi.sublist ?_ ?_ (fun hh => hh.free ?_) List.eraseP_sublist, trivial⟩
    · simp only [free]
      split <;> rfl
    · simp only [free]
      split <;> rfl
    · rcases hvalid with hzero | ⟨a, ha, rfl⟩
      · exact Or.inl hzero
      · exact Or.inr (hi.sound.inside a ha).1
  | write x v =>
    have hout : x < s.heap.root ∨ s.heap.root + sizeofNode ≤ x := by
      rw [Safe] at hsafe
      omega
    unfold sizeofNode at hout
    refine ⟨_, _, rfl, hi.sublist rfl rfl (fun hh => hh.congr rfl ?_ fun k h₁ h₂ => ?_) (List.Sublist.refl _), trivial⟩
    · exact (Function.update_of_ne (by omega) ..).trans hh.flag
    · exact Function.update_of_ne (by omega) ..

/-- A `malloc` that returns and leaves the allocations sound was safe. -/
theorem Inv.safe_of_sound (hi : Inv start s) (hstart : sizeofNode ≤ start)
    (hlt : start + sizeofNode + initSize < addressSpace) {sz garbage : UInt64} {r : Nat} {s' : Client}
    (hst : step s (.malloc sz garbage) = some (r, s')) (hs' : Sound s') : Safe s (.malloc sz garbage) := by
  have hpos : 0 < sizeofNode := by decide
  rw [step] at hst
  rcases hi.arena with ⟨hroot, hheader, hplaced⟩ | ⟨hroot, hbrk, -⟩
  · have hne : s.heap.root ≠ 0 := by omega
    rw [Safe, if_neg hne]
    by_cases hspot : sz.toNat ≤ size s.heap.mem s.heap.root
    · rw [if_pos hspot]
      have hmin := hheader.size_ge
      have hmax := hheader.size_le
      by_cases htwo : 2 ≤ sz.toNat
      · have hbehind : s.heap.root + sizeofNode < addressSpace := by omega
        obtain ⟨mem, hm, -⟩ := @malloc_later s.heap sz.toNat garbage.toNat hne hbehind hheader.vacant hspot htwo
          (by unfold initSize at hmax; omega)
        have hr : s.heap.root + sizeofNode ≠ 0 := by omega
        rw [hm, Option.map_some] at hst
        simp only [if_neg hr] at hst
        cases hst
        have hapart := (List.pairwise_cons.1 hs'.apart).1
        rw [hroot] at hapart ⊢
        exact ⟨htwo, fun b hb => (apart_iff_leavesRoom (hplaced b hb) htwo).1 (hapart b hb)⟩
      · have hcrash := @malloc_split_crashes s.heap sz.toNat garbage.toNat hne (by omega) hheader.vacant (by omega)
          (by omega)
        rw [hcrash] at hst
        cases hst
    · rw [if_neg hspot]
      by_cases hchild : left s.heap.mem s.heap.root = 0 ∨ right s.heap.mem s.heap.root = 0
      · rw [malloc_find_crashes hne (fun h => hspot h.2) hchild] at hst
        cases hst
      · exact not_or.1 hchild
  · rw [malloc_first hroot (by omega) (by rwa [hbrk]), Option.map_some] at hst
    simp only [if_pos hroot] at hst
    cases hst
    rw [Safe, if_pos hroot]
    have hgarbage := garbage.toNat_lt
    by_cases hr : (garbage.toNat + sizeofNode) % addressSpace = 0
    · unfold sizeofNode addressSpace at *
      exact Or.inl (by omega)
    · simp only [if_neg hr] at hs'
      have hinside := hs'.inside _ (List.mem_cons_self ..)
      dsimp only at hinside
      unfold sizeofNode addressSpace at *
      exact Or.inr (by omega)

/-- In every run of safe calls the live allocations lie in the arena and have no bytes in common, and every further
safe call returns: a `malloc` returns `NULL` or an allocation that keeps this so. -/
theorem live_disjoint {m : Memory} {start : Nat} {s : Client} (hstart : start ≠ 0)
    (hlt : start + sizeofNode + initSize < addressSpace)
    (hs : Reach step (fun s c => Valid s c ∧ Safe s c) (initial m start) s) :
    Sound s ∧ ∀ c, Valid s c → Safe s c → ∃ r s', step s c = some (r, s') ∧ Hands s s' r c ∧ Sound s' := by
  have hinv : Inv start s := by
    refine hs.invariant inv_initial ?_
    intro s c r s' hi hok hst
    obtain ⟨r₁, s₁, hs₁, hi', -⟩ := step_inv hi hstart hlt hok.1 hok.2
    rw [hs₁, Option.some.injEq, Prod.mk.injEq] at hst
    rw [← hst.2]
    exact hi'
  refine ⟨hinv.sound, fun c hvalid hsafe => ?_⟩
  obtain ⟨r, s', hst, hi', hands⟩ := step_inv hinv hstart hlt hvalid hsafe
  exact ⟨r, s', hst, hands, hi'.sound⟩

end Runs

/-! ### The first calls -/

/-- What an uninitialised `p` holds when the first `malloc` returns `NULL`. -/
def minusOne : UInt64 := 18446744073709551584

/-- The state after a first `malloc` that returned `NULL`. -/
def afterFirst : Client := ⟨⟨createNode (fun _ => 0) 4096 initSize, 4160, 4096⟩, []⟩

private theorem step_first : step (initial (fun _ => 0) 4096) (.malloc 8 minusOne) = some (0, afterFirst) := by
  have hm : malloc (initial (fun _ => 0) 4096).heap 8 minusOne.toNat true =
      some ((minusOne.toNat + sizeofNode) % addressSpace, afterFirst.heap) :=
    malloc_first rfl (by decide) (by decide)
  have hnull : (minusOne.toNat + sizeofNode) % addressSpace = 0 := by decide
  have hsz : (8 : UInt64).toNat = 8 := by decide
  rw [step, hsz, hm, hnull, Option.map_some, if_pos rfl]
  rfl

/-- The state after a first `malloc` of 8 bytes that found 4112 in `p`. -/
def firstInside : Client := ⟨⟨createNode (fun _ => 0) 4096 initSize, 4160, 4096⟩, [⟨4144, 8, some 4112⟩]⟩

private theorem step_firstInside : step (initial (fun _ => 0) 4096) (.malloc 8 4112) = some (4144, firstInside) := by
  have hm : malloc (initial (fun _ => 0) 4096).heap 8 (4112 : UInt64).toNat true =
      some (((4112 : UInt64).toNat + sizeofNode) % addressSpace, firstInside.heap) :=
    malloc_first rfl (by decide) (by decide)
  have hptr : ((4112 : UInt64).toNat + sizeofNode) % addressSpace = 4144 := by decide
  have hsz : (8 : UInt64).toNat = 8 := by decide
  rw [step, hsz, hm, hptr, Option.map_some]
  rfl

/-- Next to it there is room for 8 bytes behind the first record, and then none for 40. -/
theorem live_disjoint_two : ∃ s s', step firstInside (.malloc 8 0) = some (4128, s) ∧
    s.live = [⟨4128, 8, none⟩, ⟨4144, 8, some 4112⟩] ∧ Sound s ∧ step s (.malloc 40 0) = some (0, s') ∧
      s'.live = s.live ∧ Sound s' := by
  have hroot : (initial (fun _ => 0) 4096).heap.root = 0 := rfl
  have hfirst : Safe (initial (fun _ => 0) 4096) (.malloc 8 4112) := by
    rw [Safe, if_pos hroot]
    exact Or.inr (by decide)
  have hsecond : Safe firstInside (.malloc 8 0) := by
    rw [Safe, if_neg (by decide), if_pos (by decide)]
    exact ⟨by decide, List.forall_mem_singleton.2 ⟨4112, rfl, by decide⟩⟩
  have hlive : (step firstInside (.malloc 8 0)).map (fun x => (x.1, x.2.live)) =
      some (4128, [⟨4128, 8, none⟩, ⟨4144, 8, some 4112⟩]) := by decide +kernel
  have hrecord : (step firstInside (.malloc 8 0)).map (fun x => (x.2.heap.root, size x.2.heap.mem 4096,
      left x.2.heap.mem 4096, right x.2.heap.mem 4096)) = some (4096, 8, 4096, 4224) := by decide +kernel
  have hnull : ((step firstInside (.malloc 8 0)).bind fun x => (step x.2 (.malloc 40 0)).map Prod.fst) = some 0 := by
    decide +kernel
  obtain ⟨⟨r, s⟩, hs, hlive⟩ := Option.map_eq_some_iff.1 hlive
  rw [hs] at hrecord hnull
  obtain ⟨⟨r', s'⟩, hs', rfl⟩ := Option.map_eq_some_iff.1 hnull
  simp only [Option.map_some, Option.some.injEq, Prod.mk.injEq] at hlive hrecord
  obtain ⟨rfl, hlive⟩ := hlive
  obtain ⟨hroot', hsize, hleft, hright⟩ := hrecord
  have hthird : Safe s (.malloc 40 0) := by
    have hlarge : ¬(40 : UInt64).toNat ≤ size s.heap.mem s.heap.root := by
      rw [hroot', hsize]
      decide
    rw [Safe, if_neg (by rw [hroot']; decide), if_neg hlarge, hroot', hleft, hright]
    exact ⟨by decide, by decide⟩
  have hvalid : ∀ (s : Client) (sz garbage : UInt64), Valid s (.malloc sz garbage) := fun _ _ _ => trivial
  obtain ⟨hsound, hnext⟩ := live_disjoint (by decide) (by decide)
    ((Reach.refl.tail ⟨hvalid .., hfirst⟩ step_firstInside).tail ⟨hvalid .., hsecond⟩ hs)
  obtain ⟨r₁, s₁, hs₁, hands, hsound₁⟩ := hnext _ (hvalid s 40 0) hthird
  obtain ⟨rfl, rfl⟩ : r₁ = 0 ∧ s₁ = s' := by simpa using hs₁.symm.trans hs'
  refine ⟨s, s₁, hs, hlive, hsound, hs', ?_, hsound₁⟩
  rcases hands with ⟨-, hsame⟩ | ⟨hne, -⟩
  · exact hsame
  · exact absurd rfl hne

/-- The second and the third allocation of 8 bytes are the same bytes. -/
theorem not_live_disjoint : ¬∀ s, Reach step Valid (initial (fun _ => 0) 4096) s → Sound s := by
  intro h
  have hev : ((step afterFirst (.malloc 8 0)).bind fun x => (step x.2 (.malloc 8 0)).map fun y => y.2.live) =
      some [⟨4128, 8, none⟩, ⟨4128, 8, none⟩] := by decide +kernel
  obtain ⟨⟨r₂, s₂⟩, hs₂, hev⟩ := Option.bind_eq_some_iff.1 hev
  obtain ⟨⟨r₃, s₃⟩, hs₃, hlive⟩ := Option.map_eq_some_iff.1 hev
  have hvalid : ∀ (s : Client) (sz garbage : UInt64), Valid s (.malloc sz garbage) := fun _ _ _ => trivial
  have hsound := h s₃ (((Reach.refl.tail (hvalid ..) step_first).tail (hvalid ..) hs₂).tail (hvalid ..) hs₃)
  have hapart := hsound.apart
  rw [hlive, List.pairwise_pair] at hapart
  exact hapart 4128 (by decide) (by decide) (by decide)

end Edaf35.Project.Buddy
