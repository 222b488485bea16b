import Edaf35.Project.Heap

/-!
# The allocator of `buddy.c`

A node starts with a `node_t` of 32 bytes: `left` in bytes 0 to 7, `right` in bytes 8 to 15, `size` in bytes 16 to 23
and the `int` `vacant` in bytes 24 to 27.  `none` stands for an access through `NULL`.

`split` divides a node by making its own record the left child, with half the size, and a record further on the right
child, with a quarter of it.  So a division is never one into two buddies, and `split` does what it should exactly when
it divides nothing (`splitCorrect_iff`).
-/

namespace Edaf35.Project.Buddy

/-- `sizeof(node_t)`. -/
def sizeofNode : Nat := 32

/-- `INIT_SIZE`. -/
def initSize : Nat := 32

/-! ### The fields of a `node_t` -/

def left (m : Memory) (p : Nat) : Nat := load m p 8
def right (m : Memory) (p : Nat) : Nat := load m (p + 8) 8
def size (m : Memory) (p : Nat) : Nat := load m (p + 16) 8
def vacant (m : Memory) (p : Nat) : Nat := load m (p + 24) 4

def setLeft (m : Memory) (p v : Nat) : Memory := store m p 8 v
def setRight (m : Memory) (p v : Nat) : Memory := store m (p + 8) 8 v
def setSize (m : Memory) (p v : Nat) : Memory := store m (p + 16) 8 v
def setVacant (m : Memory) (p v : Nat) : Memory := store m (p + 24) 4 v

section Fields

variable {m : Memory} {p v : Nat}

@[simp] theorem left_setLeft : left (setLeft m p v) p = v % addressSpace := load_store_same

@[simp] theorem left_setRight : left (setRight m p v) p = left m p := load_store_disjoint (by omega)

@[simp] theorem left_setSize : left (setSize m p v) p = left m p := load_store_disjoint (by omega)

@[simp] theorem left_setVacant : left (setVacant m p v) p = left m p := load_store_disjoint (by omega)

@[simp] theorem right_setRight : right (setRight m p v) p = v % addressSpace := load_store_same

@[simp] theorem size_setLeft : size (setLeft m p v) p = size m p := load_store_disjoint (by omega)

@[simp] theorem size_setRight : size (setRight m p v) p = size m p := load_store_disjoint (by omega)

@[simp] theorem size_setVacant : size (setVacant m p v) p = size m p := load_store_disjoint (by omega)

@[simp] theorem size_setSize : size (setSize m p v) p = v % addressSpace := load_store_same

theorem size_lt (m : Memory) (p : Nat) : size m p < addressSpace := load_lt m (p + 16) 8

end Fields

/-! ### Records -/

/-- The two memories hold the same record at `p`. -/
abbrev SameRecord (m m' : Memory) (p : Nat) : Prop := SameBytes m m' p sizeofNode

section SameRecord

variable {m m' : Memory} {p : Nat}

private theorem SameRecord.left_eq (h : SameRecord m m' p) : left m' p = left m p := h.load_eq (o := 0) (by decide)

private theorem SameRecord.size_eq (h : SameRecord m m' p) : size m' p = size m p := h.load_eq (by decide)

end SameRecord

/-! ### `create_node` and `split` -/

/-- `create_node`, which returns its argument. -/
def createNode (m : Memory) (node sz : Nat) : Memory :=
  setSize (setVacant (setRight (setLeft m node 0) node 0) node 1) node sz

/-- The two assignments of `split`: `node->size` is read again after the first one has halved it, and `node + n` is
`n` records further on. -/
def divide (m : Memory) (node : Nat) : Memory :=
  let m := setLeft (createNode m node (size m node / 2)) node node
  let buddy := (node + sizeofNode * (size m node / 2)) % addressSpace
  setRight (createNode m buddy (size m node / 2)) node buddy

/-- A node that was divided: its record and size before, and the children and their sizes after. -/
structure Division where
  parent : Nat
  parentSize : Nat
  left : Nat
  leftSize : Nat
  right : Nat
  rightSize : Nat

def division (m : Memory) (node : Nat) : Division where
  parent := node
  parentSize := size m node
  left := left (divide m node) node
  leftSize := size (divide m node) (left (divide m node) node)
  right := right (divide m node) node
  rightSize := size (divide m node) (right (divide m node) node)

/-- `split`: the memory, the node that it returns, and the divisions in order. -/
def split : (fuel : Nat) → Memory → (node sz : Nat) → Option (Memory × Nat × List Division)
  | 0, _, _, _ => none
  | fuel + 1, m, node, sz =>
    if node = 0 then none
    else if size m node / 2 < sz then some (m, node, [])
    else (split fuel (divide m node) (left (divide m node) node) sz).map fun result =>
      (result.1, result.2.1, division m node :: result.2.2)

/-! ### What one division does -/

/-- The node that `split` makes the right child. -/
def buddy (m : Memory) (node : Nat) : Nat := (node + sizeofNode * (size m node / 2 / 2)) % addressSpace

section Divide

variable {m : Memory} {node p q sz : Nat}

@[simp] theorem left_createNode : left (createNode m p sz) p = 0 := by
  simp [createNode]

@[simp] theorem size_createNode (hsz : sz < addressSpace) : size (createNode m p sz) p = sz := by
  rw [createNode, size_setSize, Nat.mod_eq_of_lt hsz]

/-- `create_node` writes one record only. -/
private theorem sameRecord_createNode (h : p + sizeofNode ≤ q ∨ q + sizeofNode ≤ p) :
    SameRecord m (createNode m q sz) p := by
  intro k h₁ h₂
  unfold sizeofNode at h h₂
  rw [createNode, setSize, store_of_notMem (by omega), setVacant, store_of_notMem (by omega), setRight,
    store_of_notMem (by omega), setLeft, store_of_notMem (by omega)]

theorem divide_eq (m : Memory) (node : Nat) :
    divide m node = setRight (createNode (setLeft (createNode m node (size m node / 2)) node node) (buddy m node)
      (size m node / 2 / 2)) node (buddy m node) := by
  have hlt := size_lt m node
  have hsize : size (setLeft (createNode m node (size m node / 2)) node node) node = size m node / 2 := by
    rw [size_setLeft, size_createNode (by omega)]
  rw [divide, hsize, buddy]

/-- The right child is a whole number of records away. -/
private theorem buddy_apart (h : buddy m node ≠ node) :
    node + sizeofNode ≤ buddy m node ∨ buddy m node + sizeofNode ≤ node := by
  unfold buddy sizeofNode addressSpace at *
  omega

private theorem right_divide (m : Memory) (node : Nat) : right (divide m node) node = buddy m node := by
  rw [divide_eq, right_setRight, buddy, Nat.mod_mod]

/-- A right child that is the node itself wipes out the left child. -/
private theorem left_divide_of_eq (h : buddy m node = node) : left (divide m node) node = 0 := by
  rw [divide_eq, h, left_setRight, left_createNode]

/-- Otherwise the left child is the node itself. -/
private theorem left_divide_of_ne (hlt : node < addressSpace) (h : buddy m node ≠ node) :
    left (divide m node) node = node := by
  rw [divide_eq, left_setRight, (sameRecord_createNode (buddy_apart h)).left_eq, left_setLeft,
    Nat.mod_eq_of_lt hlt]

private theorem size_divide_of_ne (hlt : node < addressSpace) (h : buddy m node ≠ node) :
    size (divide m node) node = size m node / 2 := by
  have := size_lt m node
  rw [divide_eq, size_setRight, (sameRecord_createNode (buddy_apart h)).size_eq, size_setLeft,
    size_createNode (by omega)]

/-- The right child of a node of size at most 3 is the node itself. -/
private theorem buddy_of_lt (hlt : node < addressSpace) (h : size m node < 4) : buddy m node = node := by
  have hzero : size m node / 2 / 2 = 0 := by omega
  rw [buddy, hzero, Nat.mul_zero, Nat.add_zero, Nat.mod_eq_of_lt hlt]

/-- Below 2^61 the right child of a larger node is not the node itself. -/
private theorem buddy_ne (h : 4 ≤ size m node) (hmax : size m node < 2 ^ 61) : buddy m node ≠ node := by
  unfold buddy sizeofNode addressSpace
  omega

end Divide

/-! ### Runs of `split` -/

section Split

variable {m : Memory} {node sz : Nat}

private theorem split_of_lt {fuel : Nat} (hnode : node ≠ 0) (h : size m node / 2 < sz) :
    split (fuel + 1) m node sz = some (m, node, []) := by
  rw [split, if_neg hnode, if_pos h]

private theorem split_of_le {fuel : Nat} (hnode : node ≠ 0) (h : sz ≤ size m node / 2) :
    split (fuel + 1) m node sz = (split fuel (divide m node) (left (divide m node) node) sz).map fun result =>
      (result.1, result.2.1, division m node :: result.2.2) := by
  rw [split, if_neg hnode, if_neg (Nat.not_lt.2 h)]

private theorem split_null (fuel : Nat) : split fuel m 0 sz = none := by
  cases fuel with
  | zero => rfl
  | succ fuel => rw [split, if_pos rfl]

/-- For a request of at least 2 bytes `split` returns its argument, which it has made as small as the request allows.
The induction is on the number of bits of the size, of which each division drops one. -/
theorem split_returns {j : Nat} (hnode : node ≠ 0) (hlt : node < addressSpace) (hj : size m node < 2 ^ j)
    (hsz : size m node / 2 < sz ∨ 2 ≤ sz ∧ size m node < 2 ^ 61) (hle : sz ≤ size m node) :
    ∃ m' ds, split (j + 1) m node sz = some (m', node, ds) ∧ size m' node / 2 < sz ∧ sz ≤ size m' node ∧
      size m' node ≤ size m node := by
  induction j generalizing m with
  | zero =>
    have hsmall : size m node / 2 < sz := by omega
    exact ⟨m, [], split_of_lt hnode hsmall, hsmall, hle, Nat.le_refl _⟩
  | succ j ih =>
    by_cases hsmall : size m node / 2 < sz
    · exact ⟨m, [], split_of_lt hnode hsmall, hsmall, hle, Nat.le_refl _⟩
    · obtain ⟨htwo, hmax⟩ : 2 ≤ sz ∧ size m node < 2 ^ 61 := by omega
      have hne : buddy m node ≠ node := buddy_ne (by omega) hmax
      have hsize := size_divide_of_ne hlt hne
      obtain ⟨m', ds, hs, hlow, hhigh, hsmaller⟩ :=
        ih (m := divide m node) (by omega) (Or.inr ⟨htwo, by omega⟩) (by omega)
      refine ⟨m', division m node :: ds, ?_, hlow, hhigh, by omega⟩
      rw [split_of_le hnode (by omega), left_divide_of_ne hlt hne, hs]
      rfl

/-- For a request of 0 or 1 byte that makes it divide, `split` goes through `NULL` in the end. -/
theorem split_crashes {fuel : Nat} (hnode : node ≠ 0) (hlt : node < addressSpace) (hone : sz ≤ 1)
    (hle : sz ≤ size m node / 2) : split fuel m node sz = none := by
  induction fuel generalizing m with
  | zero => rfl
  | succ fuel ih =>
    rw [split_of_le hnode hle]
    by_cases hb : buddy m node = node
    · rw [left_divide_of_eq hb, split_null, Option.map_none]
    · have hfour : 4 ≤ size m node := by
        by_contra h
        exact hb (buddy_of_lt hlt (by omega))
      have hsize := size_divide_of_ne hlt hb
      rw [left_divide_of_ne hlt hb, ih (by omega), Option.map_none]

/-- More steps than the size has bits make no difference. -/
theorem split_fuel {j fuel : Nat} (hlt : node < addressSpace) (hj : size m node < 2 ^ j) (hfuel : j < fuel) :
    split fuel m node sz = split (j + 1) m node sz := by
  by_cases hnode : node = 0
  · rw [hnode, split_null, split_null]
  · induction j generalizing m fuel with
    | zero =>
      obtain ⟨fuel, rfl⟩ : ∃ f, fuel = f + 1 := ⟨fuel - 1, by omega⟩
      by_cases hsmall : size m node / 2 < sz
      · rw [split_of_lt hnode hsmall, split_of_lt hnode hsmall]
      · have hb : buddy m node = node := buddy_of_lt hlt (by omega)
        rw [split_of_le hnode (by omega), split_of_le hnode (by omega), left_divide_of_eq hb, split_null, split_null]
    | succ j ih =>
      obtain ⟨fuel, rfl⟩ : ∃ f, fuel = f + 1 := ⟨fuel - 1, by omega⟩
      by_cases hsmall : size m node / 2 < sz
      · rw [split_of_lt hnode hsmall, split_of_lt hnode hsmall]
      · rw [split_of_le hnode (by omega), split_of_le hnode (by omega)]
        by_cases hb : buddy m node = node
        · rw [left_divide_of_eq hb, split_null, split_null]
        · have hsize := size_divide_of_ne hlt hb
          rw [left_divide_of_ne hlt hb, ih (by omega) (by omega)]

end Split

/-! ### What `split` is for -/

/-- The children are two nodes apart from their parent's record, with half of its size, and lie in disjoint ranges
inside the parent's range.  The record of a child is taken to lie in its range, which asks for less of the children
than if it had to lie before it. -/
structure Division.Proper (d : Division) : Prop where
  left_ne_right : d.left ≠ d.right
  left_ne_parent : d.left ≠ d.parent
  right_ne_parent : d.right ≠ d.parent
  leftSize_eq : d.leftSize = d.parentSize / 2
  rightSize_eq : d.rightSize = d.parentSize / 2
  left_inside : d.parent ≤ d.left ∧ d.left + d.leftSize ≤ d.parent + sizeofNode + d.parentSize
  right_inside : d.parent ≤ d.right ∧ d.right + d.rightSize ≤ d.parent + sizeofNode + d.parentSize
  disjoint : d.left + d.leftSize ≤ d.right ∨ d.right + d.rightSize ≤ d.left

/-- A node of 64 bytes behind its record, divided in the middle. -/
example : Division.Proper ⟨4096, 64, 4128, 32, 4160, 32⟩ := by
  constructor <;> decide

/-- `split` returns, for a request of at least 1 a node as small as the request allows, and every division on the way
is a proper one. -/
def SplitCorrect (m : Memory) (node sz : Nat) : Prop :=
  ∃ fuel m' p ds, split fuel m node sz = some (m', p, ds) ∧
    (1 ≤ sz → size m' p / 2 < sz ∧ sz ≤ size m' p) ∧ ∀ d ∈ ds, d.Proper

/-- No division is a proper one: one of the children is the parent itself. -/
private theorem not_proper_division {m : Memory} {node : Nat} (hlt : node < addressSpace) :
    ¬(division m node).Proper := by
  intro h
  by_cases hb : buddy m node = node
  · exact h.right_ne_parent ((right_divide m node).trans hb)
  · exact h.left_ne_parent (left_divide_of_ne hlt hb)

/-- `split` has not divided when it does what it is for. -/
private theorem SplitCorrect.lt {m : Memory} {node sz : Nat} (h : SplitCorrect m node sz) (hnode : node ≠ 0)
    (hlt : node < addressSpace) : size m node / 2 < sz := by
  obtain ⟨fuel, m', p, ds, hs, -, hds⟩ := h
  by_contra hle
  cases fuel with
  | zero => cases hs
  | succ fuel =>
    rw [split_of_le hnode (Nat.not_lt.1 hle), Option.map_eq_some_iff] at hs
    obtain ⟨result, -, heq⟩ := hs
    cases heq
    exact not_proper_division hlt (hds _ (List.mem_cons_self ..))

/-- `split` does what it is for exactly when it divides nothing. -/
theorem splitCorrect_iff {m : Memory} {node sz : Nat} (hnode : node ≠ 0) (hlt : node < addressSpace)
    (hsz : sz ≤ size m node) : SplitCorrect m node sz ↔ size m node / 2 < sz := by
  constructor
  · intro h
    exact h.lt hnode hlt
  · intro h
    refine ⟨1, m, node, [], split_of_lt hnode h, fun _ => ⟨h, hsz⟩, ?_⟩
    intro d hd
    cases hd

/-- A vacant node of 32 bytes, alone in memory. -/
def oneNode : Memory := createNode (fun _ => 0) 4096 initSize

/-- A request of 17 bytes leaves the node as it is, and one of 2 bytes divides it. -/
theorem splitCorrect_iff_oneNode : SplitCorrect oneNode 4096 17 ∧ ¬SplitCorrect oneNode 4096 2 := by
  have hnode : 4096 ≠ 0 := by decide
  have hlt : 4096 < addressSpace := by decide
  refine ⟨(splitCorrect_iff hnode hlt (by decide)).2 (by decide), fun h => ?_⟩
  exact absurd ((splitCorrect_iff hnode hlt (by decide)).1 h) (by decide)

/-- A request of 2 bytes for a node of 32 bytes: the left child is the node itself. -/
theorem not_splitCorrect : ¬∀ (m : Memory) (node sz : Nat), node ≠ 0 → node < addressSpace → vacant m node ≠ 0 →
    sz ≤ size m node → SplitCorrect m node sz := by
  intro h
  have hsplit : SplitCorrect oneNode 4096 2 := h oneNode 4096 2 (by decide) (by decide) (by decide) (by decide)
  have hlt : size oneNode 4096 / 2 < 2 := hsplit.lt (by decide) (by decide)
  exact absurd hlt (by decide)

end Edaf35.Project.Buddy
