import Edaf35.Lib.Circular
import Edaf35.Lib.Run

/-!
# The circular list of `list.c`

The nodes of a list are in memory, one function of the addresses for each field.  A pointer is an address, with 0 for
`NULL`, and a read or write of a node that is not allocated gives `none`.  The address that `malloc` returns is part
of the call.  Every sequence of calls keeps the nodes of the list a ring (`ring_run`): the functions do to it what
they should, except that `length` counts in an `unsigned`.
-/

namespace Edaf35.Shell

variable {δ : Type}

/-- The nodes in memory. -/
structure Nodes (δ : Type) where
  allocated : Nat → Bool
  succ : Nat → Nat
  pred : Nat → Nat
  data : Nat → δ

namespace Nodes

def getSucc (h : Nodes δ) (p : Nat) : Option Nat := if h.allocated p then some (h.succ p) else none

def getPred (h : Nodes δ) (p : Nat) : Option Nat := if h.allocated p then some (h.pred p) else none

def getData (h : Nodes δ) (p : Nat) : Option δ := if h.allocated p then some (h.data p) else none

def setSucc (h : Nodes δ) (p q : Nat) : Option (Nodes δ) :=
  if h.allocated p then some { h with succ := Function.update h.succ p q } else none

def setPred (h : Nodes δ) (p q : Nat) : Option (Nodes δ) :=
  if h.allocated p then some { h with pred := Function.update h.pred p q } else none

def free (h : Nodes δ) (p : Nat) : Option (Nodes δ) :=
  if h.allocated p then some { h with allocated := Function.update h.allocated p false } else none

/-- `new_list`, with `p` the address from `malloc`. -/
def newList (h : Nodes δ) (p : Nat) (data : δ) : Nodes δ where
  allocated := Function.update h.allocated p true
  succ := Function.update h.succ p p
  pred := Function.update h.pred p p
  data := Function.update h.data p data

/-- `append`: the new value of `*list1` and the memory. -/
def append (h : Nodes δ) (list1 list2 : Nat) : Option (Nat × Nodes δ) :=
  if list1 = 0 then some (list2, h)
  else if list2 ≠ 0 then do
    let h ← h.setSucc (← h.getPred list1) list2
    let h ← h.setSucc (← h.getPred list2) list1
    let tmp ← h.getPred list1
    let h ← h.setPred list1 (← h.getPred list2)
    let h ← h.setPred list2 tmp
    return (list1, h)
  else some (list1, h)

/-- `insert_last`, which joins the lists as `append` does. -/
def insertLast (h : Nodes δ) (list1 p : Nat) (data : δ) : Option (Nat × Nodes δ) := append (h.newList p data) list1 p

/-- `insert_before`: `*list` only changes when it was `NULL`. -/
def insertBefore (h : Nodes δ) (list p : Nat) (data : δ) : Option (Nat × Nodes δ) :=
  if list = 0 then some (p, h.newList p data)
  else (append (h.newList p data) p list).map fun result => (list, result.2)

def insertAfter (h : Nodes δ) (list p : Nat) (data : δ) : Option (Nat × Nodes δ) :=
  if list = 0 then some (p, h.newList p data)
  else do
    let h := h.newList p data
    let q ← h.getSucc list
    let (_, h) ← append h q p
    return (list, h)

def deleteList (h : Nodes δ) (list : Nat) : Option (Nodes δ) := do
  let h ← h.setSucc (← h.getPred list) (← h.getSucc list)
  let h ← h.setPred (← h.getSucc list) (← h.getPred list)
  h.free list

/-- The loop of `length`. -/
def lengthLoop (h : Nodes δ) (list : Nat) : (fuel p : Nat) → UInt32 → Option UInt32
  | 0, _, _ => none
  | fuel + 1, p, n =>
    let n := n + 1
    match h.getSucc p with
    | none => none
    | some p => if p ≠ list then lengthLoop h list fuel p n else some n

def length (h : Nodes δ) (list fuel : Nat) : Option UInt32 :=
  if list = 0 then some 0 else lengthLoop h list fuel list 0

/-- `remove_first`: the datum, or `none` for `NULL`; the new value of `*list`, and the memory. -/
def removeFirst (h : Nodes δ) (list : Nat) : Option (Option δ × Nat × Nodes δ) :=
  if list = 0 then some (none, list, h)
  else do
    let p := list
    let data ← h.getData p
    let next ← h.getSucc p
    let list := if list = next then 0 else next
    let h ← h.deleteList p
    return (some data, list, h)

/-- The loop of `free_list`: the nodes that it frees, in order, and the memory. -/
def freeLoop (list : Nat) : (fuel : Nat) → Nodes δ → Option (List Nat × Nodes δ)
  | 0, _ => none
  | fuel + 1, h =>
    match h.getSucc list with
    | none => none
    | some next =>
      if list ≠ next then
        match h.deleteList next with
        | none => none
        | some h => (freeLoop list fuel h).map fun result => (next :: result.1, result.2)
      else some ([], h)

/-- `free_list`: the nodes that it frees, the new value of `*list`, and the memory. -/
def freeList (h : Nodes δ) (list fuel : Nat) : Option (List Nat × Nat × Nodes δ) :=
  if list ≠ 0 then do
    let (freed, h) ← freeLoop list fuel h
    let h ← h.deleteList list
    return (freed ++ [list], 0, h)
  else some ([], 0, h)

/-! ### Loops that end -/

private theorem lengthLoop_mono {h : Nodes δ} {list fuel fuel' p : Nat} {n r : UInt32} (hle : fuel ≤ fuel')
    (hr : h.lengthLoop list fuel p n = some r) : h.lengthLoop list fuel' p n = some r := by
  induction fuel generalizing p n fuel' with
  | zero => cases hr
  | succ fuel ih =>
    obtain ⟨k, rfl⟩ : ∃ k, fuel' = k + 1 := ⟨fuel' - 1, by omega⟩
    have hle' : fuel ≤ k := by omega
    simp only [lengthLoop] at hr ⊢
    cases hp : h.getSucc p with
    | none =>
      rw [hp] at hr
      cases hr
    | some q =>
      simp only [hp] at hr ⊢
      by_cases hq : q ≠ list
      · rw [if_pos hq] at hr ⊢
        exact ih hle' hr
      · rw [if_neg hq] at hr ⊢
        exact hr

private theorem freeLoop_mono {h : Nodes δ} {list fuel fuel' : Nat} {r : List Nat × Nodes δ} (hle : fuel ≤ fuel')
    (hr : freeLoop list fuel h = some r) : freeLoop list fuel' h = some r := by
  induction fuel generalizing h fuel' r with
  | zero => cases hr
  | succ fuel ih =>
    obtain ⟨k, rfl⟩ : ∃ k, fuel' = k + 1 := ⟨fuel' - 1, by omega⟩
    have hle' : fuel ≤ k := by omega
    simp only [freeLoop] at hr ⊢
    cases hn : h.getSucc list with
    | none =>
      rw [hn] at hr
      cases hr
    | some next =>
      simp only [hn] at hr ⊢
      by_cases hnext : list ≠ next
      · rw [if_pos hnext] at hr ⊢
        cases hd : h.deleteList next with
        | none =>
          rw [hd] at hr
          cases hr
        | some h' =>
          rw [hd] at hr
          obtain ⟨r', hr', rfl⟩ := Option.map_eq_some_iff.1 hr
          simp only [ih hle' hr', Option.map_some]
      · rw [if_neg hnext] at hr ⊢
        exact hr

/-! ### What the functions do to allocated nodes -/

section Allocated

variable {h : Nodes δ} {p q : Nat}

/-- `append` on two lists: four assignments. -/
private theorem append_eq (hp : p ≠ 0) (hq : q ≠ 0) (ap : h.allocated p) (aq : h.allocated q)
    (app : h.allocated (h.pred p)) (apq : h.allocated (h.pred q)) :
    h.append p q = some (p,
      { h with
        succ := Function.update (Function.update h.succ (h.pred p) q) (h.pred q) p
        pred := Function.update (Function.update h.pred p (h.pred q)) q (h.pred p) }) := by
  simp [append, hp, hq, getPred, setSucc, setPred, ap, aq, app, apq]

/-- `list->succ` is read again after the first assignment, which may be one to the same node. -/
private theorem deleteList_eq (ap : h.allocated p) (app : h.allocated (h.pred p)) (asp : h.allocated (h.succ p)) :
    h.deleteList p = some
      { h with
        succ := Function.update h.succ (h.pred p) (h.succ p)
        pred := Function.update h.pred (h.succ p) (h.pred p)
        allocated := Function.update h.allocated p false } := by
  have hread : Function.update h.succ (h.pred p) (h.succ p) p = h.succ p := by
    by_cases hself : p = h.pred p
    · rw [← hself, Function.update_self]
    · rw [Function.update_of_ne hself]
  simp [deleteList, getPred, getSucc, setSucc, setPred, free, ap, app, asp, hread]

end Allocated

end Nodes

/-! ### The list that a handle stands for -/

/-- The variable that the caller keeps, and the memory. -/
structure Handle (δ : Type) where
  list : Nat
  nodes : Nodes δ

/-- A handle that is `NULL`, with no node allocated. -/
def Handle.null (succ pred : Nat → Nat) (data : Nat → δ) : Handle δ := ⟨0, fun _ => false, succ, pred, data⟩

/-- The addresses of the nodes. -/
def addresses (xs : List (Nat × δ)) : List Nat := xs.map Prod.fst

@[simp] theorem addresses_nil : addresses ([] : List (Nat × δ)) = [] := rfl

@[simp] theorem length_addresses (xs : List (Nat × δ)) : (addresses xs).length = xs.length := List.length_map _

@[simp] theorem addresses_cons (x : Nat × δ) (xs : List (Nat × δ)) : addresses (x :: xs) = x.1 :: addresses xs := rfl

@[simp] theorem addresses_append (xs ys : List (Nat × δ)) : addresses (xs ++ ys) = addresses xs ++ addresses ys :=
  List.map_append

/-- The handle stands for the nodes `xs` with their data: they form a ring that is entered at the first one, and no
other node is allocated. -/
structure Stands (s : Handle δ) (xs : List (Nat × δ)) : Prop where
  ring : IsRing s.nodes.succ s.nodes.pred (addresses xs)
  list : s.list = (addresses xs).headD 0
  allocated : ∀ p, s.nodes.allocated p = true ↔ p ∈ addresses xs
  data : ∀ x ∈ xs, s.nodes.data x.1 = x.2
  nonzero : 0 ∉ addresses xs

/-- An address that `malloc` may return. -/
def Fresh (s : Handle δ) (p : Nat) : Prop := p ≠ 0 ∧ s.nodes.allocated p = false

section Stands

variable {s : Handle δ} {x : Nat × δ} {xs ys : List (Nat × δ)} {p : Nat} {d : δ}

theorem stands_null (succ pred : Nat → Nat) (data : Nat → δ) : Stands (Handle.null succ pred data) [] where
  ring := isRing_nil
  list := rfl
  allocated p := by simp [Handle.null, addresses]
  data x hx := absurd hx List.not_mem_nil
  nonzero := List.not_mem_nil

private theorem Stands.list_eq_zero_iff (h : Stands s xs) : s.list = 0 ↔ xs = [] := by
  cases xs with
  | nil => exact iff_of_true h.list rfl
  | cons x xs =>
    refine iff_of_false (fun h0 => h.nonzero ?_) (List.cons_ne_nil x xs)
    rw [← h0, h.list]
    simp

private theorem Stands.list_cons (h : Stands s (x :: xs)) : s.list = x.1 := h.list

private theorem Stands.fresh_notMem (h : Stands s xs) (hp : Fresh s p) : p ∉ addresses xs := by
  intro hm
  rw [← h.allocated, hp.2] at hm
  cases hm

/-- The same ring, entered elsewhere. -/
private theorem Stands.rotate (h : Stands s xs) (hr : xs.IsRotated ys) {list : Nat}
    (hl : list = (addresses ys).headD 0) : Stands ⟨list, s.nodes⟩ ys where
  ring := h.ring.rotated (hr.map Prod.fst)
  list := hl
  allocated p := by rw [h.allocated, addresses, addresses, (hr.map Prod.fst).mem_iff]
  data x hx := h.data x (hr.mem_iff.2 hx)
  nonzero h0 := h.nonzero ((hr.map Prod.fst).mem_iff.2 h0)

/-! ### Two lists -/

/-- The allocated nodes are those of two lists. -/
structure Two (nodes : Nodes δ) (xs ys : List (Nat × δ)) : Prop where
  left : IsRing nodes.succ nodes.pred (addresses xs)
  right : IsRing nodes.succ nodes.pred (addresses ys)
  disjoint : (addresses xs).Disjoint (addresses ys)
  allocated : ∀ p, nodes.allocated p = true ↔ p ∈ addresses xs ∨ p ∈ addresses ys
  data : ∀ x, x ∈ xs ∨ x ∈ ys → nodes.data x.1 = x.2
  nonzero : 0 ∉ addresses xs ∧ 0 ∉ addresses ys

variable {nodes : Nodes δ}

private theorem Two.symm (h : Two nodes xs ys) : Two nodes ys xs where
  left := h.right
  right := h.left
  disjoint := h.disjoint.symm
  allocated p := (h.allocated p).trans or_comm
  data x hx := h.data x hx.symm
  nonzero := h.nonzero.symm

/-- The first list may be entered anywhere. -/
private theorem Two.rotate {zs : List (Nat × δ)} (h : Two nodes xs ys) (hr : xs.IsRotated zs) : Two nodes zs ys := by
  have hmem : ∀ p, p ∈ addresses zs ↔ p ∈ addresses xs := fun p => (hr.map Prod.fst).mem_iff.symm
  constructor
  · exact h.left.rotated (hr.map Prod.fst)
  · exact h.right
  · intro p hp
    exact h.disjoint ((hmem p).1 hp)
  · intro p
    rw [hmem, h.allocated]
  · intro x hx
    exact h.data x (hx.imp hr.mem_iff.2 id)
  · exact ⟨fun h0 => h.nonzero.1 ((hmem 0).1 h0), h.nonzero.2⟩

/-- A list and a new node. -/
private theorem Stands.newList (h : Stands s xs) (hp : Fresh s p) : Two (s.nodes.newList p d) xs [(p, d)] := by
  have hnot := h.fresh_notMem hp
  have hne : ∀ q ∈ addresses xs, q ≠ p := by
    rintro q hq rfl
    exact hnot hq
  constructor
  · apply h.ring.congr
    · intro q hq
      exact Function.update_of_ne (hne q hq) _ _
    · intro q hq
      exact Function.update_of_ne (hne q hq) _ _
  · exact isRing_singleton.2 ⟨Function.update_self _ _ _, Function.update_self _ _ _⟩
  · intro q hq hq'
    exact hne q hq (List.mem_singleton.1 hq')
  · intro q
    rw [← h.allocated]
    by_cases he : q = p
    · simp [Nodes.newList, addresses, he]
    · simp [Nodes.newList, addresses, he]
  · intro x hx
    rcases hx with hx | hx
    · rw [← h.data x hx]
      exact Function.update_of_ne (hne _ (List.mem_map_of_mem hx)) _ _
    · rw [List.mem_singleton.1 hx]
      exact Function.update_self _ _ _
  · exact ⟨h.nonzero, fun h0 => hp.1 (List.mem_singleton.1 h0).symm⟩

/-- The first node of an empty list. -/
private theorem Two.single (h : Two nodes [] ys) : Stands ⟨(addresses ys).headD 0, nodes⟩ ys where
  ring := h.right
  list := rfl
  allocated p := by simp [h.allocated, addresses]
  data x hx := h.data x (Or.inr hx)
  nonzero := h.nonzero.2

/-- `append` makes one list of two. -/
private theorem Two.append (h : Two nodes xs ys) (hxs : xs ≠ []) (hys : ys ≠ []) :
    ∃ nodes', nodes.append ((addresses xs).headD 0) ((addresses ys).headD 0) = some ((addresses xs).headD 0, nodes') ∧
      Stands ⟨(addresses xs).headD 0, nodes'⟩ (xs ++ ys) := by
  obtain ⟨x, xs, rfl⟩ := List.exists_cons_of_ne_nil hxs
  obtain ⟨y, ys, rfl⟩ := List.exists_cons_of_ne_nil hys
  have hx : x.1 ∈ addresses (x :: xs) := by simp
  have hy : y.1 ∈ addresses (y :: ys) := by simp
  have hx0 : x.1 ≠ 0 := fun h0 => h.nonzero.1 (h0 ▸ hx)
  have hy0 : y.1 ≠ 0 := fun h0 => h.nonzero.2 (h0 ▸ hy)
  refine ⟨_, Nodes.append_eq hx0 hy0 ?_ ?_ ?_ ?_, ?_, rfl, ?_, ?_, ?_⟩
  · exact (h.allocated _).2 (Or.inl hx)
  · exact (h.allocated _).2 (Or.inr hy)
  · exact (h.allocated _).2 (Or.inl h.left.pred_mem)
  · exact (h.allocated _).2 (Or.inr h.right.pred_mem)
  · rw [addresses_append]
    exact h.left.splice h.right h.disjoint
  · intro p
    rw [addresses_append, List.mem_append]
    exact h.allocated p
  · intro z hz
    exact h.data z (List.mem_append.1 hz)
  · rw [addresses_append, List.mem_append]
    exact fun h0 => h0.elim h.nonzero.1 h.nonzero.2

/-! ### The functions on the list -/

theorem Stands.insertLast (h : Stands s xs) (hp : Fresh s p) :
    ∃ list nodes, s.nodes.insertLast s.list p d = some (list, nodes) ∧ Stands ⟨list, nodes⟩ (xs ++ [(p, d)]) := by
  have htwo := h.newList (d := d) hp
  cases xs with
  | nil =>
    refine ⟨p, _, ?_, htwo.single⟩
    simp [Nodes.insertLast, Nodes.append, h.list_eq_zero_iff.2 rfl]
  | cons x xs =>
    obtain ⟨nodes, happ, hs⟩ := htwo.append (List.cons_ne_nil x xs) (List.cons_ne_nil (p, d) [])
    rw [← h.list] at happ hs
    exact ⟨_, nodes, happ, hs⟩

/-- The new node is put before the first one, which stays the first one: it is the last one of the ring. -/
private theorem Stands.insertBefore (h : Stands s xs) (hp : Fresh s p) :
    ∃ list nodes, s.nodes.insertBefore s.list p d = some (list, nodes) ∧ Stands ⟨list, nodes⟩ (xs ++ [(p, d)]) := by
  have htwo := h.newList (d := d) hp
  cases xs with
  | nil =>
    refine ⟨p, _, ?_, htwo.single⟩
    simp [Nodes.insertBefore, h.list_eq_zero_iff.2 rfl]
  | cons x xs =>
    obtain ⟨nodes, happ, hs⟩ := htwo.symm.append (List.cons_ne_nil (p, d) []) (List.cons_ne_nil x xs)
    have hne : s.list ≠ 0 := fun h0 => List.cons_ne_nil x xs (h.list_eq_zero_iff.1 h0)
    refine ⟨s.list, nodes, ?_, hs.rotate ⟨1, by simp⟩ h.list⟩
    rw [← h.list] at happ
    rw [Nodes.insertBefore, if_neg hne]
    exact congrArg (Option.map _) happ

/-- The new node is put after the last one of the ring that is entered at the second node. -/
private theorem Stands.insertAfter (h : Stands s xs) (hp : Fresh s p) :
    ∃ list nodes, s.nodes.insertAfter s.list p d = some (list, nodes) ∧
      Stands ⟨list, nodes⟩ (xs.take 1 ++ (p, d) :: xs.drop 1) := by
  have htwo := h.newList (d := d) hp
  cases xs with
  | nil =>
    refine ⟨p, _, ?_, htwo.single⟩
    simp [Nodes.insertAfter, h.list_eq_zero_iff.2 rfl]
  | cons x xs =>
    have hne : s.list ≠ 0 := fun h0 => List.cons_ne_nil x xs (h.list_eq_zero_iff.1 h0)
    have hfirst : (s.nodes.newList p d).allocated s.list = true := (htwo.allocated _).2 (Or.inl (by simp [h.list]))
    have hsecond : (s.nodes.newList p d).succ s.list = (addresses (xs ++ [x])).headD 0 := by
      rw [h.list_cons, htwo.left.succ_head]
      cases xs <;> rfl
    have htwo' : Two (s.nodes.newList p d) (xs ++ [x]) [(p, d)] := htwo.rotate ⟨1, by simp⟩
    obtain ⟨nodes, happ, hs⟩ := htwo'.append (by simp) (List.cons_ne_nil (p, d) [])
    refine ⟨s.list, nodes, ?_, hs.rotate ⟨xs.length, by simp⟩ h.list⟩
    rw [← hsecond] at happ
    have hcall : (s.nodes.newList p d).append ((s.nodes.newList p d).succ s.list) p = some (_, nodes) := happ
    simp [Nodes.insertAfter, hne, Nodes.getSucc, hfirst, hcall]

/-- The first node is taken out of the ring and freed. -/
private theorem Stands.deleteFirst (h : Stands s (x :: xs)) :
    ∃ nodes, s.nodes.deleteList x.1 = some nodes ∧ Stands ⟨(addresses xs).headD 0, nodes⟩ xs ∧
      s.nodes.succ x.1 = (addresses xs).headD x.1 := by
  have hsucc : s.nodes.succ x.1 = (addresses xs).headD x.1 := h.ring.succ_head
  have hmem : s.nodes.succ x.1 ∈ addresses (x :: xs) := by
    rw [hsucc]
    cases xs <;> simp
  have hnd : x.1 ∉ addresses xs ∧ (addresses xs).Nodup := List.nodup_cons.1 h.ring.nodup
  refine ⟨_, Nodes.deleteList_eq ?_ ?_ ?_, ⟨?_, rfl, ?_, ?_, ?_⟩, hsucc⟩
  · exact (h.allocated _).2 (by simp)
  · exact (h.allocated _).2 h.ring.pred_mem
  · exact (h.allocated _).2 hmem
  · cases xs with
    | nil => exact isRing_nil
    | cons y xs => exact h.ring.remove
  · intro p
    by_cases he : p = x.1
    · subst he
      simp [hnd.1]
    · have hp := h.allocated p
      simp only [addresses_cons, List.mem_cons, he, false_or] at hp
      simpa [Function.update_of_ne he] using hp
  · intro y hy
    exact h.data y (List.mem_cons_of_mem x hy)
  · intro h0
    exact h.nonzero (List.mem_cons_of_mem _ h0)

/-- The first datum is removed and returned. -/
private theorem Stands.removeFirst (h : Stands s (x :: xs)) :
    ∃ list nodes, s.nodes.removeFirst s.list = some (some x.2, list, nodes) ∧ Stands ⟨list, nodes⟩ xs := by
  obtain ⟨nodes, hdel, hs, hsucc⟩ := h.deleteFirst
  have hne : s.list ≠ 0 := fun h0 => List.cons_ne_nil x xs (h.list_eq_zero_iff.1 h0)
  have hfirst : s.nodes.allocated x.1 = true := (h.allocated _).2 (by simp)
  have hdata : s.nodes.data x.1 = x.2 := h.data x (by simp)
  have hnext : (if x.1 = s.nodes.succ x.1 then 0 else s.nodes.succ x.1) = (addresses xs).headD 0 := by
    have hnd := h.ring.nodup
    rw [hsucc]
    cases xs with
    | nil => simp
    | cons y xs =>
      have hxy : x.1 ≠ y.1 := fun he => (List.nodup_cons.1 hnd).1 (by rw [he]; exact List.mem_cons_self)
      simp [hxy]
  rw [← hnext] at hs
  refine ⟨_, nodes, ?_, hs⟩
  rw [h.list_cons] at hne ⊢
  simp [Nodes.removeFirst, hne, Nodes.getData, Nodes.getSucc, hfirst, hdata, hdel]

private theorem Stands.removeFirst_nil (h : Stands s []) :
    s.nodes.removeFirst s.list = some (none, s.list, s.nodes) := by
  simp [Nodes.removeFirst, h.list_eq_zero_iff.2 rfl]

/-- The nodes that are reached from the first one. -/
private theorem Stands.iterate_mem (h : Stands s (x :: xs)) {i : Nat} (hi : i < xs.length + 1) :
    s.nodes.succ^[i] x.1 ∈ addresses (x :: xs) := by
  have hi' : i < (x.1 :: addresses xs).length := by simpa using hi
  rw [IsRing.iterate h.ring hi']
  exact List.getElem_mem hi'

private theorem Stands.iterate_ne (h : Stands s (x :: xs)) {i : Nat} (hi : i < xs.length) :
    s.nodes.succ^[i + 1] x.1 ≠ x.1 := by
  have hi' : i + 1 < (x.1 :: addresses xs).length := by simpa using hi
  intro he
  have hnext : (x.1 :: addresses xs)[i + 1] = x.1 := (IsRing.iterate h.ring hi').symm.trans he
  rw [List.getElem_cons_succ] at hnext
  exact (List.nodup_cons.1 h.ring.nodup).1 (hnext ▸ List.getElem_mem _)

private theorem Stands.iterate_length (h : Stands s (x :: xs)) : s.nodes.succ^[xs.length + 1] x.1 = x.1 := by
  have hlen : xs.length + 1 = (x.1 :: addresses xs).length := by simp
  rw [hlen]
  exact IsRing.iterate_length h.ring

/-- The nodes in order, by going on from the handle. -/
theorem Stands.iterate_eq (h : Stands s xs) {i : Nat} (hi : i < xs.length) : s.nodes.succ^[i] s.list = xs[i].1 := by
  cases xs with
  | nil => cases hi
  | cons x xs =>
    have hi' : i < (x.1 :: addresses xs).length := by simpa using hi
    rw [h.list_cons, IsRing.iterate h.ring hi']
    simp [← List.map_cons]

/-- From the handle on, one is back at it after all nodes, and not before. -/
theorem Stands.back (h : Stands s xs) : s.nodes.succ^[xs.length] s.list = s.list := by
  cases xs with
  | nil => rfl
  | cons x xs =>
    rw [h.list_cons]
    exact h.iterate_length

theorem Stands.not_back (h : Stands s xs) {i : Nat} (hpos : 0 < i) (hi : i < xs.length) :
    s.nodes.succ^[i] s.list ≠ s.list := by
  cases xs with
  | nil => cases hi
  | cons x xs =>
    obtain ⟨k, rfl⟩ : ∃ k, i = k + 1 := ⟨i - 1, by omega⟩
    rw [h.list_cons]
    exact h.iterate_ne (by simpa using hi)

/-- The loop of `length` with `k` nodes ahead: it ends after `k` iterations, back at the first node. -/
private theorem Stands.lengthLoop (h : Stands s (x :: xs)) {k : Nat} (hk : 0 < k) :
    ∀ fuel i n, i + k = xs.length + 1 → s.nodes.lengthLoop x.1 fuel (s.nodes.succ^[i] x.1) n =
      if k ≤ fuel then some (n + UInt32.ofNat k) else none := by
  induction k, hk using Nat.le_induction with
  | base =>
    intro fuel i n hi
    have hmem := (h.allocated _).2 (h.iterate_mem (i := i) (by omega))
    have hback : s.nodes.succ (s.nodes.succ^[i] x.1) = x.1 := by
      rw [← Function.iterate_succ_apply' s.nodes.succ, Nat.succ_eq_add_one, hi]
      exact h.iterate_length
    cases fuel with
    | zero => rfl
    | succ fuel => simp [Nodes.lengthLoop, Nodes.getSucc, hmem, hback]
  | succ k hk ih =>
    intro fuel i n hi
    have hmem := (h.allocated _).2 (h.iterate_mem (i := i) (by omega))
    have hne := h.iterate_ne (i := i) (by omega)
    rw [Function.iterate_succ_apply'] at hne
    cases fuel with
    | zero => rfl
    | succ fuel =>
      have hrest := ih fuel (i + 1) (n + 1) (by omega)
      rw [Function.iterate_succ_apply'] at hrest
      have hsum : n + 1 + UInt32.ofNat k = n + UInt32.ofNat (k + 1) := by
        rw [UInt32.ofNat_add, UInt32.add_assoc, UInt32.add_comm 1]
        rfl
      simp only [Nodes.lengthLoop, Nodes.getSucc, hmem, if_true, if_pos hne, hrest, hsum, Nat.add_le_add_iff_right]

/-- `length` ends after as many iterations as the list has nodes. -/
theorem Stands.length (h : Stands s xs) {fuel : Nat} (hfuel : xs.length ≤ fuel) :
    s.nodes.length s.list fuel = some (UInt32.ofNat xs.length) := by
  cases xs with
  | nil => simp [Nodes.length, h.list_eq_zero_iff.2 rfl]
  | cons x xs =>
    have hne : s.list ≠ 0 := fun h0 => List.cons_ne_nil x xs (h.list_eq_zero_iff.1 h0)
    rw [Nodes.length, if_neg hne, h.list_cons]
    have hloop := h.lengthLoop (Nat.succ_pos xs.length) fuel 0 0 (Nat.zero_add _)
    rw [if_pos (show xs.length + 1 ≤ fuel from hfuel), UInt32.zero_add] at hloop
    exact hloop

/-- The loop of `free_list` takes out the second node until there is none. -/
private theorem Stands.freeLoop (h : Stands s (x :: xs)) {fuel : Nat} (hfuel : xs.length < fuel) :
    ∃ nodes, Nodes.freeLoop x.1 fuel s.nodes = some (addresses xs, nodes) ∧ Stands ⟨x.1, nodes⟩ [x] := by
  induction xs generalizing s fuel with
  | nil =>
    obtain ⟨fuel, rfl⟩ : ∃ k, fuel = k + 1 := ⟨fuel - 1, by omega⟩
    have hfirst : s.nodes.allocated x.1 = true := (h.allocated _).2 (by simp)
    have hself : s.nodes.succ x.1 = x.1 := (isRing_singleton.1 h.ring).1
    refine ⟨s.nodes, ?_, h.rotate (List.IsRotated.refl [x]) rfl⟩
    simp [Nodes.freeLoop, Nodes.getSucc, hfirst, hself]
  | cons y xs ih =>
    obtain ⟨fuel, rfl⟩ : ∃ k, fuel = k + 1 := ⟨fuel - 1, by omega⟩
    have hfirst : s.nodes.allocated x.1 = true := (h.allocated _).2 (by simp)
    have hnext : s.nodes.succ x.1 = y.1 := h.ring.succ_head
    have hxy : x.1 ≠ y.1 := fun he => (List.nodup_cons.1 h.ring.nodup).1 (by rw [he]; exact List.mem_cons_self)
    -- the second node is the first one of the ring entered there
    have hsecond : Stands ⟨y.1, s.nodes⟩ (y :: (xs ++ [x])) := h.rotate ⟨1, by simp⟩ rfl
    obtain ⟨nodes, hdel, hs, -⟩ := hsecond.deleteFirst
    obtain ⟨nodes', hloop, hs'⟩ := ih (hs.rotate ⟨xs.length, by simp⟩ rfl) (by simpa using hfuel)
    refine ⟨nodes', ?_, hs'⟩
    have hdel' : s.nodes.deleteList y.1 = some nodes := hdel
    have hloop' : Nodes.freeLoop x.1 fuel nodes = some (addresses xs, nodes') := hloop
    simp [Nodes.freeLoop, Nodes.getSucc, hfirst, hnext, hxy, hdel', hloop']

/-- `free_list` frees the second node and those after it in order, and then the first one. -/
private theorem Stands.freeList (h : Stands s xs) {fuel : Nat} (hfuel : xs.length ≤ fuel) :
    ∃ nodes, s.nodes.freeList s.list fuel = some (addresses (xs.drop 1 ++ xs.take 1), 0, nodes) ∧
      Stands ⟨0, nodes⟩ [] := by
  cases xs with
  | nil =>
    have h0 := h.list_eq_zero_iff.2 rfl
    exact ⟨s.nodes, by simp [Nodes.freeList, h0], h.rotate (List.IsRotated.refl []) rfl⟩
  | cons x xs =>
    have hne : s.list ≠ 0 := fun h0 => List.cons_ne_nil x xs (h.list_eq_zero_iff.1 h0)
    obtain ⟨nodes, hloop, hs⟩ := h.freeLoop hfuel
    obtain ⟨nodes', hdel, hs', -⟩ := hs.deleteFirst
    have hdel' : nodes.deleteList x.1 = some nodes' := hdel
    refine ⟨nodes', ?_, hs'⟩
    rw [h.list_cons] at hne ⊢
    simp [Nodes.freeList, hne, hloop, hdel']

end Stands

/-! ### Every sequence of calls -/

/-- A call on the list; the address that `malloc` returns is part of it. -/
inductive ListCall (δ : Type)
  | insertLast (p : Nat) (data : δ)
  | insertBefore (p : Nat) (data : δ)
  | insertAfter (p : Nat) (data : δ)
  | removeFirst
  | length
  | freeList

/-- What a call returns: nothing, a datum or `NULL`, a number; for `free_list`, the nodes that were freed. -/
inductive ListAnswer (δ : Type)
  | done
  | datum (d : Option δ)
  | number (n : UInt32)
  | freed (ps : List Nat)
  deriving DecidableEq

/-- A call, with a bound on the iterations of its loop; `none` when it fails or goes on for longer. -/
def Handle.step (s : Handle δ) : ListCall δ × Nat → Option (ListAnswer δ × Handle δ)
  | (.insertLast p d, _) => (s.nodes.insertLast s.list p d).map fun r => (.done, ⟨r.1, r.2⟩)
  | (.insertBefore p d, _) => (s.nodes.insertBefore s.list p d).map fun r => (.done, ⟨r.1, r.2⟩)
  | (.insertAfter p d, _) => (s.nodes.insertAfter s.list p d).map fun r => (.done, ⟨r.1, r.2⟩)
  | (.removeFirst, _) => (s.nodes.removeFirst s.list).map fun r => (.datum r.1, ⟨r.2.1, r.2.2⟩)
  | (.length, fuel) => (s.nodes.length s.list fuel).map fun n => (.number n, s)
  | (.freeList, fuel) => (s.nodes.freeList s.list fuel).map fun r => (.freed r.1, ⟨r.2.1, r.2.2⟩)

/-- `malloc` returns an address that is not in use. -/
def Handle.Allowed (s : Handle δ) : ListCall δ × Nat → Prop
  | (.insertLast p _, _) => Fresh s p
  | (.insertBefore p _, _) => Fresh s p
  | (.insertAfter p _, _) => Fresh s p
  | (_, _) => True

/-- What a call should do to the list of nodes. -/
def ListCall.after (xs : List (Nat × δ)) : ListCall δ → List (Nat × δ)
  | .insertLast p d => xs ++ [(p, d)]
  | .insertBefore p d => xs ++ [(p, d)]
  | .insertAfter p d => xs.take 1 ++ (p, d) :: xs.drop 1
  | .removeFirst => xs.drop 1
  | .length => xs
  | .freeList => []

/-- What a call should return: `length` the number of nodes as an `unsigned`, and `free_list` frees every node. -/
def ListCall.Answers (xs : List (Nat × δ)) : ListCall δ → ListAnswer δ → Prop
  | .removeFirst, answer => answer = .datum (xs.head?.map Prod.snd)
  | .length, answer => answer = .number (UInt32.ofNat xs.length)
  | .freeList, answer => ∃ ps, answer = .freed ps ∧ ps.Perm (addresses xs)
  | _, answer => answer = .done

/-- A call on a list does to it what it should. -/
private theorem Stands.step {s : Handle δ} {xs : List (Nat × δ)} (h : Stands s xs) {call : ListCall δ} {fuel : Nat}
    (hok : s.Allowed (call, fuel)) (hfuel : xs.length ≤ fuel) :
    ∃ answer s', s.step (call, fuel) = some (answer, s') ∧ call.Answers xs answer ∧ Stands s' (call.after xs) := by
  cases call with
  | insertLast p d =>
    obtain ⟨list, nodes, hcall, hs⟩ := h.insertLast (d := d) hok
    exact ⟨.done, ⟨list, nodes⟩, by rw [Handle.step, hcall]; rfl, rfl, hs⟩
  | insertBefore p d =>
    obtain ⟨list, nodes, hcall, hs⟩ := h.insertBefore (d := d) hok
    exact ⟨.done, ⟨list, nodes⟩, by rw [Handle.step, hcall]; rfl, rfl, hs⟩
  | insertAfter p d =>
    obtain ⟨list, nodes, hcall, hs⟩ := h.insertAfter (d := d) hok
    exact ⟨.done, ⟨list, nodes⟩, by rw [Handle.step, hcall]; rfl, rfl, hs⟩
  | removeFirst =>
    cases xs with
    | nil => exact ⟨.datum none, s, by rw [Handle.step, h.removeFirst_nil]; rfl, rfl, h⟩
    | cons x xs =>
      obtain ⟨list, nodes, hcall, hs⟩ := h.removeFirst
      exact ⟨.datum (some x.2), ⟨list, nodes⟩, by rw [Handle.step, hcall]; rfl, rfl, hs⟩
  | length => exact ⟨_, s, by rw [Handle.step, h.length hfuel]; rfl, rfl, h⟩
  | freeList =>
    obtain ⟨nodes, hcall, hs⟩ := h.freeList hfuel
    refine ⟨.freed _, ⟨0, nodes⟩, by rw [Handle.step, hcall]; rfl, ⟨_, rfl, ?_⟩, hs⟩
    have hparts : (xs.drop 1 ++ xs.take 1).Perm (xs.take 1 ++ xs.drop 1) := List.perm_append_comm
    rw [List.take_append_drop] at hparts
    exact hparts.map Prod.fst

/-- A loop that ends does so with any larger bound. -/
private theorem Handle.step_mono {s : Handle δ} {call : ListCall δ} {fuel fuel' : Nat} {r : ListAnswer δ × Handle δ}
    (hle : fuel ≤ fuel') (hr : s.step (call, fuel) = some r) : s.step (call, fuel') = some r := by
  cases call with
  | length =>
    simp only [Handle.step, Nodes.length] at hr ⊢
    by_cases hlist : s.list = 0
    · rw [if_pos hlist] at hr ⊢
      exact hr
    · rw [if_neg hlist] at hr ⊢
      obtain ⟨n, hn, rfl⟩ := Option.map_eq_some_iff.1 hr
      rw [Nodes.lengthLoop_mono hle hn, Option.map_some]
  | freeList =>
    simp only [Handle.step, Nodes.freeList] at hr ⊢
    by_cases hlist : s.list ≠ 0
    · rw [if_pos hlist] at hr ⊢
      cases hl : Nodes.freeLoop s.list fuel s.nodes with
      | none =>
        rw [hl] at hr
        cases hr
      | some r' =>
        rw [Nodes.freeLoop_mono hle hl]
        rw [hl] at hr
        exact hr
    · rw [if_neg hlist] at hr ⊢
      exact hr
  | _ => exact hr

/-- The bound on the loop does not decide whether a call is allowed. -/
private theorem Handle.allowed_fuel {s : Handle δ} {call : ListCall δ} {fuel : Nat} (fuel' : Nat)
    (h : s.Allowed (call, fuel)) : s.Allowed (call, fuel') := by
  cases call <;> exact h

private theorem Stands.reach {succ pred : Nat → Nat} {data : Nat → δ} {s : Handle δ}
    (h : Reach Handle.step Handle.Allowed (Handle.null succ pred data) s) : ∃ xs, Stands s xs := by
  apply h.invariant (I := fun s => ∃ xs, Stands s xs)
  · exact ⟨[], stands_null succ pred data⟩
  · intro s call answer s' hs hok hstep
    obtain ⟨xs, hs⟩ := hs
    obtain ⟨call, fuel⟩ := call
    obtain ⟨_, _, hstep', -, hs'⟩ := hs.step (Handle.allowed_fuel _ hok) (Nat.le_max_right fuel xs.length)
    have hmono := Handle.step_mono (Nat.le_max_left fuel xs.length) hstep
    cases hmono.symm.trans hstep'
    exact ⟨_, hs'⟩

/-- In every state that a sequence of calls leads to, from a handle that is `NULL`, with `malloc` returning addresses
that are not in use: the nodes that are reached from the handle along `succ` are a ring, back at the first after the
last, `pred` is the inverse of `succ` on them, and no other node is allocated.  Every further call returns, and it does
to the list and answers what it should. -/
theorem ring_run {succ pred : Nat → Nat} {data : Nat → δ} {s : Handle δ}
    (h : Reach Handle.step Handle.Allowed (Handle.null succ pred data) s) :
    ∃ xs, Stands s xs ∧
      (∀ (i : Nat) x, xs[i]? = some x → s.nodes.succ^[i] s.list = x.1 ∧ s.nodes.data x.1 = x.2) ∧
      s.nodes.succ^[xs.length] s.list = s.list ∧
      (∀ p ∈ addresses xs, s.nodes.pred (s.nodes.succ p) = p ∧ s.nodes.succ (s.nodes.pred p) = p) ∧
      ∀ call fuel, s.Allowed (call, fuel) → xs.length ≤ fuel → ∃ answer s', s.step (call, fuel) = some (answer, s') ∧
        call.Answers xs answer ∧ Stands s' (call.after xs) := by
  obtain ⟨xs, hs⟩ := Stands.reach h
  refine ⟨xs, hs, ?_, hs.back, fun p hp => hs.ring.inverse hp, fun call fuel hok hfuel => hs.step hok hfuel⟩
  intro i x hx
  obtain ⟨hi, rfl⟩ := List.getElem?_eq_some_iff.1 hx
  exact ⟨hs.iterate_eq hi, hs.data _ (List.getElem_mem hi)⟩

/-- An empty list of data that do not matter. -/
def emptyHandle : Handle Unit := Handle.null id id fun _ => ()

/-- After three calls of `insert_last` and one of `remove_first`, which frees the node at 1. -/
theorem ring_run_three : ∃ s xs, Reach Handle.step Handle.Allowed emptyHandle s ∧ Stands s xs ∧ s.list = 2 ∧
    s.nodes.allocated 1 = false ∧ s.nodes.succ 2 = 3 ∧ s.nodes.succ 3 = 2 ∧ s.nodes.pred (s.nodes.succ 2) = 2 := by
  have hfresh : ((emptyHandle.step (.insertLast 1 (), 0)).bind fun x => (x.2.step (.insertLast 2 (), 0)).map fun y =>
      (x.2.nodes.allocated 2, y.2.nodes.allocated 3)) = some (false, false) := by decide
  have hrun : ((emptyHandle.step (.insertLast 1 (), 0)).bind fun x => (x.2.step (.insertLast 2 (), 0)).bind fun y =>
      (y.2.step (.insertLast 3 (), 0)).bind fun z => (z.2.step (.removeFirst, 0)).map fun w =>
        (w.2.list, w.2.nodes.allocated 1, w.2.nodes.succ 2, w.2.nodes.succ 3)) = some (2, false, 3, 2) := by decide
  obtain ⟨⟨a₁, s₁⟩, h₁, hrun⟩ := Option.bind_eq_some_iff.1 hrun
  obtain ⟨⟨a₂, s₂⟩, h₂, hrun⟩ := Option.bind_eq_some_iff.1 hrun
  obtain ⟨⟨a₃, s₃⟩, h₃, hrun⟩ := Option.bind_eq_some_iff.1 hrun
  obtain ⟨⟨a₄, s₄⟩, h₄, hrun⟩ := Option.map_eq_some_iff.1 hrun
  simp only [Prod.mk.injEq] at hrun
  obtain ⟨hlist, hfreed, htwo, hthree⟩ := hrun
  simp only [h₁, h₂, Option.bind_some, Option.map_some, Option.some.injEq, Prod.mk.injEq] at hfresh
  have hfirst : emptyHandle.Allowed (.insertLast 1 (), 0) := ⟨by decide, rfl⟩
  have hsecond : s₁.Allowed (.insertLast 2 (), 0) := ⟨by decide, hfresh.1⟩
  have hthird : s₂.Allowed (.insertLast 3 (), 0) := ⟨by decide, hfresh.2⟩
  have hremove : s₃.Allowed (.removeFirst, 0) := trivial
  have hreach : Reach Handle.step Handle.Allowed emptyHandle s₄ :=
    (((Reach.refl.tail hfirst h₁).tail hsecond h₂).tail hthird h₃).tail hremove h₄
  obtain ⟨xs, hs, hplace, -, hinverse, -⟩ := ring_run hreach
  have hmem : 2 ∈ addresses xs := by
    cases xs with
    | nil =>
      have hnull : s₄.list = 0 := hs.list
      rw [hnull] at hlist
      cases hlist
    | cons x xs =>
      have hx : s₄.list = x.1 := (hplace 0 x rfl).1
      rw [← hlist, hx]
      exact List.mem_cons_self
  exact ⟨s₄, xs, hreach, hs, hlist, hfreed, htwo, hthree, (hinverse 2 hmem).1⟩

/-! ### A list that is too long for `length` -/

/-- `n` calls of `insert_last`. -/
def insertMany (n : Nat) : List (ListCall Unit × Nat) := (List.range n).map fun i => (.insertLast (i + 1) (), 0)

/-- The nodes that they make. -/
def manyNodes (n : Nat) : List (Nat × Unit) := (List.range n).map fun i => (i + 1, ())

private theorem insertMany_run (n : Nat) : ∃ bs s, run Handle.step emptyHandle (insertMany n) = some (bs, s) ∧
    Reach Handle.step Handle.Allowed emptyHandle s ∧ Stands s (manyNodes n) := by
  induction n with
  | zero => exact ⟨[], emptyHandle, rfl, Reach.refl, stands_null id id _⟩
  | succ n ih =>
    obtain ⟨bs, s, hrun, hreach, hs⟩ := ih
    have hfresh : Fresh s (n + 1) := by
      refine ⟨Nat.succ_ne_zero n, ?_⟩
      rw [← Bool.not_eq_true, hs.allocated]
      simp [manyNodes, addresses]
    have hok : s.Allowed (.insertLast (n + 1) (), 0) := hfresh
    obtain ⟨list, nodes, hcall, hs'⟩ := hs.insertLast (d := ()) hfresh
    have hstep : s.step (.insertLast (n + 1) (), 0) = some (.done, ⟨list, nodes⟩) := by
      rw [Handle.step, hcall]
      rfl
    have hcalls : insertMany (n + 1) = insertMany n ++ [(.insertLast (n + 1) (), 0)] := by
      simp [insertMany, List.range_succ]
    have hnodes : manyNodes (n + 1) = manyNodes n ++ [(n + 1, ())] := by
      simp [manyNodes, List.range_succ]
    refine ⟨bs ++ [.done], ⟨list, nodes⟩, ?_, hreach.tail hok hstep, hnodes ▸ hs'⟩
    rw [hcalls]
    exact run_append.2 ⟨s, bs, [.done], hrun, run_cons.2 ⟨_, _, [], hstep, rfl, rfl⟩, rfl⟩

/-- The list has more nodes than an `unsigned` can count. -/
theorem not_length : ∃ bs s xs, run Handle.step emptyHandle (insertMany (2 ^ 32)) = some (bs, s) ∧
    Reach Handle.step Handle.Allowed emptyHandle s ∧ Stands s xs ∧
    ∀ fuel n s', s.step (.length, fuel) = some (.number n, s') → n.toNat ≠ xs.length := by
  obtain ⟨bs, s, hrun, hreach, hs⟩ := insertMany_run (2 ^ 32)
  refine ⟨bs, s, manyNodes (2 ^ 32), hrun, hreach, hs, ?_⟩
  intro fuel n s' _ he
  have hlt := n.toNat_lt
  rw [he, manyNodes, List.length_map, List.length_range] at hlt
  exact absurd hlt (Nat.lt_irrefl _)

end Edaf35.Shell
