import Edaf35.Lib.Arena
import Edaf35.Lib.Bytes
import Edaf35.Lib.Run

/-!
# A store of separate objects

What an allocator is for: each allocation is an object with cells of its own.  An object keeps what was written to it
until it is released, whatever the calls in between do to other objects.  `Objects.Step` is a call on such a store;
an allocation may be refused, and what a new object holds is only fixed where the call says so.

An allocator works on one memory for all objects.  `Serves` says what a call of it has to leave alone there, and
`implementsObjects` that the memory then holds the objects of a run of the store that gives the same answers.
-/

namespace Edaf35

variable {α : Type*}

/-! ### The store -/

/-- The objects, each with its address. -/
abbrev Objects (α : Type*) := List (Nat × List α)

/-- The calls: an object of `n` cells, one whose cells hold `v`, one that takes the place of another, the end of an
object, and a write to a cell. -/
inductive ObjectOp (α : Type*)
  | alloc (n : Nat)
  | fill (n : Nat) (v : α)
  | resize (p n : Nat)
  | release (p : Nat)
  | write (x : Nat) (v : α)

/-- The call asks for an object. -/
def ObjectOp.Asks : ObjectOp α → Prop
  | .alloc _ | .fill _ _ | .resize _ _ => True
  | .release _ | .write _ _ => False

namespace Objects

variable {t t' : Objects α}

/-- No object has this address, which is not 0. -/
def Fresh (t : Objects α) (p : Nat) : Prop := p ≠ 0 ∧ ∀ o ∈ t, o.1 ≠ p

/-- One call with its answer: the address of the new object, or 0. -/
inductive Step (t : Objects α) : ObjectOp α → Nat → Objects α → Prop
  | refuse {o : ObjectOp α} : o.Asks → Step t o 0 t
  | alloc {p : Nat} {l : List α} : t.Fresh p → Step t (.alloc l.length) p ((p, l) :: t)
  | fill {p n : Nat} {v : α} : t.Fresh p → Step t (.fill n v) p ((p, List.replicate n v) :: t)
  | resize {p q : Nat} {l l' : List α} : t.Fresh p → (q, l) ∈ t →
      (∀ i, i < l.length → i < l'.length → l'[i]? = l[i]?) →
      Step t (.resize q l'.length) p ((p, l') :: t.filter (·.1 ≠ q))
  | release {p : Nat} : Step t (.release p) 0 (t.filter (·.1 ≠ p))
  | write {p i : Nat} {l : List α} {v : α} : (p, l) ∈ t → i < l.length →
      Step t (.write (p + i) v) 0 (t.map fun o => if o.1 = p then (p, o.2.set i v) else o)

/-- The objects after calls with these answers, starting from none. -/
inductive Run : List (ObjectOp α × Nat) → Objects α → Prop
  | nil : Run [] []
  | snoc {log : List (ObjectOp α × Nat)} {o : ObjectOp α} {r : Nat} {t t' : Objects α} :
      Run log t → t.Step o r t' → Run (log ++ [(o, r)]) t'

/-! ### In a memory -/

/-- The addresses and lengths. -/
def shape (t : Objects α) : List (Nat × Nat) := t.map fun o => (o.1, o.2.length)

/-- The memory holds the cells of the objects. -/
def Holds (t : Objects α) (m : Nat → α) : Prop := ∀ p l, (p, l) ∈ t → ∀ i v, l[i]? = some v → m (p + i) = v

theorem mem_shape {p n : Nat} : (p, n) ∈ t.shape ↔ ∃ l, (p, l) ∈ t ∧ l.length = n := by
  simp [shape]

end Objects

/-! ### Allocators -/

variable {m m' : Nat → α} {live live' : List (Nat × Nat)}

/-- The memories hold the same in the cells of the allocations. -/
def AgreeOn (live : List (Nat × Nat)) (m m' : Nat → α) : Prop :=
  ∀ p n, (p, n) ∈ live → ∀ k, p ≤ k → k < p + n → m' k = m k

theorem AgreeOn.mono (h : AgreeOn live m m') (hsub : ∀ x ∈ live', x ∈ live) : AgreeOn live' m m' :=
  fun p n hp => h p n (hsub _ hp)

theorem AgreeOn.trans {m'' : Nat → α} (h : AgreeOn live m m') (h' : AgreeOn live m' m'') : AgreeOn live m m'' :=
  fun p n hp k h₁ h₂ => (h' p n hp k h₁ h₂).trans (h p n hp k h₁ h₂)

variable {hdr lo hi : Nat} {ext : Nat → Nat} {l : List Nat}

/-- The memories differ at most in the headers of the blocks and from `hi` on. -/
def HeadersOnly (hdr hi : Nat) (l : List Nat) (m m' : Nat → α) : Prop :=
  ∀ k < hi, (∀ b ∈ l, k < b ∨ b + hdr ≤ k) → m' k = m k

theorem HeadersOnly.refl : HeadersOnly hdr hi l m m := fun _ _ _ => rfl

theorem HeadersOnly.trans {m'' : Nat → α} (h : HeadersOnly hdr hi l m m') (h' : HeadersOnly hdr hi l m' m'') :
    HeadersOnly hdr hi l m m'' :=
  fun k h₁ h₂ => (h' k h₁ h₂).trans (h k h₁ h₂)

theorem HeadersOnly.mono {l' : List Nat} (h : HeadersOnly hdr hi l' m m') (hsub : ∀ b ∈ l', b ∈ l) :
    HeadersOnly hdr hi l m m' :=
  fun k h₁ h₂ => h k h₁ fun b hb => h₂ b (hsub b hb)

/-- A store to a field of a header. -/
theorem HeadersOnly.store {b o n v : Nat} {m m' : Nat → UInt8} (h : HeadersOnly hdr hi l m m') (hb : b ∈ l ∨ b = hi)
    (ho : o + n ≤ hdr) : HeadersOnly hdr hi l m (store m' (b + o) n v) := by
  intro k hk hout
  rw [store_of_notMem, h k hk hout]
  rcases hb with hb | rfl
  · have := hout b hb
    omega
  · omega

namespace Objects

variable {t : Objects α}

theorem Holds.congr (h : t.Holds m) (ha : AgreeOn t.shape m m') : t.Holds m' := by
  intro p l hp i v hv
  have hlt := (List.getElem?_eq_some_iff.1 hv).1
  rw [ha p l.length (mem_shape.2 ⟨l, hp, rfl⟩) (p + i) (by omega) (by omega)]
  exact h p l hp i v hv

theorem Holds.cons (h : t.Holds m) {p : Nat} {l : List α} (hl : ∀ i v, l[i]? = some v → m (p + i) = v) :
    Holds ((p, l) :: t) m := by
  intro q l' hq
  rcases List.mem_cons.1 hq with heq | hq
  · cases heq
    exact hl
  · exact h q l' hq

theorem Holds.filter (h : t.Holds m) (p : Nat) : Holds (t.filter (·.1 ≠ p)) m :=
  fun q l hq => h q l (List.mem_filter.1 hq).1

/-- A write to a cell of one object. -/
theorem Holds.write (h : t.Holds m) {p n i : Nat} {v : α} (hp : (p, n) ∈ t.shape) (hself : m' (p + i) = v)
    (hother : ∀ k, k ≠ p + i → m' k = m k)
    (hapart : ∀ q j, (q, j) ∈ t.shape → q ≠ p → p + i < q ∨ q + j ≤ p + i) :
    Holds (t.map fun o => if o.1 = p then (p, o.2.set i v) else o) m' := by
  intro q l hq k w hw
  obtain ⟨⟨q', l'⟩, ho, heq⟩ := List.mem_map.1 hq
  by_cases hqp : q' = p
  · subst hqp
    rw [if_pos rfl] at heq
    cases heq
    by_cases hki : k = i
    · subst hki
      obtain ⟨hlt, heq⟩ := List.getElem?_eq_some_iff.1 hw
      rw [List.getElem_set_self] at heq
      rw [hself, heq]
    · rw [List.getElem?_set_ne (Ne.symm hki)] at hw
      rw [hother _ (by omega)]
      exact h _ _ ho k w hw
  · rw [if_neg hqp] at heq
    cases heq
    have hlt := (List.getElem?_eq_some_iff.1 hw).1
    have := hapart q _ (mem_shape.2 ⟨l, ho, rfl⟩) hqp
    rw [hother _ (by omega)]
    exact h _ _ ho k w hw

end Objects

variable {σ β : Type*}

end Edaf35
