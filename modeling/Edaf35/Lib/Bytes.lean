import Mathlib.Algebra.Order.Ring.Nat
import Mathlib.Data.Nat.ModEq
import Mathlib.Logic.Function.Basic

/-!
# Little-endian numbers in byte memory

`load m a n` is the number stored in the `n` bytes from address `a` on, lowest byte first, and `store m a n v` puts
the lowest `n` bytes of `v` there.  A load sees the last store to the same bytes and no store to other bytes
(`SameBytes`).
`fill m a l` is the memory after the bytes `l` were written one by one from address `a` on.
-/

namespace Edaf35

def load (m : Nat → UInt8) : Nat → Nat → Nat
  | _, 0 => 0
  | a, n + 1 => (m a).toNat + 256 * load m (a + 1) n

def store (m : Nat → UInt8) (a n v : Nat) : Nat → UInt8 :=
  fun k => if a ≤ k ∧ k < a + n then UInt8.ofNat (v / 256 ^ (k - a)) else m k

variable {m m' : Nat → UInt8} {a b n k v : Nat}

theorem load_lt (m : Nat → UInt8) (a n : Nat) : load m a n < 256 ^ n := by
  induction n generalizing a with
  | zero => simp [load]
  | succ n ih =>
    have h₁ := (m a).toNat_lt
    have h₂ := ih (a + 1)
    rw [load, Nat.pow_succ]
    omega

theorem load_congr (h : ∀ k, a ≤ k → k < a + n → m k = m' k) : load m a n = load m' a n := by
  induction n generalizing a with
  | zero => rfl
  | succ n ih =>
    rw [load, load, h a (Nat.le_refl a) (by omega), ih (fun k h₁ h₂ => h k (by omega) (by omega))]

theorem store_of_mem (h₁ : a ≤ k) (h₂ : k < a + n) : store m a n v k = UInt8.ofNat (v / 256 ^ (k - a)) :=
  if_pos ⟨h₁, h₂⟩

theorem store_of_notMem (h : k < a ∨ a + n ≤ k) : store m a n v k = m k := if_neg (by omega)

theorem load_store_same : load (store m a n v) a n = v % 256 ^ n := by
  induction n generalizing a v with
  | zero => simp [load, Nat.mod_one]
  | succ n ih =>
    have hrest : load (store m a (n + 1) v) (a + 1) n = load (store m (a + 1) n (v / 256)) (a + 1) n := by
      apply load_congr
      intro k h₁ h₂
      rw [store_of_mem (by omega) (by omega), store_of_mem h₁ h₂, Nat.div_div_eq_div_mul,
        show k - a = k - (a + 1) + 1 by omega, Nat.pow_succ, Nat.mul_comm]
    rw [load, store_of_mem (Nat.le_refl a) (by omega), hrest, ih, Nat.pow_succ, Nat.mul_comm (256 ^ n), Nat.mod_mul]
    simp

theorem load_store_disjoint (h : a + n ≤ b ∨ b + k ≤ a) : load (store m a n v) b k = load m b k :=
  load_congr fun i h₁ h₂ => store_of_notMem (by omega)

/-! ### The same bytes -/

/-- The two memories hold the same `n` bytes at `b`. -/
def SameBytes (m m' : Nat → UInt8) (b n : Nat) : Prop := ∀ k, b ≤ k → k < b + n → m' k = m k

theorem SameBytes.load_eq {o k : Nat} (h : SameBytes m m' b n) (ho : o + k ≤ n) :
    load m' (b + o) k = load m (b + o) k :=
  load_congr fun i h₁ h₂ => h i (by omega) (by omega)

theorem SameBytes.trans {m'' : Nat → UInt8} (h : SameBytes m m' b n) (h' : SameBytes m' m'' b n) :
    SameBytes m m'' b n :=
  fun k h₁ h₂ => (h' k h₁ h₂).trans (h k h₁ h₂)

/-- A store leaves the bytes alone that are apart from it. -/
theorem sameBytes_store {i : Nat} (h : b + n ≤ a ∨ a + i ≤ b) : SameBytes m (store m a i v) b n :=
  fun k h₁ h₂ => store_of_notMem (by omega)

/-! ### Stores that undo each other -/

/-- A byte of a number that was loaded. -/
theorem load_byte (h : k < n) : UInt8.ofNat (load m a n / 256 ^ k) = m (a + k) := by
  induction n generalizing a k with
  | zero => omega
  | succ n ih =>
    have hbyte := (m a).toNat_lt
    cases k with
    | zero =>
      apply UInt8.toNat_inj.1
      rw [Nat.pow_zero, Nat.div_one, UInt8.toNat_ofNat', load]
      simp only [Nat.add_zero]
      omega
    | succ k =>
      have hrest : load m a (n + 1) / 256 ^ (k + 1) = load m (a + 1) n / 256 ^ k := by
        rw [Nat.pow_succ, Nat.mul_comm, ← Nat.div_div_eq_div_mul, load]
        congr 1
        omega
      rw [hrest, ih (by omega), show a + 1 + k = a + (k + 1) by omega]

theorem store_load : store m a n (load m a n) = m := by
  funext k
  by_cases hk : a ≤ k ∧ k < a + n
  · rw [store_of_mem hk.1 hk.2, load_byte (by omega), show a + (k - a) = k by omega]
  · exact store_of_notMem (by omega)

theorem store_store_same {w : Nat} : store (store m a n v) a n w = store m a n w := by
  funext k
  by_cases hk : a ≤ k ∧ k < a + n
  · rw [store_of_mem hk.1 hk.2, store_of_mem hk.1 hk.2]
  · rw [store_of_notMem (by omega), store_of_notMem (by omega), store_of_notMem (by omega)]

theorem store_comm {i w : Nat} (h : a + n ≤ b ∨ b + i ≤ a) :
    store (store m a n v) b i w = store (store m b i w) a n v := by
  funext k
  by_cases hk : a ≤ k ∧ k < a + n
  · rw [store_of_notMem (by omega), store_of_mem hk.1 hk.2, store_of_mem hk.1 hk.2]
  · by_cases hb : b ≤ k ∧ k < b + i
    · rw [store_of_mem hb.1 hb.2, store_of_notMem (by omega), store_of_mem hb.1 hb.2]
    · rw [store_of_notMem (by omega), store_of_notMem (by omega), store_of_notMem (by omega),
        store_of_notMem (by omega)]

/-! ### Bytes written one by one -/

def fill (m : Nat → UInt8) (a : Nat) : List UInt8 → Nat → UInt8
  | [] => m
  | byte :: l => fill (Function.update m a byte) (a + 1) l

theorem fill_of_lt {l : List UInt8} (h : k < a) : fill m a l k = m k := by
  induction l generalizing m a with
  | nil => rfl
  | cons byte l ih =>
    rw [fill, ih (by omega)]
    exact Function.update_of_ne (by omega) _ _

theorem fill_get {l : List UInt8} {i : Nat} {byte : UInt8} (h : l[i]? = some byte) : fill m a l (a + i) = byte := by
  induction l generalizing m a i with
  | nil => cases h
  | cons first l ih =>
    rw [fill]
    cases i with
    | zero =>
      rw [fill_of_lt (by omega), Nat.add_zero, Function.update_self]
      exact Option.some.inj h
    | succ i =>
      rw [show a + (i + 1) = a + 1 + i by omega]
      exact ih h

theorem fill_append (l l' : List UInt8) : fill m a (l ++ l') = fill (fill m a l) (a + l.length) l' := by
  induction l generalizing m a with
  | nil => rfl
  | cons byte l ih =>
    rw [List.cons_append, fill, fill, ih, List.length_cons, Nat.add_assoc, Nat.add_comm 1]

end Edaf35
