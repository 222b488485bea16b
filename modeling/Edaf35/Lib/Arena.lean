import Mathlib.Algebra.GroupWithZero.Nat
import Mathlib.Data.List.Nodup
import Mathlib.Logic.Function.Basic

/-!
# Blocks that tile a heap, and allocations inside them

`Tiles ext lo l hi`: the blocks `l`, of extents `ext`, lie one after the other from `lo` to `hi`.  Each block starts
with a header of `hdr` bytes.  `Arena hdr ext lo hi l live` says in addition that every live allocation `(p, n)` lies
behind the header of a block of its own, so that the allocations overlap neither each other nor a header.

An arena survives a new block at its end, the allocation of a block that is not live, the release of a block, and the
merge of two neighbours of which the second is not live.
-/

namespace Edaf35

/-! ### Tilings -/

/-- The blocks `l` lie one after the other from `lo` to `hi`. -/
def Tiles (ext : Nat → Nat) : Nat → List Nat → Nat → Prop
  | lo, [], hi => lo = hi
  | lo, a :: l, hi => a = lo ∧ 0 < ext a ∧ Tiles ext (a + ext a) l hi

variable {ext ext' : Nat → Nat} {lo mid hi a b : Nat} {l l₁ l₂ : List Nat}

theorem Tiles.le (h : Tiles ext lo l hi) : lo ≤ hi := by
  induction l generalizing lo with
  | nil => exact Nat.le_of_eq h
  | cons a l ih =>
    obtain ⟨rfl, hpos, ht⟩ := h
    have := ih ht
    omega

theorem Tiles.bounds (h : Tiles ext lo l hi) (ha : a ∈ l) : lo ≤ a ∧ 0 < ext a ∧ a + ext a ≤ hi := by
  induction l generalizing lo with
  | nil => simp at ha
  | cons b l ih =>
    obtain ⟨rfl, hpos, ht⟩ := h
    rcases List.mem_cons.1 ha with rfl | ha
    · exact ⟨Nat.le_refl _, hpos, ht.le⟩
    · obtain ⟨h₁, h₂, h₃⟩ := ih ht ha
      exact ⟨by omega, h₂, h₃⟩

theorem tiles_append : Tiles ext lo (l₁ ++ l₂) hi ↔ ∃ mid, Tiles ext lo l₁ mid ∧ Tiles ext mid l₂ hi := by
  induction l₁ generalizing lo with
  | nil =>
    constructor
    · intro h; exact ⟨lo, rfl, h⟩
    · rintro ⟨mid, rfl, h⟩; exact h
  | cons a l₁ ih =>
    constructor
    · rintro ⟨rfl, hpos, h⟩
      obtain ⟨mid, h₁, h₂⟩ := ih.1 h
      exact ⟨mid, ⟨rfl, hpos, h₁⟩, h₂⟩
    · rintro ⟨mid, ⟨rfl, hpos, h₁⟩, h₂⟩
      exact ⟨rfl, hpos, ih.2 ⟨mid, h₁, h₂⟩⟩

/-- Two blocks of a tiling do not overlap. -/
theorem Tiles.apart (h : Tiles ext lo l hi) (ha : a ∈ l) (hb : b ∈ l) (hab : a ≠ b) :
    a + ext a ≤ b ∨ b + ext b ≤ a := by
  induction l generalizing lo with
  | nil => simp at ha
  | cons c l ih =>
    obtain ⟨rfl, hpos, ht⟩ := h
    rcases List.mem_cons.1 ha with hac | ha <;> rcases List.mem_cons.1 hb with hbc | hb
    · exact absurd (hac.trans hbc.symm) hab
    · exact Or.inl (hac ▸ (ht.bounds hb).1)
    · exact Or.inr (hbc ▸ (ht.bounds ha).1)
    · exact ih ht ha hb

theorem Tiles.nodup (h : Tiles ext lo l hi) : l.Nodup := by
  induction l generalizing lo with
  | nil => exact List.nodup_nil
  | cons a l ih =>
    obtain ⟨rfl, hpos, ht⟩ := h
    refine List.nodup_cons.2 ⟨fun hm => ?_, ih ht⟩
    have := (ht.bounds hm).1
    omega

theorem Tiles.congr (h : Tiles ext lo l hi) (heq : ∀ a ∈ l, ext' a = ext a) : Tiles ext' lo l hi := by
  induction l generalizing lo with
  | nil => exact h
  | cons a l ih =>
    obtain ⟨rfl, hpos, ht⟩ := h
    refine ⟨rfl, by rw [heq a (by simp)]; exact hpos, ?_⟩
    rw [heq a (by simp)]
    exact ih ht fun b hb => heq b (by simp [hb])

/-- The blocks of a tiling are in increasing order. -/
theorem Tiles.sorted (h : Tiles ext lo l hi) : l.Pairwise (· < ·) := by
  induction l generalizing lo with
  | nil => exact List.Pairwise.nil
  | cons a l ih =>
    obtain ⟨rfl, hpos, ht⟩ := h
    refine List.pairwise_cons.2 ⟨fun b hb => ?_, ih ht⟩
    have := (ht.bounds hb).1
    omega

/-- The extents of a tiling sum to what it covers. -/
theorem Tiles.sum (h : Tiles ext lo l hi) : lo + (l.map ext).sum = hi := by
  induction l generalizing lo with
  | nil => exact h
  | cons a l ih =>
    obtain ⟨rfl, -, ht⟩ := h
    rw [List.map_cons, List.sum_cons, ← Nat.add_assoc]
    exact ih ht

/-- A tiling has at most as many blocks as bytes. -/
theorem Tiles.length_le (h : Tiles ext lo l hi) : lo + l.length ≤ hi := by
  induction l generalizing lo with
  | nil => exact Nat.le_of_eq h
  | cons a l ih =>
    obtain ⟨rfl, hpos, ht⟩ := h
    have := ih ht
    rw [List.length_cons]
    omega

/-- A block put at the end. -/
theorem Tiles.push (h : Tiles ext lo l hi) (hpos : 0 < ext hi) : Tiles ext lo (l ++ [hi]) (hi + ext hi) :=
  tiles_append.2 ⟨hi, h, rfl, hpos, rfl⟩

/-- Two neighbours become one block. -/
theorem Tiles.merge (h : Tiles ext lo (l₁ ++ a :: b :: l₂) hi) :
    Tiles (Function.update ext a (ext a + ext b)) lo (l₁ ++ a :: l₂) hi := by
  have hnd := h.nodup
  rw [List.nodup_append, List.nodup_cons] at hnd
  obtain ⟨-, ⟨hal, -⟩, hdis⟩ := hnd
  obtain ⟨mid, h₁, rfl, hpa, rfl, hpb, h₂⟩ := tiles_append.1 h
  refine tiles_append.2 ⟨a, h₁.congr fun c hc => ?_, rfl, ?_, ?_⟩
  · rw [Function.update_of_ne (hdis c hc a (by simp))]
  · rw [Function.update_self]; omega
  · rw [Function.update_self, ← Nat.add_assoc]
    refine h₂.congr fun c hc => Function.update_of_ne ?_ _ _
    rintro rfl
    exact hal (by simp [hc])

/-! ### Arenas -/

/-- Blocks that tile the heap from `lo` to `hi`, and the live allocations, each in a block of its own. -/
structure Arena (hdr : Nat) (ext : Nat → Nat) (lo hi : Nat) (l : List Nat) (live : List (Nat × Nat)) : Prop where
  tiles : Tiles ext lo l hi
  room : ∀ p n, (p, n) ∈ live → ∃ a ∈ l, p = a + hdr ∧ hdr + n ≤ ext a
  distinct : (live.map Prod.fst).Nodup

variable {hdr p q n m : Nat} {live : List (Nat × Nat)}

theorem Arena.inside (h : Arena hdr ext lo hi l live) (hp : (p, n) ∈ live) : lo + hdr ≤ p ∧ p + n ≤ hi := by
  obtain ⟨a, ha, rfl, hn⟩ := h.room p n hp
  have := h.tiles.bounds ha
  omega

/-- Two live allocations do not overlap. -/
theorem Arena.disjoint (h : Arena hdr ext lo hi l live) (hp : (p, n) ∈ live) (hq : (q, m) ∈ live) (hpq : p ≠ q) :
    p + n ≤ q ∨ q + m ≤ p := by
  obtain ⟨a, ha, rfl, hn⟩ := h.room p n hp
  obtain ⟨b, hb, rfl, hm⟩ := h.room q m hq
  have hab : a ≠ b := by rintro rfl; exact hpq rfl
  have := h.tiles.apart ha hb hab
  omega

/-- A live allocation overlaps no header. -/
theorem Arena.header (h : Arena hdr ext lo hi l live) (hp : (p, n) ∈ live) (hb : b ∈ l) :
    p + n ≤ b ∨ b + hdr ≤ p := by
  obtain ⟨a, ha, rfl, hn⟩ := h.room p n hp
  by_cases hab : a = b
  · subst hab; exact Or.inr (Nat.le_refl _)
  · have := h.tiles.apart ha hb hab
    have := h.tiles.bounds hb
    omega

theorem Arena.congr (h : Arena hdr ext lo hi l live) (heq : ∀ a ∈ l, ext' a = ext a) :
    Arena hdr ext' lo hi l live := by
  refine ⟨h.tiles.congr heq, fun p n hp => ?_, h.distinct⟩
  obtain ⟨a, ha, hpa, hn⟩ := h.room p n hp
  exact ⟨a, ha, hpa, by rw [heq a ha]; exact hn⟩

/-- A new block at the end. -/
theorem Arena.push (h : Arena hdr ext lo hi l live) (hpos : 0 < ext hi) :
    Arena hdr ext lo (hi + ext hi) (l ++ [hi]) live := by
  refine ⟨h.tiles.push hpos, fun p n hp => ?_, h.distinct⟩
  obtain ⟨a, ha, hpa⟩ := h.room p n hp
  exact ⟨a, by simp [ha], hpa⟩

/-- A block that is not live is handed out. -/
theorem Arena.take (h : Arena hdr ext lo hi l live) (ha : a ∈ l) (hn : hdr + n ≤ ext a)
    (hnew : ∀ m, (a + hdr, m) ∉ live) : Arena hdr ext lo hi l ((a + hdr, n) :: live) := by
  refine ⟨h.tiles, fun p m hp => ?_, ?_⟩
  · rcases List.mem_cons.1 hp with heq | hp
    · rw [Prod.mk.injEq] at heq
      obtain ⟨rfl, rfl⟩ := heq
      exact ⟨a, ha, rfl, hn⟩
    · exact h.room p m hp
  · rw [List.map_cons, List.nodup_cons]
    refine ⟨fun hm => ?_, h.distinct⟩
    obtain ⟨⟨p, m⟩, hpm, rfl⟩ := List.mem_map.1 hm
    exact hnew m hpm

/-- The allocation at `p` is given back. -/
theorem Arena.release (h : Arena hdr ext lo hi l live) (p : Nat) :
    Arena hdr ext lo hi l (live.filter (·.1 ≠ p)) :=
  ⟨h.tiles, fun q m hq => h.room q m (List.mem_filter.1 hq).1,
    h.distinct.sublist (List.filter_sublist.map _)⟩

/-- The sizes of the allocations may be forgotten. -/
theorem Arena.forget (h : Arena hdr ext lo hi l live) : Arena hdr ext lo hi l (live.map fun x => (x.1, 0)) := by
  refine ⟨h.tiles, fun p n hp => ?_, ?_⟩
  · obtain ⟨⟨q, m⟩, hq, heq⟩ := List.mem_map.1 hp
    obtain ⟨rfl, rfl⟩ := Prod.mk.inj heq
    obtain ⟨a, ha, hpa, hm⟩ := h.room q m hq
    exact ⟨a, ha, hpa, by omega⟩
  · rw [List.map_map]
    exact h.distinct

/-- Two neighbours become one block, if the second is not live. -/
theorem Arena.merge (h : Arena hdr ext lo hi (l₁ ++ a :: b :: l₂) live) (hb : ∀ m, (b + hdr, m) ∉ live) :
    Arena hdr (Function.update ext a (ext a + ext b)) lo hi (l₁ ++ a :: l₂) live := by
  refine ⟨h.tiles.merge, fun p n hp => ?_, h.distinct⟩
  obtain ⟨c, hc, rfl, hn⟩ := h.room p n hp
  have hcb : c ≠ b := by rintro rfl; exact hb n hp
  refine ⟨c, ?_, rfl, ?_⟩
  · simp only [List.mem_append, List.mem_cons] at hc ⊢
    tauto
  · by_cases hca : c = a
    · subst hca; rw [Function.update_self]; omega
    · rw [Function.update_of_ne hca]; exact hn

/-- The `n` bytes at `p` end before the next block and before `hi`, and overlap none of the allocations `others`. -/
structure HasRoom (hi : Nat) (l : List Nat) (others : List (Nat × Nat)) (p n : Nat) : Prop where
  end_le : p + n ≤ hi
  header : ∀ b ∈ l, p ≤ b → p + n ≤ b
  apart : ∀ q m, (q, m) ∈ others → p + n ≤ q ∨ q + m ≤ p

theorem Arena.hasRoom (h : Arena hdr ext lo hi l ((p, n) :: live)) (hdr_pos : 0 < hdr) : HasRoom hi l live p n := by
  have hp : (p, n) ∈ (p, n) :: live := List.mem_cons_self ..
  have hdistinct := h.distinct
  rw [List.map_cons, List.nodup_cons] at hdistinct
  refine ⟨(h.inside hp).2, fun b hb hle => ?_, fun q m hq => h.disjoint hp (List.mem_cons_of_mem _ hq) ?_⟩
  · have := h.header hp hb
    omega
  · rintro rfl
    exact hdistinct.1 (List.mem_map.2 ⟨_, hq, rfl⟩)

end Edaf35
