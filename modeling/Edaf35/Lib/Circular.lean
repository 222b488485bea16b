import Mathlib.Data.List.Cycle
import Mathlib.Logic.Function.Iterate

/-!
# Circular doubly linked lists

`IsRing succ pred l`: following `succ` from the first element of `l` one visits the elements of `l`, once each and in
order, and is back at the first one; `pred` leads the other way round.  Where a ring is entered does not matter
(`IsRing.rotated`).  Two rings without a common element are joined by four assignments (`IsRing.splice`), and an
element is taken out by two (`IsRing.remove`).
-/

namespace Edaf35

variable {α : Type*} {succ pred succ' pred' : α → α} {a b : α} {l l₁ l₂ : List α}

/-- `b` follows `a`. -/
def Linked (succ pred : α → α) (a b : α) : Prop := succ a = b ∧ pred b = a

structure IsRing (succ pred : α → α) (l : List α) : Prop where
  nodup : l.Nodup
  next : (l : Cycle α).Chain (Linked succ pred)

/-- The elements in order, and the last one linked to the first. -/
theorem isRing_cons_iff : IsRing succ pred (a :: l) ↔ (a :: l).Nodup ∧ (a :: l).IsChain (Linked succ pred) ∧
    Linked succ pred ((a :: l).getLast (List.cons_ne_nil a l)) a := by
  have hchain : (a :: (l ++ [a])).IsChain (Linked succ pred) ↔ (a :: l).IsChain (Linked succ pred) ∧
      Linked succ pred ((a :: l).getLast (List.cons_ne_nil a l)) a := by
    rw [← List.cons_append, List.isChain_append, List.getLast?_eq_some_getLast (List.cons_ne_nil a l)]
    simp
  constructor
  · intro h
    exact ⟨h.nodup, hchain.1 ((Cycle.chain_coe_cons _ _ _).1 h.next)⟩
  · intro h
    exact ⟨h.1, (Cycle.chain_coe_cons _ _ _).2 (hchain.2 h.2)⟩

theorem isRing_nil : IsRing succ pred ([] : List α) := ⟨List.nodup_nil, Cycle.Chain.nil _⟩

theorem isRing_singleton : IsRing succ pred [a] ↔ succ a = a ∧ pred a = a := by
  simp [isRing_cons_iff, Linked]

theorem IsRing.rotated (h : IsRing succ pred l) (hr : l.IsRotated l₁) : IsRing succ pred l₁ :=
  ⟨hr.nodup_iff.1 h.nodup, Cycle.coe_eq_coe.2 hr ▸ h.next⟩

theorem IsRing.pred_head (h : IsRing succ pred (a :: l)) : pred a = (a :: l).getLast (List.cons_ne_nil a l) :=
  (isRing_cons_iff.1 h).2.2.2

theorem IsRing.pred_mem (h : IsRing succ pred (a :: l)) : pred a ∈ a :: l := by
  rw [h.pred_head]
  exact List.getLast_mem _

theorem IsRing.succ_head (h : IsRing succ pred (a :: l)) : succ a = l.headD a := by
  obtain ⟨-, hchain, hlast⟩ := isRing_cons_iff.1 h
  cases l with
  | nil => exact hlast.1
  | cons b l => exact (List.isChain_cons_cons.1 hchain).1.1

/-- `succ` and `pred` are inverse to each other on the elements of a ring. -/
theorem IsRing.inverse (h : IsRing succ pred l) (ha : a ∈ l) : pred (succ a) = a ∧ succ (pred a) = a := by
  -- the ring is entered at `a`
  obtain ⟨l₁, l₂, rfl⟩ := List.append_of_mem ha
  have hr : IsRing succ pred (a :: (l₂ ++ l₁)) := h.rotated ⟨l₁.length, by simp⟩
  obtain ⟨-, hchain, hlast⟩ := isRing_cons_iff.1 hr
  constructor
  · rw [hr.succ_head]
    cases hl : l₂ ++ l₁ with
    | nil =>
      rw [hl] at hr
      exact (isRing_singleton.1 hr).2
    | cons b l =>
      rw [hl] at hchain
      exact (List.isChain_cons_cons.1 hchain).1.2
  · rw [hr.pred_head]
    exact hlast.1

/-- The elements of a ring, in order, by going on from the first. -/
theorem IsRing.iterate (h : IsRing succ pred (a :: l)) {i : Nat} (hi : i < (a :: l).length) :
    succ^[i] a = (a :: l)[i] := by
  have hchain := (isRing_cons_iff.1 h).2.1
  induction i with
  | zero => rfl
  | succ i ih =>
    rw [Function.iterate_succ_apply', ih (by omega)]
    exact (List.isChain_iff_getElem.1 hchain i (by simpa using hi)).1

theorem IsRing.iterate_length (h : IsRing succ pred (a :: l)) : succ^[(a :: l).length] a = a := by
  have hlast := h.iterate (i := l.length) (by simp)
  have hend : (a :: l).getLast (List.cons_ne_nil a l) = (a :: l)[l.length] := List.getLast_eq_getElem _
  rw [List.length_cons, Function.iterate_succ_apply', hlast, ← hend]
  exact (isRing_cons_iff.1 h).2.2.1

/-! ### Changes -/

/-- A segment depends on `succ` of all but its last element and `pred` of all but its first. -/
theorem linked_congr (h : l.IsChain (Linked succ pred)) (hs : ∀ x ∈ l.dropLast, succ' x = succ x)
    (hp : ∀ x ∈ l.tail, pred' x = pred x) : l.IsChain (Linked succ' pred') := by
  induction l with
  | nil => exact List.isChain_nil
  | cons a l ih =>
    cases l with
    | nil => exact List.isChain_singleton a
    | cons b l =>
      obtain ⟨⟨hsucc, hpred⟩, hrest⟩ := List.isChain_cons_cons.1 h
      have hab : Linked succ' pred' a b :=
        ⟨by rw [hs a (by simp), hsucc], by rw [hp b (by simp), hpred]⟩
      refine List.isChain_cons_cons.2 ⟨hab, ih hrest ?_ ?_⟩
      · intro x hx
        exact hs x (by simp [hx])
      · intro x hx
        exact hp x (List.mem_of_mem_tail hx)

theorem IsRing.congr (h : IsRing succ pred l) (hs : ∀ x ∈ l, succ' x = succ x) (hp : ∀ x ∈ l, pred' x = pred x) :
    IsRing succ' pred' l := by
  cases l with
  | nil => exact isRing_nil
  | cons a l =>
    obtain ⟨hnd, hchain, hsucc, hpred⟩ := isRing_cons_iff.1 h
    refine isRing_cons_iff.2 ⟨hnd, linked_congr hchain ?_ ?_, ?_, ?_⟩
    · intro x hx
      exact hs x (List.mem_of_mem_dropLast hx)
    · intro x hx
      exact hp x (List.mem_of_mem_tail hx)
    · rw [hs _ (List.getLast_mem _), hsucc]
    · rw [hp a (by simp), hpred]

/-- The last element of a list without repetitions is not before the last. -/
theorem ne_getLast_of_mem_dropLast (hnd : (a :: l).Nodup) {x : α} (hx : x ∈ (a :: l).dropLast) :
    x ≠ (a :: l).getLast (List.cons_ne_nil a l) := by
  rintro rfl
  rw [← List.dropLast_concat_getLast (List.cons_ne_nil a l)] at hnd
  exact List.disjoint_of_nodup_append hnd hx (by simp)

section Update

variable [DecidableEq α]

/-- Two rings become one: the second one is entered after the last element of the first. -/
theorem IsRing.splice (h₁ : IsRing succ pred (a :: l₁)) (h₂ : IsRing succ pred (b :: l₂))
    (hd : (a :: l₁).Disjoint (b :: l₂)) :
    IsRing (Function.update (Function.update succ (pred a) b) (pred b) a)
      (Function.update (Function.update pred a (pred b)) b (pred a)) ((a :: l₁) ++ b :: l₂) := by
  obtain ⟨hnd₁, hchain₁, -⟩ := isRing_cons_iff.1 h₁
  obtain ⟨hnd₂, hchain₂, -⟩ := isRing_cons_iff.1 h₂
  have hp₁ := h₁.pred_mem
  have hp₂ := h₂.pred_mem
  have hdiff : ∀ x ∈ a :: l₁, ∀ y ∈ b :: l₂, x ≠ y := fun x hx y hy => List.disjoint_iff_ne.1 hd x hx y hy
  have ha : a ∈ a :: l₁ := List.mem_cons_self
  have hb : b ∈ b :: l₂ := List.mem_cons_self
  have hnd : ((a :: l₁) ++ b :: l₂).Nodup := List.nodup_append'.2 ⟨hnd₁, hnd₂, hd⟩
  have hchain : ((a :: l₁) ++ b :: l₂).IsChain
      (Linked (Function.update (Function.update succ (pred a) b) (pred b) a)
        (Function.update (Function.update pred a (pred b)) b (pred a))) := by
    refine List.isChain_append.2 ⟨linked_congr hchain₁ ?_ ?_, linked_congr hchain₂ ?_ ?_, ?_⟩
    · intro x hx
      have hne := ne_getLast_of_mem_dropLast hnd₁ hx
      rw [← h₁.pred_head] at hne
      have hx' := List.mem_of_mem_dropLast hx
      rw [Function.update_of_ne (hdiff x hx' _ hp₂), Function.update_of_ne hne]
    · intro x hx
      have hx' : x ∈ a :: l₁ := List.mem_of_mem_tail hx
      have hxa : x ≠ a := fun he => (List.nodup_cons.1 hnd₁).1 (he ▸ hx)
      rw [Function.update_of_ne (hdiff x hx' b hb), Function.update_of_ne hxa]
    · intro x hx
      have hne := ne_getLast_of_mem_dropLast hnd₂ hx
      rw [← h₂.pred_head] at hne
      have hx' := List.mem_of_mem_dropLast hx
      rw [Function.update_of_ne hne, Function.update_of_ne (hdiff _ hp₁ x hx').symm]
    · intro x hx
      have hx' : x ∈ b :: l₂ := List.mem_of_mem_tail hx
      have hxb : x ≠ b := fun he => (List.nodup_cons.1 hnd₂).1 (he ▸ hx)
      rw [Function.update_of_ne hxb, Function.update_of_ne (hdiff a ha x hx').symm]
    · -- from the last element of the first ring to the first one of the second
      intro x hx y hy
      rw [List.getLast?_eq_some_getLast (List.cons_ne_nil a l₁), ← h₁.pred_head, Option.mem_some] at hx
      rw [List.head?_cons, Option.mem_some] at hy
      subst hx hy
      exact ⟨by rw [Function.update_of_ne (hdiff _ hp₁ _ hp₂), Function.update_self], by rw [Function.update_self]⟩
  have hend : ((a :: l₁) ++ b :: l₂).getLast (by simp) = pred b := by
    rw [h₂.pred_head]
    exact List.getLast_append_of_ne_nil _ (List.cons_ne_nil b l₂)
  have hback : Linked (Function.update (Function.update succ (pred a) b) (pred b) a)
      (Function.update (Function.update pred a (pred b)) b (pred a)) (pred b) a :=
    ⟨by rw [Function.update_self], by rw [Function.update_of_ne (hdiff a ha b hb), Function.update_self]⟩
  exact isRing_cons_iff.2 ⟨hnd, hchain, Eq.subst (motive := fun z => Linked _ _ z a) hend.symm hback⟩

/-- The first element of a ring is taken out. -/
theorem IsRing.remove (h : IsRing succ pred (a :: b :: l)) :
    IsRing (Function.update succ (pred a) (succ a)) (Function.update pred (succ a) (pred a)) (b :: l) := by
  obtain ⟨hnd, hchain, -⟩ := isRing_cons_iff.1 h
  obtain ⟨⟨hsucc, -⟩, hrest⟩ := List.isChain_cons_cons.1 hchain
  have hnd' := (List.nodup_cons.1 hnd).2
  have hlast : pred a = (b :: l).getLast (List.cons_ne_nil b l) := by
    rw [h.pred_head]
    exact List.getLast_cons (List.cons_ne_nil b l)
  refine isRing_cons_iff.2 ⟨hnd', linked_congr hrest ?_ ?_, ?_⟩
  · intro x hx
    have hne := ne_getLast_of_mem_dropLast hnd' hx
    rw [← hlast] at hne
    rw [Function.update_of_ne hne]
  · intro x hx
    have hxb : x ≠ b := fun he => (List.nodup_cons.1 hnd').1 (he ▸ hx)
    rw [hsucc, Function.update_of_ne hxb]
  · rw [← hlast, hsucc]
    exact ⟨by rw [Function.update_self], by rw [Function.update_self]⟩

end Update

end Edaf35
