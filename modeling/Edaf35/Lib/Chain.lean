import Mathlib.Data.List.Nodup
import Mathlib.Logic.Function.Basic

/-!
# Chains of links

`IsChain next stop p l`: starting at `p` and following `next`, one visits exactly the elements of `l`, in order, and
then reaches `stop`.  A link function and a starting point determine the chain, so a chain never repeats an element.
Changing the link of an element outside the chain does not change the chain, and linking its last element to a new one
makes it longer.
-/

namespace Edaf35

variable {α : Type*}

def IsChain (next : α → α) (stop : α) : α → List α → Prop
  | p, [] => p = stop
  | p, a :: l => p = a ∧ a ≠ stop ∧ IsChain next stop (next a) l

variable {next next' : α → α} {stop p : α} {l l' : List α}

@[simp] theorem isChain_nil : IsChain next stop p [] ↔ p = stop := Iff.rfl

theorem IsChain.head_eq {a : α} (h : IsChain next stop p (a :: l)) : p = a := h.1

theorem IsChain.tail {a : α} (h : IsChain next stop p (a :: l)) : IsChain next stop (next a) l := h.2.2

/-- A chain from an element other than the end starts with that element. -/
theorem IsChain.exists_cons (h : IsChain next stop p l) (hp : p ≠ stop) :
    ∃ l₁, l = p :: l₁ ∧ IsChain next stop (next p) l₁ := by
  cases l with
  | nil => exact absurd h hp
  | cons a l => obtain ⟨rfl, -, ht⟩ := h; exact ⟨l, rfl, ht⟩

theorem IsChain.eq_nil (h : IsChain next stop stop l) : l = [] := by
  cases l with
  | nil => rfl
  | cons a l => exact absurd h.1.symm h.2.1

theorem IsChain.unique (h : IsChain next stop p l) (h' : IsChain next stop p l') : l = l' := by
  induction l generalizing p l' with
  | nil => cases h; exact (h'.eq_nil).symm
  | cons a l ih =>
    obtain ⟨rfl, hne, ht⟩ := h
    obtain ⟨l₁, rfl, ht'⟩ := h'.exists_cons hne
    rw [ih ht ht']

theorem IsChain.stop_notMem (h : IsChain next stop p l) : stop ∉ l := by
  induction l generalizing p with
  | nil => simp
  | cons a l ih =>
    obtain ⟨rfl, hne, ht⟩ := h
    simp only [List.mem_cons, not_or]
    exact ⟨hne.symm, ih ht⟩

theorem IsChain.suffix {a : α} {l₁ l₂ : List α} (h : IsChain next stop p (l₁ ++ a :: l₂)) :
    IsChain next stop a (a :: l₂) := by
  induction l₁ generalizing p with
  | nil => obtain ⟨rfl, h⟩ := h; exact ⟨rfl, h⟩
  | cons b l₁ ih => exact ih h.tail

theorem IsChain.nodup (h : IsChain next stop p l) : l.Nodup := by
  induction l generalizing p with
  | nil => exact List.nodup_nil
  | cons a l ih =>
    refine List.nodup_cons.2 ⟨?_, ih h.tail⟩
    -- meeting `a` again would give two different chains from `a`
    intro hm
    obtain ⟨l₁, l₂, rfl⟩ := List.append_of_mem hm
    have h₁ := (List.cons_append (a := a) ▸ h : IsChain next stop p ((a :: l₁) ++ a :: l₂)).suffix
    have hlen := congrArg List.length (h₁.unique (h.head_eq ▸ h))
    simp at hlen
    omega

theorem IsChain.congr (h : IsChain next stop p l) (heq : ∀ a ∈ l, next' a = next a) : IsChain next' stop p l := by
  induction l generalizing p with
  | nil => exact h
  | cons a l ih =>
    obtain ⟨rfl, hne, ht⟩ := h
    refine ⟨rfl, hne, ?_⟩
    rw [heq p (by simp)]
    exact ih ht (fun b hb => heq b (by simp [hb]))

theorem IsChain.update [DecidableEq α] {a b : α} (h : IsChain next stop p l) (ha : a ∉ l) :
    IsChain (Function.update next a b) stop p l :=
  h.congr fun c hc => Function.update_of_ne (by rintro rfl; exact ha hc) _ _

/-- The last element of a chain links to the end. -/
theorem IsChain.next_last {a : α} (h : IsChain next stop p (l ++ [a])) : next a = stop := by
  induction l generalizing p with
  | nil => exact h.2.2
  | cons b l ih => exact ih h.tail

theorem IsChain.next_eq_stop_iff {a : α} {l₂ : List α} (h : IsChain next stop p (l ++ a :: l₂)) :
    next a = stop ↔ l₂ = [] := by
  have ht := h.suffix.tail
  constructor
  · intro hn; rw [hn] at ht; exact ht.eq_nil
  · rintro rfl; exact ht

theorem getLast?_eq_some_iff {a : α} (d : α) (ha : a ∈ l) : l.getLast? = some a ↔ a = l.getLastD d := by
  obtain ⟨last, hl⟩ := Option.isSome_iff_exists.1 (List.getLast?_isSome.2 (List.ne_nil_of_mem ha))
  rw [List.getLastD_eq_getLast?, hl, Option.some.injEq, Option.getD_some]
  exact eq_comm

theorem getLastD_mem (d : α) (hl : l ≠ []) : l.getLastD d ∈ l := by
  rw [List.getLastD_eq_getLast?, List.getLast?_eq_some_getLast hl]
  exact List.getLast_mem hl

/-- A new element at the end: the last element links to it, and a chain without elements starts with it. -/
theorem IsChain.snoc [DecidableEq α] {b p' : α} (h : IsChain next stop p l) (hb : b ≠ stop) (hstop : next' b = stop)
    (hnext : ∀ a ∈ l, next' a = if l.getLast? = some a then b else next a) (hp : l = [] → p' = b)
    (hp' : l ≠ [] → p' = p) : IsChain next' stop p' (l ++ [b]) := by
  have hnd := h.nodup
  induction l generalizing p p' with
  | nil => exact ⟨hp rfl, hp rfl ▸ hb, hp rfl ▸ hstop⟩
  | cons a l ih =>
    obtain ⟨rfl, hne, ht⟩ := h
    rw [List.nodup_cons] at hnd
    have hpn := hnext p (by simp)
    refine ⟨hp' (by simp), hne, ih ht (fun c hc => ?_) ?_ ?_ hnd.2⟩
    · rw [hnext c (by simp [hc]), List.getLast?_cons_of_ne_nil (List.ne_nil_of_mem hc)]
    · rintro rfl
      simpa using hpn
    · intro hl
      rw [hpn, List.getLast?_cons_of_ne_nil hl, if_neg fun hlast => hnd.1 (List.mem_of_getLast? hlast)]

/-- Linking an element to the one after the next removes the next one. -/
theorem IsChain.unlink [DecidableEq α] {a b : α} {l₁ l₂ : List α} (h : IsChain next stop p (l₁ ++ a :: b :: l₂)) :
    IsChain (Function.update next a (next b)) stop p (l₁ ++ a :: l₂) := by
  have hnd := h.nodup
  induction l₁ generalizing p with
  | nil =>
    obtain ⟨rfl, hne, hb⟩ := h
    rw [List.nil_append, List.nodup_cons, List.mem_cons, not_or] at hnd
    exact ⟨rfl, hne, by rw [Function.update_self]; exact hb.tail.update hnd.1.2⟩
  | cons c l₁ ih =>
    obtain ⟨rfl, hne, ht⟩ := h
    rw [List.cons_append, List.nodup_cons] at hnd
    have hca : p ≠ a := by rintro rfl; exact hnd.1 (by simp)
    exact ⟨rfl, hne, by rw [Function.update_of_ne hca]; exact ih ht hnd.2⟩

/-- Putting a new element before a chain. -/
theorem IsChain.push [DecidableEq α] {a : α} (h : IsChain next stop p l) (ha : a ∉ l) (hne : a ≠ stop) :
    IsChain (Function.update next a p) stop a (a :: l) :=
  ⟨rfl, hne, by rw [Function.update_self]; exact h.update ha⟩

end Edaf35
