import Mathlib.Data.Finset.Card
import Mathlib.Data.Finset.Dedup
import Edaf35.Lib.SecondChance

/-!
# How often the in-place rule misses

While at most `cap` pages are requested, the rule `referInPlace` misses at most `2 * cap - 2` times.  A page that was
not requested since the window began has its bit cleared at most once, and is evicted when the hand comes back; the
hand moves at every miss.  `Window` carries this as the number `turns` of misses that can precede the eviction.
-/

namespace Edaf35.SecondChance

variable {α : Type*} {cap n i : Nat} {q r pre post : Queue α} {e : α × Bool} {v p : α}

/-- A bound for the misses until the page at index `i` of a queue of length `len` is evicted: the number of frames the
hand has to go, less one for the miss at which it passes a page other than the one it starts from. -/
def turns (cap len i : Nat) (b : Bool) : Nat :=
  match i with
  | 0 => if b then cap else 0
  | i + 1 => (if b then cap - 1 else 0) + (cap - len + (i + 1))

theorem turns_succ (cap len i : Nat) (b : Bool) :
    turns cap len (i + 1) b = (if b then cap - 1 else 0) + (cap - len + (i + 1)) := rfl

/-- Pages requested since the window began, `n` misses among them: a page that was not is evicted
after at most `2 * cap - 2 - n` further ones. -/
structure Window [DecidableEq α] (cap : Nat) (seen : Finset α) (n : Nat) (q : Queue α) : Prop where
  nodup : (q.map Prod.fst).Nodup
  length_le : q.length ≤ cap
  head : ∀ e, q.head? = some e → e.2 = true
  misses : n ≤ 2 * cap - 2
  room : q.length < cap → n ≤ seen.card ∧ ∀ v ∈ seen, v ∈ q.map Prod.fst
  old : ∀ i e, q[i]? = some e → e.1 ∉ seen → n + turns cap q.length i e.2 ≤ 2 * cap - 2

section Rotate

/-- What the loop makes of a full queue: the page to evict and, for each other entry, where it came from. -/
theorem rotate_moves {b : Bool} (hlen : 2 ≤ q.length) (hhead : ∀ e, q.head? = some e → e.2 = true)
    (hrot : rotate q.length q = (p, b) :: r) (h : r[i]? = some e) :
    ∃ j e', q[j]? = some e' ∧ e'.1 = e.1 ∧ turns q.length q.length (i + 1) e.2 < turns q.length q.length j e'.2 := by
  rcases all_or_first q with hall | ⟨pre, p', post, rfl, hpre⟩
  · -- every page was referenced: the hand goes round once
    rw [rotate_all hall (Nat.le_refl _)] at hrot
    cases q with
    | nil => cases hrot
    | cons e₀ q =>
      rw [clear, List.map_cons, List.cons.injEq] at hrot
      obtain ⟨-, rfl⟩ := hrot
      rw [List.getElem?_map, Option.map_eq_some_iff] at h
      obtain ⟨e', he', rfl⟩ := h
      refine ⟨i + 1, e', he', rfl, ?_⟩
      rw [turns_succ, turns_succ, hall e' (List.mem_cons_of_mem _ (List.mem_of_getElem? he'))]
      simp only [if_true, Bool.false_eq_true, if_false]
      omega
  · rw [rotate_first hpre (by simp), List.cons_append, List.cons.injEq] at hrot
    obtain ⟨-, rfl⟩ := hrot
    obtain ⟨m, hm⟩ : ∃ m, pre.length = m + 1 := by
      cases pre with
      | nil => exact absurd (hhead (p', false) rfl) Bool.false_ne_true
      | cons e₀ pre => exact ⟨pre.length, rfl⟩
    by_cases hi : i < post.length
    · -- the hand did not reach the entry
      rw [List.getElem?_append_left hi] at h
      refine ⟨pre.length + (i + 1), e, ?_, rfl, ?_⟩
      · rw [List.getElem?_append_right (by omega), Nat.add_sub_cancel_left, List.getElem?_cons_succ]
        exact h
      · rw [turns_succ, hm, Nat.add_right_comm, turns_succ]
        omega
    · -- the hand passed the entry and cleared its bit
      rw [List.getElem?_append_right (by omega), clear, List.getElem?_map, Option.map_eq_some_iff] at h
      obtain ⟨e', he', rfl⟩ := h
      have hlt := (List.getElem?_eq_some_iff.1 he').1
      refine ⟨i - post.length, e', ?_, rfl, ?_⟩
      · rw [List.getElem?_append_left hlt]
        exact he'
      · rw [turns_succ, hpre e' (List.mem_of_getElem? he')]
        cases hj : i - post.length with
        | zero =>
          simp only [turns, if_true, Bool.false_eq_true, if_false, List.length_append, List.length_cons]
          omega
        | succ j =>
          simp only [turns_succ, if_true, Bool.false_eq_true, if_false, List.length_append, List.length_cons]
          omega

theorem rotate_perm (fuel : Nat) (q : Queue α) : ((rotate fuel q).map Prod.fst).Perm (q.map Prod.fst) := by
  induction fuel, q using rotate.induct with
  | case1 fuel p q ih =>
    rw [rotate]
    refine ih.trans ?_
    rw [List.map_append, List.map_cons, List.map_cons]
    exact List.perm_append_comm
  | case2 fuel q hq =>
    rw [rotate]
    exact hq

/-- The pages after a miss while a frame is free. -/
theorem pages_missRoom (c : Queue α) (b : Bool) :
    (((v, true) :: (c ++ [(p, false)])).map Prod.fst).Perm (v :: ((p, b) :: c).map Prod.fst) := by
  rw [List.map_cons, List.map_append]
  exact List.Perm.cons v List.perm_append_comm

theorem nodup_missRoom {c : Queue α} {b : Bool} (hnd : (((p, b) :: c).map Prod.fst).Nodup)
    (hv : v ∉ ((p, b) :: c).map Prod.fst) : (((v, true) :: (c ++ [(p, false)])).map Prod.fst).Nodup :=
  (pages_missRoom c b).nodup_iff.2 (List.nodup_cons.2 ⟨hv, hnd⟩)

theorem nodup_missFull {b : Bool} {fuel : Nat} (hnd : (q.map Prod.fst).Nodup) (hv : v ∉ q.map Prod.fst)
    (hrot : rotate fuel q = (p, b) :: r) : (((v, true) :: r).map Prod.fst).Nodup := by
  have hperm := rotate_perm fuel q
  rw [hrot] at hperm
  have hnd' := hperm.nodup_iff.2 hnd
  rw [List.map_cons, List.nodup_cons] at hnd' ⊢
  exact ⟨fun hin => hv (hperm.mem_iff.1 (List.mem_cons_of_mem p hin)), hnd'.2⟩

end Rotate

variable [DecidableEq α] {seen : Finset α}

/-- No page is in the queue twice. -/
theorem referInPlace_nodup (hnd : (q.map Prod.fst).Nodup) (cap : Nat) (v : α) :
    ((referInPlace cap q v).2.map Prod.fst).Nodup := by
  unfold referInPlace
  by_cases hv : v ∈ q.map Prod.fst
  · rw [if_pos hv, pages_touch]
    exact hnd
  · rw [if_neg hv]
    by_cases hroom : q.length < cap
    · rw [if_pos hroom]
      cases q with
      | nil => exact List.nodup_singleton v
      | cons e c => exact nodup_missRoom hnd hv
    · rw [if_neg hroom]
      cases hrot : rotate q.length q with
      | nil => exact List.nodup_singleton v
      | cons e r => exact nodup_missFull hnd hv hrot

/-- At the start of the window. -/
theorem window_start (hcap : 2 ≤ cap) (hnd : (q.map Prod.fst).Nodup) (hlen : q.length ≤ cap)
    (hhead : ∀ e, q.head? = some e → e.2 = true) : Window cap ∅ 0 q := by
  refine ⟨hnd, hlen, hhead, Nat.zero_le _, fun _ => ⟨Nat.zero_le _, fun v hv => by simp at hv⟩, fun i e he _ => ?_⟩
  have hi := (List.getElem?_eq_some_iff.1 he).1
  unfold turns
  split <;> split <;> omega

omit [DecidableEq α] in
theorem length_of_pages {c : Queue α} (h : c.map Prod.fst = q.map Prod.fst) : c.length = q.length := by
  simpa using congrArg List.length h

/-- A hit. -/
theorem Window.hit (h : Window cap seen n q) (hv : v ∈ q.map Prod.fst) : Window cap (insert v seen) n (touch v q) := by
  have hlen : (touch v q).length = q.length := length_of_pages (pages_touch v q)
  constructor
  · rw [pages_touch]
    exact h.nodup
  · rw [hlen]
    exact h.length_le
  · intro e he
    rw [touch, List.head?_map, Option.map_eq_some_iff] at he
    obtain ⟨e', he', rfl⟩ := he
    split
    · rfl
    · exact h.head e' he'
  · exact h.misses
  · intro hroom
    obtain ⟨hn, hseen⟩ := h.room (hlen ▸ hroom)
    rw [pages_touch]
    refine ⟨hn.trans (Finset.card_le_card (Finset.subset_insert v seen)), fun w hw => ?_⟩
    rcases Finset.mem_insert.1 hw with rfl | hw
    · exact hv
    · exact hseen w hw
  · intro i e he hold
    rw [touch, List.getElem?_map, Option.map_eq_some_iff] at he
    obtain ⟨e', he', rfl⟩ := he
    by_cases he : e'.1 = v
    · simp [he] at hold
    · rw [if_neg he] at hold ⊢
      rw [hlen]
      exact h.old i e' he' fun hin => hold (Finset.mem_insert_of_mem hin)

/-- The first miss. -/
theorem Window.missNil (h : Window cap seen n []) (hcap : 2 ≤ cap) :
    Window cap (insert v seen) (n + 1) [(v, true)] := by
  obtain ⟨hn, hseen⟩ := h.room (by simp only [List.length_nil]; omega)
  have hempty : seen = ∅ := Finset.eq_empty_of_forall_notMem fun w hw => by simpa using hseen w hw
  subst hempty
  obtain rfl : n = 0 := by simpa using hn
  refine ⟨by simp, by simp only [List.length_singleton]; omega, ?_, by omega, fun _ => by simp, fun i e he hold => ?_⟩
  · rintro e ⟨⟩
    rfl
  · obtain rfl : e = (v, true) := by simpa using List.mem_of_getElem? he
    simp at hold

/-- A miss while a frame is free: the hand moves on by one frame. -/
theorem Window.missRoom {c : Queue α} {b : Bool} (h : Window cap seen n ((p, b) :: c)) (hcap : 2 ≤ cap)
    (hcard : (insert v seen).card ≤ cap) (hv : v ∉ ((p, b) :: c).map Prod.fst) (hroom : ((p, b) :: c).length < cap) :
    Window cap (insert v seen) (n + 1) ((v, true) :: (c ++ [(p, false)])) := by
  obtain ⟨hn, hseen⟩ := h.room hroom
  have hnew : v ∉ seen := fun hin => hv (hseen v hin)
  rw [Finset.card_insert_of_notMem hnew] at hcard
  obtain rfl : b = true := h.head (p, b) rfl
  rw [List.length_cons] at hroom
  constructor
  · exact nodup_missRoom h.nodup hv
  · simp only [List.length_cons, List.length_append, List.length_nil]
    omega
  · rintro e ⟨⟩
    rfl
  · omega
  · intro _
    refine ⟨by rw [Finset.card_insert_of_notMem hnew]; omega, fun w hw => (pages_missRoom c true).mem_iff.2 ?_⟩
    rcases Finset.mem_insert.1 hw with rfl | hw
    · exact List.mem_cons_self
    · exact List.mem_cons_of_mem v (hseen w hw)
  · intro i e he hold
    cases i with
    | zero =>
      cases he
      simp at hold
    | succ i =>
      rw [List.getElem?_cons_succ] at he
      have hlen : ((v, true) :: (c ++ [(p, false)])).length = c.length + 2 := by simp
      rw [hlen, turns_succ]
      by_cases hi : i < c.length
      · rw [List.getElem?_append_left hi] at he
        have hold' := h.old (i + 1) e he fun hin => hold (Finset.mem_insert_of_mem hin)
        rw [List.length_cons, turns_succ] at hold'
        omega
      · -- the page loaded last, with its bit cleared
        have hlt := (List.getElem?_eq_some_iff.1 he).1
        rw [List.length_append, List.length_singleton] at hlt
        obtain rfl : i = c.length := by omega
        rw [List.getElem?_append_right (Nat.le_refl _), Nat.sub_self, List.getElem?_cons_zero] at he
        cases he
        have hold' := h.old 0 (p, true) rfl fun hin => hold (Finset.mem_insert_of_mem hin)
        rw [turns, if_pos rfl] at hold'
        simp only [Bool.false_eq_true, if_false]
        omega

/-- When the requested pages fit, a full queue without page `v` has a page that was not requested. -/
theorem Window.exists_old (h : Window cap seen n q) (hfull : q.length = cap) (hcard : (insert v seen).card ≤ cap)
    (hv : v ∉ q.map Prod.fst) : ∃ (i : Nat) (e : α × Bool), q[i]? = some e ∧ e.1 ∉ seen := by
  by_contra hall
  simp only [not_exists, not_and, not_not] at hall
  have hsub : (v :: q.map Prod.fst).toFinset ⊆ insert v seen := by
    intro w hw
    rw [List.mem_toFinset, List.mem_cons] at hw
    rcases hw with rfl | hw
    · exact Finset.mem_insert_self w seen
    · obtain ⟨e, he, rfl⟩ := List.mem_map.1 hw
      obtain ⟨i, hi⟩ := List.mem_iff_getElem?.1 he
      exact Finset.mem_insert_of_mem (hall i e hi)
  have hle := Finset.card_le_card hsub
  rw [List.toFinset_card_of_nodup (List.nodup_cons.2 ⟨hv, h.nodup⟩), List.length_cons, List.length_map, hfull] at hle
  omega

/-- A miss with no free frame: the hand moves on by at least one frame. -/
theorem Window.missFull {b : Bool} (h : Window cap seen n q) (hcap : 2 ≤ cap) (hfull : q.length = cap)
    (hcard : (insert v seen).card ≤ cap) (hv : v ∉ q.map Prod.fst) (hrot : rotate q.length q = (p, b) :: r) :
    Window cap (insert v seen) (n + 1) ((v, true) :: r) := by
  have hlen := length_rotate q.length q
  rw [hrot, List.length_cons] at hlen
  have hpos : ∀ i e, q[i]? = some e → 0 < turns cap q.length i e.2 := by
    intro i e he
    cases i with
    | zero =>
      rw [h.head e (by rwa [List.head?_eq_getElem?]), turns, if_pos rfl]
      omega
    | succ i =>
      rw [turns_succ]
      omega
  constructor
  · exact nodup_missFull h.nodup hv hrot
  · rw [List.length_cons]
    omega
  · rintro e ⟨⟩
    rfl
  · obtain ⟨i, e, he, hold⟩ := h.exists_old hfull hcard hv
    have := h.old i e he hold
    have := hpos i e he
    omega
  · intro hroom
    rw [List.length_cons] at hroom
    omega
  · intro i e he hold
    cases i with
    | zero =>
      cases he
      simp at hold
    | succ i =>
      rw [List.getElem?_cons_succ] at he
      obtain ⟨j, e', he', hpage, hlt⟩ := rotate_moves (by omega) h.head hrot he
      have hold' := h.old j e' he' fun hin => hold (Finset.mem_insert_of_mem (hpage ▸ hin))
      rw [List.length_cons, hlen, hfull]
      rw [hfull] at hlt hold'
      omega

/-- One request under the in-place rule. -/
theorem Window.step (h : Window cap seen n q) (hcap : 2 ≤ cap) (hcard : (insert v seen).card ≤ cap) :
    Window cap (insert v seen) (n + (!decide (v ∈ q.map Prod.fst)).toNat) (referInPlace cap q v).2 := by
  unfold referInPlace
  by_cases hv : v ∈ q.map Prod.fst
  · rw [if_pos hv, decide_eq_true hv]
    exact h.hit hv
  · rw [if_neg hv, decide_eq_false hv]
    by_cases hroom : q.length < cap
    · rw [if_pos hroom]
      cases q with
      | nil => exact h.missNil hcap
      | cons e c => exact h.missRoom hcap hcard hv hroom
    · have hfull : q.length = cap := Nat.le_antisymm h.length_le (Nat.le_of_not_lt hroom)
      rw [if_neg hroom]
      cases hrot : rotate q.length q with
      | nil =>
        have hlen := length_rotate q.length q
        rw [hrot, List.length_nil] at hlen
        omega
      | cons e r => exact h.missFull hcap hfull hcard hv hrot

end Edaf35.SecondChance
