import Mathlib.Data.List.Nodup

/-!
# Second-chance replacement

A queue of pages with a referenced bit each.  `refer` is the second-chance rule: a page that is not in the queue is
appended at the rear, and when the queue is full the head moves to the rear, its bit cleared, while the bit is set;
then the head is evicted.  `referInPlace` differs in one respect: the new page takes the place of the one evicted, at
the head.

While both rules evict the same pages, the queues hold the same pages: the head of the second is the rear of the first
(`Aligned`).  At the next fault they evict the same page if and only if `SameChoice` holds.
-/

namespace Edaf35.SecondChance

variable {α : Type*}

/-- The pages with their referenced bits, the head first. -/
abbrev Queue (α : Type*) := List (α × Bool)

def clear (q : Queue α) : Queue α := q.map fun e => (e.1, false)

/-- The head moves to the rear while its bit is set. -/
def rotate : Nat → Queue α → Queue α
  | fuel + 1, (p, true) :: q => rotate fuel (q ++ [(p, false)])
  | _, q => q

/-- The first page whose bit is clear. -/
def unreferenced (q : Queue α) : Option α := (q.find? fun e => !e.2).map Prod.fst

@[simp] theorem clear_append (q r : Queue α) : clear (q ++ r) = clear q ++ clear r := List.map_append

@[simp] theorem pages_clear (q : Queue α) : (clear q).map Prod.fst = q.map Prod.fst := by
  simp [clear, Function.comp_def]

theorem pages_append (q r : Queue α) (p : α) (b : Bool) :
    (q ++ (p, b) :: r).map Prod.fst = q.map Prod.fst ++ p :: r.map Prod.fst := by
  rw [List.map_append, List.map_cons]

theorem rotate_append {pre post : Queue α} {fuel : Nat} (hpre : ∀ e ∈ pre, e.2 = true)
    (hpost : ∀ e, post.head? = some e → e.2 = false) (hfuel : pre.length ≤ fuel) :
    rotate fuel (pre ++ post) = post ++ clear pre := by
  induction pre generalizing post fuel with
  | nil =>
    rw [List.nil_append, clear, List.map_nil, List.append_nil]
    cases fuel with
    | zero => rfl
    | succ fuel =>
      cases post with
      | nil => rfl
      | cons e post =>
        obtain ⟨p, b⟩ := e
        obtain rfl : b = false := hpost _ rfl
        rfl
  | cons e pre ih =>
    obtain ⟨p, b⟩ := e
    obtain rfl : b = true := hpre _ List.mem_cons_self
    obtain ⟨fuel, rfl⟩ : ∃ k, fuel = k + 1 := ⟨fuel - 1, by rw [List.length_cons] at hfuel; omega⟩
    have hpost' : ∀ e, (post ++ [(p, false)]).head? = some e → e.2 = false := by
      intro e he
      cases post with
      | nil => cases he; rfl
      | cons e' post => exact hpost e he
    rw [List.cons_append, rotate, List.append_assoc, ih (fun e he => hpre e (List.mem_cons_of_mem _ he)) hpost'
      (by rw [List.length_cons] at hfuel; omega), List.append_assoc]
    rfl

theorem rotate_all {q : Queue α} {fuel : Nat} (h : ∀ e ∈ q, e.2 = true) (hfuel : q.length ≤ fuel) :
    rotate fuel q = clear q := by
  have hnil : ∀ e, ([] : Queue α).head? = some e → e.2 = false := by
    intro e he
    cases he
  have hrot := rotate_append h hnil hfuel
  rwa [List.append_nil, List.nil_append] at hrot

theorem rotate_first {pre post : Queue α} {p : α} {fuel : Nat} (h : ∀ e ∈ pre, e.2 = true)
    (hfuel : pre.length ≤ fuel) : rotate fuel (pre ++ (p, false) :: post) = (p, false) :: post ++ clear pre :=
  rotate_append h (by rintro e ⟨⟩; rfl) hfuel

/-- All bits are set, or there is a first page whose bit is clear. -/
theorem all_or_first (q : Queue α) :
    (∀ e ∈ q, e.2 = true) ∨ ∃ pre p post, q = pre ++ (p, false) :: post ∧ ∀ e ∈ pre, e.2 = true := by
  induction q with
  | nil => exact Or.inl fun e he => by cases he
  | cons e q ih =>
    obtain ⟨p, b⟩ := e
    cases b with
    | false => exact Or.inr ⟨[], p, q, rfl, fun e he => by cases he⟩
    | true =>
      rcases ih with hall | ⟨pre, p', post, rfl, hpre⟩
      · apply Or.inl
        intro e he
        rcases List.mem_cons.1 he with rfl | he
        · rfl
        · exact hall e he
      · refine Or.inr ⟨(p, true) :: pre, p', post, rfl, fun e he => ?_⟩
        rcases List.mem_cons.1 he with rfl | he
        · rfl
        · exact hpre e he

@[simp] theorem length_rotate (fuel : Nat) (q : Queue α) : (rotate fuel q).length = q.length := by
  induction fuel, q using rotate.induct with
  | case1 fuel p q ih =>
    rw [rotate, ih, List.length_append, List.length_cons]
    rfl
  | case2 fuel q hq => rw [rotate]; exact hq

/-- One turn is enough. -/
theorem rotate_of_length_le {q : Queue α} {fuel : Nat} (h : q.length ≤ fuel) : rotate fuel q = rotate q.length q := by
  rcases all_or_first q with hall | ⟨pre, p, post, rfl, hpre⟩
  · rw [rotate_all hall h, rotate_all hall (Nat.le_refl _)]
  · rw [List.length_append] at h
    rw [rotate_first hpre (by omega), rotate_first hpre (by rw [List.length_append]; omega)]

theorem unreferenced_of_all {q : Queue α} (h : ∀ e ∈ q, e.2 = true) : unreferenced q = none := by
  have hnone : q.find? (fun e => !e.2) = none := List.find?_eq_none.2 fun e he => by simp [h e he]
  rw [unreferenced, hnone]
  rfl

theorem unreferenced_append {pre post : Queue α} {p : α} (h : ∀ e ∈ pre, e.2 = true) :
    unreferenced (pre ++ (p, false) :: post) = some p := by
  have hnone : pre.find? (fun e => !e.2) = none := List.find?_eq_none.2 fun e he => by simp [h e he]
  rw [unreferenced, List.find?_append, hnone]
  rfl

/-! ### Queues with the same pages -/

/-- The two queues hold the same pages, and the page loaded last, which is at the rear of one and at the head of the
other, was referenced. -/
inductive Aligned : Queue α → Queue α → Prop
  | nil : Aligned [] []
  | cons {n : α} {c q : Queue α} : (n :: c.map Prod.fst).Nodup → q.map Prod.fst = c.map Prod.fst →
      Aligned ((n, true) :: c) (q ++ [(n, true)])

/-- The first page whose bit is clear is the same in both queues; or all bits of `q` are set, and the first one of `c`
is clear. -/
def SameChoice (c q : Queue α) : Prop :=
  (∃ p, unreferenced c = some p ∧ unreferenced q = some p) ∨
    (∀ e ∈ q, e.2 = true) ∧ ∃ p, c.head? = some (p, false)

instance [DecidableEq α] (c q : Queue α) : Decidable (SameChoice c q) :=
  decidable_of_iff ((unreferenced c).isSome ∧ unreferenced q = unreferenced c ∨
      (∀ e ∈ q, e.2 = true) ∧ c.head?.map Prod.snd = some false) <| by
    refine or_congr ?_ (and_congr_right fun _ => ?_)
    · rw [Option.isSome_iff_exists]
      constructor
      · rintro ⟨⟨p, hp⟩, heq⟩
        exact ⟨p, hp, heq.trans hp⟩
      · rintro ⟨p, hp, hq⟩
        exact ⟨⟨p, hp⟩, hq.trans hp.symm⟩
    · simp [Option.map_eq_some_iff]

variable {c q : Queue α} {n v : α} {cap : Nat}

theorem Aligned.mem_iff (h : Aligned c q) : v ∈ c.map Prod.fst ↔ v ∈ q.map Prod.fst := by
  cases h with
  | nil => rfl
  | cons hnd heq =>
    rw [List.map_cons, List.map_append, List.mem_cons, List.mem_append, heq, or_comm]
    simp

theorem Aligned.length_eq (h : Aligned c q) : c.length = q.length := by
  cases h with
  | nil => rfl
  | cons hnd heq =>
    have := congrArg List.length heq
    simp only [List.length_map] at this
    simp [this]

/-- The pages after a fault are different if those before were. -/
private theorem nodup_replace {pre post : List α} {p : α} (hnd : (n :: (pre ++ p :: post)).Nodup)
    (hv : v ∉ n :: (pre ++ p :: post)) : (v :: (post ++ n :: pre)).Nodup := by
  have hperm : (post ++ n :: pre).Perm (n :: (pre ++ post)) :=
    List.perm_middle.trans (List.perm_append_comm.cons n)
  have hsub : (n :: (pre ++ post)).Sublist (n :: (pre ++ p :: post)) :=
    ((List.sublist_cons_self p post).append_left pre).cons_cons n
  refine List.nodup_cons.2 ⟨fun hm => hv (hsub.subset (hperm.mem_iff.1 hm)), ?_⟩
  exact hperm.nodup_iff.2 (hsub.nodup hnd)

/-- When all bits of the one queue are set, the other one has to evict its head. -/
private theorem sameChoice_of_all {pre post r : Queue α} {p p' : α} {b : Bool} (hall : ∀ e ∈ q, e.2 = true)
    (hq : q = (p', b) :: r) (hc : c = pre ++ (p, false) :: post) (hpre : ∀ e ∈ pre, e.2 = true)
    (hnd : (c.map Prod.fst).Nodup) (heq : q.map Prod.fst = c.map Prod.fst) :
    (SameChoice c q ↔ p = p') ∧ (p = p' → pre = [] ∧ r.map Prod.fst = post.map Prod.fst) := by
  have hpages : p' :: r.map Prod.fst = pre.map Prod.fst ++ p :: post.map Prod.fst := by
    rw [hq, hc] at heq
    simpa using heq
  have hnil : p = p' → pre = [] := by
    rintro rfl
    cases pre with
    | nil => rfl
    | cons e pre =>
      -- the page would occur twice
      rw [hc, List.map_append, List.nodup_append] at hnd
      exact absurd (List.cons.inj hpages).1.symm
        (hnd.2.2 e.1 (List.mem_map_of_mem List.mem_cons_self) p (by simp))
  refine ⟨⟨?_, fun hp => ?_⟩, fun hp => ⟨hnil hp, ?_⟩⟩
  · rintro (⟨x, -, hx⟩ | ⟨-, x, hx⟩)
    · rw [unreferenced_of_all hall] at hx
      cases hx
    · cases pre with
      | nil => exact (List.cons.inj hpages).1.symm
      | cons e pre =>
        rw [hc] at hx
        have := hpre e List.mem_cons_self
        rw [Option.some.inj hx] at this
        cases this
  · exact Or.inr ⟨hall, p, by rw [hc, hnil hp]; rfl⟩
  · rw [hnil hp] at hpages
    exact (List.cons.inj hpages).2

/-- When both queues have a page whose bit is clear, the first ones have to be the same. -/
private theorem sameChoice_of_first {pre post pre' post' : Queue α} {p p' : α} (hq : q = pre' ++ (p', false) :: post')
    (hpre' : ∀ e ∈ pre', e.2 = true) (hc : c = pre ++ (p, false) :: post) (hpre : ∀ e ∈ pre, e.2 = true)
    (hnd : (c.map Prod.fst).Nodup) (heq : q.map Prod.fst = c.map Prod.fst) :
    (SameChoice c q ↔ p = p') ∧
      (p = p' → pre'.map Prod.fst = pre.map Prod.fst ∧ post'.map Prod.fst = post.map Prod.fst) := by
  refine ⟨⟨?_, ?_⟩, ?_⟩
  · rintro (⟨x, hxc, hxq⟩ | ⟨hall, -⟩)
    · rw [hc, unreferenced_append hpre, Option.some_inj] at hxc
      rw [hq, unreferenced_append hpre', Option.some_inj] at hxq
      rw [hxc, hxq]
    · cases hall (p', false) (by rw [hq]; simp)
  · rintro rfl
    exact Or.inl ⟨p, by rw [hc, unreferenced_append hpre], by rw [hq, unreferenced_append hpre']⟩
  · rintro rfl
    rw [hq, hc, List.map_append, List.map_append, List.map_cons, List.map_cons] at heq
    rw [hc, List.map_append, List.map_cons, List.nodup_middle, List.nodup_cons, List.mem_append, not_or] at hnd
    obtain ⟨hl, -, hr⟩ := (List.append_cons_inj_of_notMem hnd.1.1 hnd.1.2).1 heq.symm
    exact ⟨hl.symm, hr.symm⟩

/-! ### The two rules -/

variable [DecidableEq α]

/-- A hit sets the bit of the page. -/
def touch (v : α) (q : Queue α) : Queue α := q.map fun e => if e.1 = v then (v, true) else e

/-- Second chance: the page evicted and the queue after a reference to page `v`. -/
def refer (cap : Nat) (q : Queue α) (v : α) : Option α × Queue α :=
  if v ∈ q.map Prod.fst then (none, touch v q)
  else if q.length < cap then (none, q ++ [(v, true)])
  else
    match rotate q.length q with
    | [] => (none, [(v, true)])
    | (p, _) :: q => (some p, q ++ [(v, true)])

/-- The pages evicted in a sequence of references, in order. -/
def evicted (cap : Nat) : Queue α → List α → List α
  | _, [] => []
  | q, v :: vs => (refer cap q v).1.toList ++ evicted cap (refer cap q v).2 vs

/-- The queue after a sequence of references. -/
def after (cap : Nat) : Queue α → List α → Queue α
  | q, [] => q
  | q, v :: vs => after cap (refer cap q v).2 vs

/-- The rule that leaves the new page at the head.  While there is room the page at the head, which is the one loaded
last, moves to the rear. -/
def referInPlace (cap : Nat) (c : Queue α) (v : α) : Option α × Queue α :=
  if v ∈ c.map Prod.fst then (none, touch v c)
  else if c.length < cap then
    match c with
    | [] => (none, [(v, true)])
    | e :: c => (none, (v, true) :: (c ++ [(e.1, false)]))
  else
    match rotate c.length c with
    | [] => (none, [(v, true)])
    | (p, _) :: c => (some p, (v, true) :: c)

@[simp] theorem pages_touch (v : α) (q : Queue α) : (touch v q).map Prod.fst = q.map Prod.fst := by
  rw [touch, List.map_map]
  apply List.map_congr_left
  intro e _
  rw [Function.comp_apply]
  split
  · next h => exact h.symm
  · rfl

theorem touch_append (v : α) (q r : Queue α) : touch v (q ++ r) = touch v q ++ touch v r := List.map_append

theorem touch_rear (v n : α) : touch v [(n, true)] = [(n, true)] := by
  by_cases h : n = v <;> simp [touch, h]

/-- A hit. -/
theorem Aligned.hit (h : Aligned c q) (v : α) : Aligned (touch v c) (touch v q) := by
  cases h with
  | nil => exact .nil
  | @cons n c q hnd heq =>
    have hcons : touch v ((n, true) :: c) = (n, true) :: touch v c := by
      rw [← List.singleton_append, touch_append, touch_rear]
      rfl
    rw [hcons, touch_append, touch_rear]
    exact .cons (by rw [pages_touch]; exact hnd) (by rw [pages_touch, pages_touch, heq])

/-- A fault while there is room. -/
theorem Aligned.fill (h : Aligned c q) (hv : v ∉ q.map Prod.fst) (hroom : q.length < cap) :
    (referInPlace cap c v).1 = none ∧ (refer cap q v).1 = none ∧
      Aligned (referInPlace cap c v).2 (refer cap q v).2 := by
  have hvc : v ∉ c.map Prod.fst := fun hm => hv (h.mem_iff.1 hm)
  have hroomc : c.length < cap := by rw [h.length_eq]; exact hroom
  have hq : refer cap q v = (none, q ++ [(v, true)]) := by rw [refer, if_neg hv, if_pos hroom]
  unfold referInPlace
  rw [if_neg hvc, if_pos hroomc, hq]
  cases h with
  | nil => exact ⟨rfl, rfl, .cons (c := []) (q := []) (by simp) rfl⟩
  | @cons n c q hnd heq =>
    refine ⟨rfl, rfl, .cons ?_ ?_⟩
    · rw [List.map_append, List.nodup_cons]
      refine ⟨fun hm => hvc ?_, ?_⟩
      · rcases List.mem_append.1 hm with hm | hm
        · exact List.mem_cons_of_mem _ hm
        · rw [List.mem_singleton.1 hm]
          exact List.mem_cons_self
      · exact (List.perm_append_singleton n _).nodup_iff.2 hnd
    · rw [List.map_append, List.map_append, heq]
      rfl

/-- Second chance on a full queue whose first clear bit is that of `p`. -/
private theorem refer_first {pre post : Queue α} {p : α} (hv : v ∉ (q ++ [(n, true)]).map Prod.fst)
    (hfull : cap ≤ (q ++ [(n, true)]).length) (hq : q = pre ++ (p, false) :: post) (hpre : ∀ e ∈ pre, e.2 = true) :
    refer cap (q ++ [(n, true)]) v = (some p, post ++ (n, true) :: clear pre ++ [(v, true)]) := by
  have hrot : rotate (q ++ [(n, true)]).length (q ++ [(n, true)]) = (p, false) :: (post ++ (n, true) :: clear pre) := by
    subst hq
    rw [List.append_assoc, List.cons_append, rotate_first hpre (by rw [List.length_append]; omega)]
    simp
  rw [refer, if_neg hv, if_neg (by omega), hrot]

/-- Second chance on a full queue whose bits are all set. -/
private theorem refer_all {b : Bool} {p : α} {r : Queue α} (hv : v ∉ (q ++ [(n, true)]).map Prod.fst)
    (hfull : cap ≤ (q ++ [(n, true)]).length) (hq : q = (p, b) :: r) (hall : ∀ e ∈ q, e.2 = true) :
    refer cap (q ++ [(n, true)]) v = (some p, clear r ++ [(n, false)] ++ [(v, true)]) := by
  have hall' : ∀ e ∈ q ++ [(n, true)], e.2 = true := by
    intro e he
    rcases List.mem_append.1 he with he | he
    · exact hall e he
    · rw [List.mem_singleton.1 he]
  rw [refer, if_neg hv, if_neg (by omega), rotate_all hall' (Nat.le_refl _), hq, clear_append]
  rfl

private theorem referInPlace_first {pre post : Queue α} {p : α} (hv : v ∉ ((n, true) :: c).map Prod.fst)
    (hfull : cap ≤ ((n, true) :: c).length) (hc : c = pre ++ (p, false) :: post) (hpre : ∀ e ∈ pre, e.2 = true) :
    referInPlace cap ((n, true) :: c) v = (some p, (v, true) :: (post ++ (n, false) :: clear pre)) := by
  have hpre' : ∀ e ∈ (n, true) :: pre, e.2 = true := by
    intro e he
    rcases List.mem_cons.1 he with rfl | he
    · rfl
    · exact hpre e he
  have hrot : rotate ((n, true) :: c).length ((n, true) :: c) = (p, false) :: (post ++ (n, false) :: clear pre) := by
    subst hc
    exact rotate_first hpre' (by simp)
  rw [referInPlace, if_neg hv, if_neg (by omega), hrot]

private theorem referInPlace_all (hv : v ∉ ((n, true) :: c).map Prod.fst) (hfull : cap ≤ ((n, true) :: c).length)
    (hall : ∀ e ∈ c, e.2 = true) : referInPlace cap ((n, true) :: c) v = (some n, (v, true) :: clear c) := by
  have hall' : ∀ e ∈ (n, true) :: c, e.2 = true := by
    intro e he
    rcases List.mem_cons.1 he with rfl | he
    · rfl
    · exact hall e he
  rw [referInPlace, if_neg hv, if_neg (by omega), rotate_all hall' (Nat.le_refl _)]
  rfl

/-- The page loaded is at the head. -/
theorem referInPlace_head (cap : Nat) (hv : v ∉ c.map Prod.fst) : ∃ c', (referInPlace cap c v).2 = (v, true) :: c' := by
  unfold referInPlace
  rw [if_neg hv]
  split
  · cases c with
    | nil => exact ⟨_, rfl⟩
    | cons e c => exact ⟨_, rfl⟩
  · split
    · exact ⟨_, rfl⟩
    · exact ⟨_, rfl⟩

/-- A fault on full queues of more than one page: both rules evict a page.  It is the same page if and only if the
choice is the same, and then the queues stay aligned. -/
theorem Aligned.full (h : Aligned ((n, true) :: c) (q ++ [(n, true)])) (hne : q ≠ [])
    (hv : v ∉ (q ++ [(n, true)]).map Prod.fst) (hfull : cap ≤ (q ++ [(n, true)]).length) :
    (∃ p p', (referInPlace cap ((n, true) :: c) v).1 = some p ∧ (refer cap (q ++ [(n, true)]) v).1 = some p' ∧
        (p = p' ↔ SameChoice c q)) ∧
      (SameChoice c q →
        Aligned (referInPlace cap ((n, true) :: c) v).2 (refer cap (q ++ [(n, true)]) v).2) := by
  have hvc : v ∉ ((n, true) :: c).map Prod.fst := fun hm => hv (h.mem_iff.1 hm)
  have hfullc : cap ≤ ((n, true) :: c).length := by rw [h.length_eq]; exact hfull
  obtain ⟨hnd, heq⟩ : (n :: c.map Prod.fst).Nodup ∧ q.map Prod.fst = c.map Prod.fst := by
    generalize hq₀ : q ++ [(n, true)] = q₀ at h
    cases h with
    | cons hnd heq => exact ⟨hnd, List.append_inj_left' hq₀ rfl ▸ heq⟩
  have hndc := (List.nodup_cons.1 hnd).2
  have hn : ∀ p' ∈ q.map Prod.fst, n ≠ p' := by
    rintro p' hp' rfl
    rw [heq] at hp'
    exact (List.nodup_cons.1 hnd).1 hp'
  rcases all_or_first q with hallq | ⟨pre', p', post', hq, hpre'⟩
  · obtain ⟨⟨p', b⟩, r, hq⟩ : ∃ e r, q = e :: r := List.exists_cons_of_ne_nil hne
    rw [refer_all hv hfull hq hallq]
    rcases all_or_first c with hallc | ⟨pre, p, post, hc, hpre⟩
    · have hnot : ¬SameChoice c q := by
        rintro (⟨p, hp, -⟩ | ⟨-, p, hp⟩)
        · rw [unreferenced_of_all hallc] at hp
          cases hp
        · cases hallc _ (List.mem_of_mem_head? hp)
      rw [referInPlace_all hvc hfullc hallc]
      exact ⟨⟨n, p', rfl, rfl, iff_of_false (hn p' (by rw [hq]; exact List.mem_cons_self)) hnot⟩,
        fun hsame => absurd hsame hnot⟩
    · obtain ⟨hiff, hpages⟩ := sameChoice_of_all hallq hq hc hpre hndc heq
      rw [referInPlace_first hvc hfullc hc hpre]
      refine ⟨⟨p, p', rfl, rfl, hiff.symm⟩, fun hsame => ?_⟩
      obtain ⟨rfl, hr⟩ := hpages (hiff.1 hsame)
      rw [hc, pages_append] at hnd
      rw [hc, List.map_cons, pages_append] at hvc
      refine .cons ?_ ?_
      · rw [pages_append, pages_clear]
        exact nodup_replace hnd hvc
      · simp [hr, clear, Function.comp_def]
  · rw [refer_first hv hfull hq hpre']
    rcases all_or_first c with hallc | ⟨pre, p, post, hc, hpre⟩
    · have hnot : ¬SameChoice c q := by
        rintro (⟨p, hp, -⟩ | ⟨hall, -⟩)
        · rw [unreferenced_of_all hallc] at hp
          cases hp
        · cases hall (p', false) (by rw [hq]; simp)
      rw [referInPlace_all hvc hfullc hallc]
      exact ⟨⟨n, p', rfl, rfl, iff_of_false (hn p' (by rw [hq]; simp)) hnot⟩, fun hsame => absurd hsame hnot⟩
    · obtain ⟨hiff, hpages⟩ := sameChoice_of_first hq hpre' hc hpre hndc heq
      rw [referInPlace_first hvc hfullc hc hpre]
      refine ⟨⟨p, p', rfl, rfl, hiff.symm⟩, fun hsame => ?_⟩
      obtain ⟨hl, hr⟩ := hpages (hiff.1 hsame)
      rw [hc, pages_append] at hnd
      rw [hc, List.map_cons, pages_append] at hvc
      refine .cons ?_ ?_
      · rw [pages_append, pages_clear]
        exact nodup_replace hnd hvc
      · simp [hl, hr, clear, Function.comp_def]

/-- Second chance does not evict the page at the rear of a queue of more than one page. -/
theorem refer_victim_ne (hnd : ((q ++ [(n, true)]).map Prod.fst).Nodup) (hne : q ≠ []) :
    (refer cap (q ++ [(n, true)]) v).1 ≠ some n := by
  rw [pages_append, List.nodup_append] at hnd
  have hn : ∀ p ∈ q.map Prod.fst, p ≠ n := fun p hp => hnd.2.2 p hp n (by simp)
  by_cases hv : v ∈ (q ++ [(n, true)]).map Prod.fst
  · rw [refer, if_pos hv]
    simp
  by_cases hroom : (q ++ [(n, true)]).length < cap
  · rw [refer, if_neg hv, if_pos hroom]
    simp
  rcases all_or_first q with hall | ⟨pre, p, post, hq, hpre⟩
  · obtain ⟨⟨p, b⟩, r, hq⟩ : ∃ e r, q = e :: r := List.exists_cons_of_ne_nil hne
    rw [refer_all hv (by omega) hq hall]
    exact fun h => hn p (by simp [hq]) (Option.some.inj h)
  · rw [refer_first hv (by omega) hq hpre]
    exact fun h => hn p (by simp [hq]) (Option.some.inj h)

end Edaf35.SecondChance
