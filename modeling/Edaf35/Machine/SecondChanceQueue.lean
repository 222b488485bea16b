import Edaf35.Lib.Ring
import Edaf35.Lib.SecondChance
import Edaf35.Machine.SwapSpace

/-!
# The second-chance policy as a queue

Read round the frames from the hand of `second_chance_replace`, the coremap is a queue whose head is the page loaded
last: `second_chance_replace` leaves its hand at the frame of the page evicted, into which the new page is loaded.  So
the policy is the rule `referInPlace`, and not the second-chance rule `refer` that appends a new page at the rear.
-/

namespace Edaf35.Machine

open SecondChance

variable {s s' : Paging Hand} {v : Nat} {a : Access} {as : List Access} {b : Option UInt32}

/-- The owners of the frames with their referenced bits, from the hand on. -/
def framesOf (s : Paging Hand) : List (Option (Nat × Bool)) :=
  turn (fun f => (s.coremap f).owner.map fun v => (v, (s.pageTable v).referenced)) ramPages s.static

/-- The frames that hold the queue `c`: the free ones follow the head. -/
def layout : Queue Nat → List (Option (Nat × Bool))
  | [] => List.replicate ramPages none
  | e :: c => some e :: (List.replicate (ramPages - (c.length + 1)) none ++ c.map some)

/-- The frames hold the queue `c`, whose head was referenced. -/
structure Holds (s : Paging Hand) (c : Queue Nat) : Prop where
  frames : framesOf s = layout c
  length_le : c.length ≤ ramPages
  head : ∀ e, c.head? = some e → e.2 = true

private theorem some_mem_layout {c : Queue Nat} {e : Nat × Bool} : some e ∈ layout c ↔ e ∈ c := by
  cases c with
  | nil => simp [layout]
  | cons e' c => simp [layout]

theorem layout_full {c : Queue Nat} (h : c.length = ramPages) : layout c = c.map some := by
  cases c with
  | nil => cases h
  | cons e c =>
    rw [List.length_cons] at h
    rw [layout, h, Nat.sub_self]
    rfl

private theorem layout_touch (v : Nat) (c : Queue Nat) :
    layout (touch v c) = (layout c).map (Option.map fun e => if e.1 = v then (v, true) else e) := by
  cases c with
  | nil => simp [layout, touch]
  | cons e c =>
    rw [touch, List.map_cons, layout, layout, List.length_map, List.map_cons, List.map_append, List.map_map,
      List.map_replicate, List.map_map]
    rfl

/-- The pages in the queue are the resident ones. -/
theorem Holds.mem_iff {c : Queue Nat} (h : Holds s c) (hi : RepInv none s) (hv : v < nPages) :
    v ∈ c.map Prod.fst ↔ (s.pageTable v).inmemory = true := by
  constructor
  · intro hm
    obtain ⟨⟨x, b⟩, he, rfl⟩ := List.mem_map.1 hm
    have hframe := some_mem_layout.2 he
    rw [← h.frames, framesOf, mem_turn s.static.isLt] at hframe
    obtain ⟨f, hf, hx⟩ := hframe
    obtain ⟨w, hw, hwx⟩ := Option.map_eq_some_iff.1 hx
    rw [Prod.mk.injEq] at hwx
    obtain ⟨rfl, -⟩ := hwx
    exact ((hi.owner_iff f w hf (by simp)).1 hw).2.1
  · intro hm
    have howner := (hi.owner_iff _ v (hi.frame_lt v hv hm).1 (by simp)).2 ⟨hv, hm, rfl⟩
    have hframe : some (v, (s.pageTable v).referenced) ∈ layout c := by
      rw [← h.frames, framesOf, mem_turn s.static.isLt]
      exact ⟨_, (hi.frame_lt v hv hm).1, by rw [howner]; rfl⟩
    exact List.mem_map.2 ⟨_, some_mem_layout.1 hframe, rfl⟩

/-! ### The loop of `second_chance_replace` -/

private theorem static_add_one (h : Hand) : ((h + 1 : Hand) : Nat) = (h + 1) % ramPages := by
  rw [Fin.val_add]
  rfl

/-- The owner of the frame under the hand. -/
private theorem framesOf_head {e : Option (Nat × Bool)} {t : List (Option (Nat × Bool))} (h : framesOf s = e :: t) :
    (s.coremap s.static).owner = e.map Prod.fst ∧ ∀ p b, e = some (p, b) → (s.pageTable p).referenced = b := by
  have hhead := turn_head s.static.isLt h
  cases ho : (s.coremap s.static).owner with
  | none =>
    rw [ho] at hhead
    rw [← hhead]
    exact ⟨rfl, fun p b he => by cases he⟩
  | some w =>
    rw [ho] at hhead
    rw [← hhead]
    exact ⟨rfl, fun p b he => by cases he; rfl⟩

private theorem framesOf_passOver {p : Nat} {b : Bool} {t : List (Option (Nat × Bool))} (hi : RepInv none s)
    (h : framesOf s = some (p, b) :: t) : framesOf (passOver s p) = t ++ [some (p, false)] := by
  have howner : (s.coremap s.static).owner = some p := (framesOf_head h).1
  have hp := (hi.owner_iff _ p s.static.isLt (by simp)).1 howner
  have hkeep : ∀ f, f < ramPages → f ≠ s.static →
      ((s.coremap f).owner.map fun v => (v, ((passOver s p).pageTable v).referenced)) =
        (s.coremap f).owner.map fun v => (v, (s.pageTable v).referenced) := by
    intro f hf hne
    cases ho : (s.coremap f).owner with
    | none => rfl
    | some w =>
      have hw : w ≠ p := by
        rintro rfl
        exact hne (((hi.owner_iff f w hf (by simp)).1 ho).2.2.symm.trans hp.2.2)
      simp [passOver, setEntry_pageTable, hw]
  have hhead : ((s.coremap s.static).owner.map fun v => (v, ((passOver s p).pageTable v).referenced)) =
      some (p, false) := by
    rw [howner]
    simp [passOver, setEntry_pageTable]
  have hturn := (turn_congr s.static.isLt hkeep h).trans (congrArg (· :: t) hhead)
  show turn _ ramPages ((s.static + 1 : Hand) : Nat) = _
  rw [static_add_one]
  exact turn_add_one s.static.isLt hturn

/-- The loop on full frames. -/
private theorem framesOf_loop {c : Queue Nat} (hi : RepInv none s) (h : framesOf s = c.map some) (fuel : Nat) :
    framesOf (secondChanceLoop fuel s) = (rotate fuel c).map some := by
  induction fuel generalizing s c with
  | zero => cases c <;> exact h
  | succ fuel ih =>
    cases c with
    | nil =>
      have hlen := length_turn (fun f => (s.coremap f).owner.map fun v => (v, (s.pageTable v).referenced)) ramPages
        s.static
      change (framesOf s).length = _ at hlen
      rw [h] at hlen
      cases hlen
    | cons e c =>
      obtain ⟨p, b⟩ := e
      obtain ⟨howner, href⟩ := framesOf_head h
      have hb := href p b rfl
      rw [secondChanceLoop, howner]
      cases b with
      | true =>
        simp only [Option.map_some, hb, if_true]
        rw [rotate]
        apply ih ((passOver_sameButReferenced s p).toSameStore.repInv hi)
        rw [framesOf_passOver hi h, List.map_append]
        rfl
      | false =>
        simp only [Option.map_some, hb, Bool.false_eq_true, if_false]
        exact h

/-- The loop stops at a free frame. -/
private theorem loop_of_free {t : List (Option (Nat × Bool))} (h : framesOf s = none :: t) (fuel : Nat) :
    secondChanceLoop fuel s = s := by
  cases fuel with
  | zero => rfl
  | succ fuel =>
    rw [secondChanceLoop, (framesOf_head h).1]
    rfl

/-! ### One access -/

private theorem framesOf_start (a : Access) (s : Paging Hand) : framesOf (countFault (a.start s)) = framesOf s := by
  cases a <;> rfl

private theorem countFault_start_sameStore (a : Access) (s : Paging Hand) :
    SameStore s (countFault (a.start s)) := by
  cases a <;> exact ⟨rfl, rfl, rfl, rfl, fun _ => rfl, fun _ => rfl, fun _ => rfl, fun _ => rfl⟩

/-- A fault evicts the owner of the frame at which the loop ends, and puts the page there. -/
private theorem framesOf_fault {e : Option (Nat × Bool)} {t : List (Option (Nat × Bool))} (hi : RepInv none s)
    (hm : (s.pageTable a.page).inmemory = false)
    (hloop : framesOf (secondChanceLoop (ramPages + 1) (countFault (a.start s))) = e :: t)
    (h : access secondChance s a = some (b, s')) :
    victim secondChance s a = e.map Prod.fst ∧ framesOf s' = some (a.page, true) :: t := by
  have hr : secondChance.replace (countFault (a.start s)) =
      (((secondChanceLoop (ramPages + 1) (countFault (a.start s))).static : Nat),
        secondChanceLoop (ramPages + 1) (countFault (a.start s))) := rfl
  obtain ⟨hstatic, howner, href⟩ := access_fault hm hr h
  have hsame := (secondChanceLoop_sameButReferenced (ramPages + 1) (countFault (a.start s))).toSameStore
  have hi₁ := hsame.repInv ((countFault_start_sameStore a s).repInv hi)
  have hm₁ : ((secondChanceLoop (ramPages + 1) (countFault (a.start s))).pageTable a.page).inmemory = false := by
    rw [hsame.inmemory, (countFault_start_sameStore a s).inmemory]
    exact hm
  generalize secondChanceLoop (ramPages + 1) (countFault (a.start s)) = s₁ at hloop hr hstatic howner href hi₁ hm₁
  refine ⟨by rw [victim_of_fault hm hr]; exact (framesOf_head hloop).1, ?_⟩
  have hkeep : ∀ f, f < ramPages → f ≠ s₁.static →
      ((s'.coremap f).owner.map fun v => (v, (s'.pageTable v).referenced)) =
        (s₁.coremap f).owner.map fun v => (v, (s₁.pageTable v).referenced) := by
    intro f hf hne
    rw [howner, if_neg hne]
    cases ho : (s₁.coremap f).owner with
    | none => rfl
    | some w =>
      have hw : w ≠ a.page := by
        rintro rfl
        rw [((hi₁.owner_iff f a.page hf (by simp)).1 ho).2.1] at hm₁
        cases hm₁
      simp [href, hw]
  have hhead : ((s'.coremap s₁.static).owner.map fun v => (v, (s'.pageTable v).referenced)) =
      some (a.page, true) := by
    rw [howner, if_pos rfl]
    simp [href]
  show turn _ ramPages ((s'.static : Hand) : Nat) = _
  rw [hstatic]
  exact (turn_congr s₁.static.isLt hkeep hloop).trans (congrArg (· :: t) hhead)

/-- A hit sets the bit of the page. -/
private theorem Holds.hit {c : Queue Nat} (hc : Holds s c) (hm : (s.pageTable a.page).inmemory = true)
    (h : access secondChance s a = some (b, s')) : Holds s' (touch a.page c) := by
  obtain ⟨hstatic, hcore, href⟩ := access_hit hm h
  have htouch : framesOf s' = layout (touch a.page c) := by
    rw [layout_touch, ← hc.frames, framesOf, framesOf, turn, turn, List.map_map, hstatic]
    apply List.map_congr_left
    intro i _
    rw [Function.comp_apply, hcore, Option.map_map]
    refine congrArg (fun φ => Option.map φ _) (funext fun w => ?_)
    rw [Function.comp_apply, href]
    split
    · next hw => rw [hw]
    · rfl
  refine ⟨htouch, by rw [touch, List.length_map]; exact hc.length_le, ?_⟩
  intro e he
  cases c with
  | nil => cases he
  | cons e' c =>
    rw [touch, List.map_cons, List.head?_cons, Option.some_inj] at he
    rw [← he]
    split
    · rfl
    · exact hc.head _ rfl

private theorem Holds.start {c : Queue Nat} (hc : Holds s c) (a : Access) :
    framesOf (countFault (a.start s)) = layout c := (framesOf_start a s).trans hc.frames

/-- The first fault fills a free frame. -/
private theorem Holds.fault_nil (hc : Holds s []) (hi : RepInv none s) (hm : (s.pageTable a.page).inmemory = false)
    (h : access secondChance s a = some (b, s')) : victim secondChance s a = none ∧ Holds s' [(a.page, true)] := by
  have hframes := hc.start a
  have hloop := (congrArg framesOf (loop_of_free hframes (ramPages + 1))).trans hframes
  obtain ⟨hv, hf⟩ := framesOf_fault hi hm hloop h
  exact ⟨hv, hf, (by decide : 1 ≤ ramPages), fun e he => by cases he; rfl⟩

/-- As long as there are free frames a fault passes over the page loaded last, and fills the frame after it. -/
private theorem Holds.fault_room {p : Nat} {c : Queue Nat} (hc : Holds s ((p, true) :: c)) (hi : RepInv none s)
    (hm : (s.pageTable a.page).inmemory = false) (hroom : c.length + 1 < ramPages)
    (h : access secondChance s a = some (b, s')) :
    victim secondChance s a = none ∧ Holds s' ((a.page, true) :: (c ++ [(p, false)])) := by
  have hframes := hc.start a
  obtain ⟨k, hk⟩ : ∃ k, ramPages - (c.length + 1) = k + 1 := ⟨ramPages - (c.length + 1) - 1, by omega⟩
  rw [layout, hk, List.replicate_succ, List.cons_append] at hframes
  have hpass := framesOf_passOver ((countFault_start_sameStore a s).repInv hi) hframes
  have hloop : framesOf (secondChanceLoop (ramPages + 1) (countFault (a.start s))) =
      none :: (List.replicate k none ++ c.map some ++ [some (p, false)]) := by
    obtain ⟨howner, href⟩ := framesOf_head hframes
    rw [secondChanceLoop, howner]
    simp only [Option.map_some, href p true rfl, if_true]
    rw [loop_of_free hpass]
    exact hpass
  obtain ⟨hv, hf⟩ := framesOf_fault hi hm hloop h
  refine ⟨hv, ?_, by rw [List.length_cons, List.length_append]; exact hroom, fun e he => by cases he; rfl⟩
  have hk' : ramPages - ((c ++ [(p, false)]).length + 1) = k := by
    rw [List.length_append, List.length_singleton]
    omega
  rw [hf, layout, hk', List.map_append, ← List.append_assoc]
  rfl

/-- With all frames taken, a fault evicts the page at the front of the rotated queue. -/
private theorem Holds.fault_full {c r : Queue Nat} {e : Nat × Bool} (hc : Holds s c) (hi : RepInv none s)
    (hm : (s.pageTable a.page).inmemory = false) (hlen : c.length = ramPages) (hrot : rotate c.length c = e :: r)
    (h : access secondChance s a = some (b, s')) :
    victim secondChance s a = some e.1 ∧ Holds s' ((a.page, true) :: r) := by
  have hframes := hc.start a
  rw [layout_full hlen] at hframes
  have hloop := framesOf_loop ((countFault_start_sameStore a s).repInv hi) hframes (ramPages + 1)
  rw [rotate_of_length_le (by omega), hrot] at hloop
  have hrlen : (e :: r).length = ramPages := by rw [← hrot, length_rotate, hlen]
  obtain ⟨hv, hf⟩ := framesOf_fault hi hm hloop h
  have hfull : layout ((a.page, true) :: r) = some (a.page, true) :: r.map some := layout_full hrlen
  exact ⟨hv, hf.trans hfull.symm, Nat.le_of_eq hrlen, fun e he => by cases he; rfl⟩

/-- One access is a reference under the rule `referInPlace`. -/
theorem Holds.inPlace {c : Queue Nat} (hc : Holds s c) (hi : RepInv none s) (ha : a.InRange)
    (h : access secondChance s a = some (b, s')) :
    victim secondChance s a = (referInPlace ramPages c a.page).1 ∧ Holds s' (referInPlace ramPages c a.page).2 := by
  unfold referInPlace
  by_cases hm : (s.pageTable a.page).inmemory = true
  · rw [if_pos ((hc.mem_iff hi (Access.page_lt ha)).2 hm), victim_of_hit hm]
    exact ⟨rfl, hc.hit hm h⟩
  · have hnot : a.page ∉ c.map Prod.fst := fun hmem => hm ((hc.mem_iff hi (Access.page_lt ha)).1 hmem)
    have hm : (s.pageTable a.page).inmemory = false := by simpa using hm
    rw [if_neg hnot]
    by_cases hroom : c.length < ramPages
    · rw [if_pos hroom]
      cases c with
      | nil => exact hc.fault_nil hi hm h
      | cons e c =>
        obtain ⟨p, b'⟩ := e
        obtain rfl : b' = true := hc.head _ rfl
        exact hc.fault_room hi hm hroom h
    · rw [if_neg hroom]
      have hlen : c.length = ramPages := Nat.le_antisymm hc.length_le (Nat.le_of_not_lt hroom)
      cases hrot : rotate c.length c with
      | nil =>
        have hrlen : (rotate c.length c).length = ramPages := by rw [length_rotate, hlen]
        rw [hrot] at hrlen
        cases hrlen
      | cons e r => exact hc.fault_full hi hm hlen hrot h

/-! ### Whole runs -/

private theorem Holds.referenced {c : Queue Nat} (h : Holds s c) {e : Nat × Bool} (he : e ∈ c) :
    (s.pageTable e.1).referenced = e.2 := by
  have hframe := some_mem_layout.2 he
  rw [← h.frames, framesOf, mem_turn s.static.isLt] at hframe
  obtain ⟨f, hf, hx⟩ := hframe
  obtain ⟨w, -, rfl⟩ := Option.map_eq_some_iff.1 hx
  rfl

/-- The second-chance queue `q` and the page table lead to the same choice: with the pages of `q` but the last, and
the bits of the page table in place of those of `q`. -/
def ChoiceAgrees (s : Paging Hand) (q : Queue Nat) : Prop :=
  SameChoice (q.dropLast.map fun e => (e.1, (s.pageTable e.1).referenced)) q.dropLast

instance (s : Paging Hand) (q : Queue Nat) : Decidable (ChoiceAgrees s q) :=
  inferInstanceAs (Decidable (SameChoice _ _))

/-- At every fault of the run with no free frame the choice is the same. -/
def ChoicesAgree (s : Paging Hand) (q : Queue Nat) (as : List Access) : Prop :=
  ∀ l a l' ws s', as = l ++ a :: l' → run (access secondChance) s l = some (ws, s') →
    (s'.pageTable a.page).inmemory = false → (SecondChance.after ramPages q (l.map Access.page)).length = ramPages →
    ChoiceAgrees s' (SecondChance.after ramPages q (l.map Access.page))

private theorem choicesAgree_cons {q : Queue Nat} (h : access secondChance s a = some (b, s')) :
    ChoicesAgree s q (a :: as) ↔
      ((s.pageTable a.page).inmemory = false → q.length = ramPages → ChoiceAgrees s q) ∧
        ChoicesAgree s' (refer ramPages q a.page).2 as := by
  constructor
  · intro hall
    refine ⟨fun hm hlen => hall [] a as [] s rfl rfl hm hlen, fun l a' l' ws s₂ heq hrun => ?_⟩
    exact hall (a :: l) a' l' (b :: ws) s₂ (by rw [heq]; rfl) (run_cons.2 ⟨b, s', ws, h, hrun, rfl⟩)
  · rintro ⟨hfirst, hrest⟩ l a' l' ws s₂ heq hrun
    cases l with
    | nil =>
      cases hrun
      cases heq
      exact hfirst
    | cons a₁ l =>
      rw [List.cons_append, List.cons.injEq] at heq
      obtain ⟨rfl, heq⟩ := heq
      obtain ⟨b', s₁, bs, hs, hr, -⟩ := run_cons.1 hrun
      rw [h, Option.some_inj, Prod.mk.injEq] at hs
      obtain ⟨-, rfl⟩ := hs
      exact hrest l a' l' bs s₂ heq hr

private theorem choicesAgree_nil (s : Paging Hand) (q : Queue Nat) : ChoicesAgree s q [] := by
  intro l a l' _ _ heq
  cases l with
  | nil | cons => cases heq

/-- An access that fails ends the run. -/
private theorem choicesAgree_stuck {q : Queue Nat} (h : access secondChance s a = none) :
    ChoicesAgree s q (a :: as) ↔
      ((s.pageTable a.page).inmemory = false → q.length = ramPages → ChoiceAgrees s q) := by
  refine ⟨fun hall hm hlen => hall [] a as [] s rfl rfl hm hlen, fun hfirst l a' l' ws s₂ heq hrun => ?_⟩
  cases l with
  | nil =>
    cases hrun
    cases heq
    exact hfirst
  | cons a₁ l =>
    rw [List.cons_append, List.cons.injEq] at heq
    obtain ⟨rfl, -⟩ := heq
    obtain ⟨b', s₁, bs, hs, -⟩ := run_cons.1 hrun
    cases h.symm.trans hs

instance decidableChoicesAgree : (as : List Access) → (s : Paging Hand) → (q : Queue Nat) →
    Decidable (ChoicesAgree s q as)
  | [], s, q => isTrue (choicesAgree_nil s q)
  | a :: as, s, q =>
    match h : access secondChance s a with
    | none => decidable_of_iff _ (choicesAgree_stuck h).symm
    | some (_, s') =>
      have := decidableChoicesAgree as s' (refer ramPages q a.page).2
      decidable_of_iff _ (choicesAgree_cons h).symm

/-- One access of the policy beside one reference of the second-chance queue. -/
private theorem Holds.step {c q : Queue Nat} (hc : Holds s c) (hal : Aligned c q) (hi : RepInv none s) (ha : a.InRange)
    (h : access secondChance s a = some (b, s')) :
    ((victim secondChance s a).isSome = (refer ramPages q a.page).1.isSome) ∧
    (victim secondChance s a = (refer ramPages q a.page).1 ↔
      ((s.pageTable a.page).inmemory = false → q.length = ramPages → ChoiceAgrees s q)) ∧
    (victim secondChance s a = (refer ramPages q a.page).1 →
      Holds s' (referInPlace ramPages c a.page).2 ∧
        Aligned (referInPlace ramPages c a.page).2 (refer ramPages q a.page).2) := by
  obtain ⟨hv, hholds⟩ := hc.inPlace hi ha h
  have hmem := hc.mem_iff hi (Access.page_lt ha)
  rw [hv]
  by_cases hin : a.page ∈ q.map Prod.fst
  · have hinc := hal.mem_iff.2 hin
    have hm := hmem.1 hinc
    have hq : refer ramPages q a.page = (none, touch a.page q) := by rw [refer, if_pos hin]
    have hp : referInPlace ramPages c a.page = (none, touch a.page c) := by unfold referInPlace; rw [if_pos hinc]
    rw [hp] at hholds ⊢
    rw [hq]
    exact ⟨rfl, iff_of_true rfl fun hnot => absurd hnot (by rw [hm]; decide), fun _ => ⟨hholds, hal.hit a.page⟩⟩
  · have hm : (s.pageTable a.page).inmemory = false := by
      rw [← Bool.not_eq_true, ← hmem, hal.mem_iff]
      exact hin
    by_cases hroom : q.length < ramPages
    · obtain ⟨hvc, hvq, hal'⟩ := hal.fill hin hroom
      rw [hvc, hvq]
      exact ⟨rfl, iff_of_true rfl fun _ hlen => absurd hlen (Nat.ne_of_lt hroom), fun _ => ⟨hholds, hal'⟩⟩
    · have hlen : q.length = ramPages := Nat.le_antisymm (hal.length_eq ▸ hc.length_le) (by omega)
      have hbits : ∀ {e}, e ∈ c → (s.pageTable e.1).referenced = e.2 := hc.referenced
      cases hal with
      | nil => cases hlen
      | @cons n c q hnd heq =>
        have hne : q ≠ [] := by
          rintro rfl
          cases hlen
        have hmachine : (q.map fun e => (e.1, (s.pageTable e.1).referenced)) = c := by
          have hc' : c.map (fun e => (e.1, (s.pageTable e.1).referenced)) = c := by
            conv_rhs => rw [← List.map_id c]
            exact List.map_congr_left fun e he => Prod.ext rfl (hbits (List.mem_cons_of_mem _ he))
          rw [← hc']
          have hpages := congrArg (List.map fun p => (p, (s.pageTable p).referenced)) heq
          rw [List.map_map, List.map_map] at hpages
          exact hpages
        have hagree : ChoiceAgrees s (q ++ [(n, true)]) ↔ SameChoice c q := by
          rw [ChoiceAgrees, List.dropLast_concat, hmachine]
        obtain ⟨⟨p, p', hp, hp', hiff⟩, hal'⟩ := (Aligned.cons hnd heq).full hne hin (Nat.le_of_eq hlen.symm)
        rw [hp, hp', Option.some_inj, hiff]
        exact ⟨rfl, ⟨fun hsame _ _ => hagree.2 hsame, fun hall => hagree.1 (hall hm hlen)⟩,
          fun hsame => ⟨hholds, hal' hsame⟩⟩

/-- The run of the policy from frames that hold `c` beside that of the second-chance queue from `q`. -/
private theorem evictions_eq_evicted_iff {c q : Queue Nat} {ws : List (Option UInt32)} (hc : Holds s c)
    (hal : Aligned c q) (hi : RepInv none s) (hin : ∀ a ∈ as, a.InRange)
    (hrun : run (access secondChance) s as = some (ws, s')) :
    evictions secondChance s as = evicted ramPages q (as.map Access.page) ↔ ChoicesAgree s q as := by
  induction as generalizing s c q ws with
  | nil => exact iff_of_true rfl fun l a l' _ _ heq => by simp at heq
  | cons a as ih =>
    obtain ⟨b, s₁, bs, hs, hr, -⟩ := run_cons.1 hrun
    have ha := hin a List.mem_cons_self
    obtain ⟨hsome, hiff, hnext⟩ := hc.step hal hi ha hs
    rw [choicesAgree_cons hs, evictions_cons hs, List.map_cons, evicted, ← hiff]
    have hrest := fun heq => ih (hnext heq).1 (hnext heq).2 (access_repInv hi ha hs)
      (fun x hx => hin x (List.mem_cons_of_mem _ hx)) hr
    constructor
    · intro hlists
      -- both lists start with a page or neither does
      have hvictim : victim secondChance s a = (refer ramPages q a.page).1 := by
        cases hv : victim secondChance s a with
        | none =>
          rw [hv] at hsome
          exact (Option.not_isSome_iff_eq_none.1 (by rw [← hsome]; simp)).symm
        | some p =>
          rw [hv] at hsome hlists
          obtain ⟨p', hp'⟩ := Option.isSome_iff_exists.1 hsome.symm
          rw [hp'] at hlists ⊢
          rw [(List.cons.inj hlists).1]
      rw [hvictim] at hlists
      exact ⟨hvictim, (hrest hvictim).1 (List.append_cancel_left hlists)⟩
    · rintro ⟨hvictim, hall⟩
      rw [hvictim, (hrest hvictim).2 hall]

/-- Second chance does not evict the page loaded last. -/
private theorem victim_ne_head {c q : Queue Nat} {n : Nat} (hal : Aligned ((n, true) :: c) q) :
    (refer ramPages q v).1 ≠ some n := by
  cases hal with
  | @cons n c q hnd heq =>
    cases q with
    | nil =>
      rw [List.nil_append, refer]
      split
      · simp
      · rw [if_pos (by show 1 < ramPages; decide)]
        simp
    | cons e q =>
      refine refer_victim_ne ?_ (List.cons_ne_nil _ _)
      rw [pages_append, heq]
      exact (List.perm_append_singleton n _).nodup_iff.2 hnd

/-- In a run whose choices agree no fault evicts the page that the fault before it loaded, which is the head of `c`. -/
private theorem faults_isChain {c q : Queue Nat} {ws : List (Option UInt32)} (hc : Holds s c) (hal : Aligned c q)
    (hi : RepInv none s) (hin : ∀ a ∈ as, a.InRange) (hrun : run (access secondChance) s as = some (ws, s'))
    (hall : ChoicesAgree s q as) {l : List (Nat × Option Nat)}
    (hl : l = [] ∨ ∃ n x c', l = [(n, x)] ∧ c = (n, true) :: c') :
    (l ++ faults secondChance s as).IsChain fun e e' => e'.2 ≠ some e.1 := by
  induction as generalizing s c q ws l with
  | nil =>
    rcases hl with rfl | ⟨n, x, c', rfl, -⟩
    · exact .nil
    · exact .singleton _
  | cons a as ih =>
    obtain ⟨b, s₁, bs, hs, hr, -⟩ := run_cons.1 hrun
    have ha := hin a List.mem_cons_self
    obtain ⟨-, hiff, hnext⟩ := hc.step hal hi ha hs
    rw [choicesAgree_cons hs, ← hiff] at hall
    obtain ⟨hvictim, hall⟩ := hall
    have hrest := fun {l} => ih (hnext hvictim).1 (hnext hvictim).2 (access_repInv hi ha hs)
      (fun x hx => hin x (List.mem_cons_of_mem _ hx)) hr hall (l := l)
    have hmem := hc.mem_iff hi (Access.page_lt ha)
    rw [faults_cons hs]
    by_cases hm : (s.pageTable a.page).inmemory = true
    · rw [if_pos hm]
      refine hrest (hl.imp_right ?_)
      rintro ⟨n, x, c', rfl, rfl⟩
      refine ⟨n, x, touch a.page c', rfl, ?_⟩
      unfold referInPlace
      rw [if_pos (hmem.2 hm)]
      show touch a.page ([(n, true)] ++ c') = _
      rw [touch_append, touch_rear]
      rfl
    · rw [if_neg hm]
      obtain ⟨c', hc'⟩ := referInPlace_head ramPages fun hin => hm (hmem.1 hin)
      have htail := hrest (Or.inr ⟨a.page, victim secondChance s a, c', rfl, hc'⟩)
      rcases hl with rfl | ⟨n, x, c₀, rfl, rfl⟩
      · exact htail
      · refine .cons_cons ?_ htail
        rw [hvictim]
        exact victim_ne_head hal

theorem holds_initial : Holds (initial 0) [] := ⟨by decide, by decide, fun e he => by cases he⟩

/-- The pages that the policy evicts are those of the second-chance queue if and only if at every fault with no free
frame the page table and the queue lead to the same choice; then no fault evicts the page that the fault before it
loaded. -/
theorem evictions_eq_iff {ws : List (Option UInt32)} (hin : ∀ a ∈ as, a.InRange)
    (hrun : run (access secondChance) (initial 0) as = some (ws, s)) :
    (evictions secondChance (initial 0) as = evicted ramPages [] (as.map Access.page) ↔
        ChoicesAgree (initial 0) [] as) ∧
      (ChoicesAgree (initial 0) [] as →
        (faults secondChance (initial 0) as).IsChain fun e e' => e'.2 ≠ some e.1) :=
  ⟨evictions_eq_evicted_iff holds_initial .nil (repInv_initial 0) hin hrun,
    fun hall => faults_isChain holds_initial .nil (repInv_initial 0) hin hrun hall (Or.inl rfl)⟩

/-- Ten pages are read one after the other. -/
theorem evictions_eq_iff_sweep : (run (access secondChance) (initial 0) (sweep 10)).isSome ∧
    evictions secondChance (initial 0) (sweep 10) = evicted ramPages [] ((sweep 10).map Access.page) := by
  have hsome : (run (access secondChance) (initial 0) (sweep 10)).isSome = true := by decide
  have hagree : ChoicesAgree (initial 0) [] (sweep 10) := by decide
  obtain ⟨⟨ws, s⟩, hrun⟩ := Option.isSome_iff_exists.1 hsome
  exact ⟨hsome, (evictions_eq_iff (by decide) hrun).1.2 hagree⟩

/-- Nine pages are read, then the seven of them that stayed from the first eight, then a tenth page. -/
def rereads : List Access := sweep 9 ++ (sweep 8).tail ++ [.read 36]

/-- The policy evicts the ninth page, which the fault before loaded; the second-chance queue evicts the second page. -/
theorem evictions_ne_evicted : (run (access secondChance) (initial 0) rereads).isSome ∧
    evictions secondChance (initial 0) rereads = [0, 8] ∧
    evicted ramPages [] (rereads.map Access.page) = [0, 1] ∧
    (faults secondChance (initial 0) rereads).drop 8 = [(8, some 0), (9, some 8)] := by
  decide

end Edaf35.Machine
