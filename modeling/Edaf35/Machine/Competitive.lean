import Edaf35.Lib.Competitive
import Edaf35.Lib.SecondChanceWindow
import Edaf35.Machine.PolicyIndependence

/-!
# How far the policies are from the best one

The frames hold at most `RAM_PAGES` pages, whatever the replacement function does, so from one page fault to the next
at most that many pages are used.  While at most `RAM_PAGES` pages are used, `fifo_page_replace` leads to at most
`RAM_PAGES` faults (`fifo_missesAtMost`) and `second_chance_replace` to at most twice as many less two, since it forgets
that a page was referenced one fault after the page was loaded (`secondChance_missesAtMost`).  So on every sequence of
accesses they fault at most that many times as often as any other replacement function, also one that knows the
accesses to come.
-/

namespace Edaf35.Machine

open SecondChance

section Resident

variable {ρ : Type} {P : Policy ρ} {s s' : Paging ρ} {a : Access} {as : List Access} {b : Option UInt32}

/-- The access finds its page not in RAM. -/
def faulting (s : Paging ρ) (a : Access) : Bool := !(s.pageTable a.page).inmemory

private theorem faults_length (P : Policy ρ) (s : Paging ρ) (as : List Access) :
    (faults P s as).length = missCount (access P) faulting s as := by
  induction as generalizing s with
  | nil => rfl
  | cons a as ih =>
    cases h : access P s a with
    | none => simp only [faults, missCount, h, List.length_nil]
    | some answer =>
      obtain ⟨b, s'⟩ := answer
      rw [faults_cons h, missCount_cons h, ← ih s', faulting]
      cases (s.pageTable a.page).inmemory with
      | true => exact (Nat.zero_add _).symm
      | false => exact Nat.add_comm _ 1

/-- After an access its page is in RAM. -/
private theorem access_inmemory (h : access P s a = some (b, s')) : (s'.pageTable a.page).inmemory = true := by
  obtain ⟨s₁, hf, hs⟩ := access_cases h
  obtain rfl : (serve s₁ a).2 = s' := by rw [hs]
  rw [serve_inmemory]
  exact hf.inmemory

/-- A hit leaves the pages in RAM that are there. -/
private theorem access_hit_inmemory (hm : (s.pageTable a.page).inmemory = true) (h : access P s a = some (b, s'))
    (w : Nat) : (s'.pageTable w).inmemory = (s.pageTable w).inmemory := by
  obtain ⟨s₁, hf, hs⟩ := access_cases h
  obtain rfl : (serve s₁ a).2 = s' := by rw [hs]
  rw [← start_pageTable a s] at hm ⊢
  rw [serve_inmemory]
  cases hf with
  | hit => rfl
  | free hnot => rw [hm] at hnot; cases hnot
  | evict hnot => rw [hm] at hnot; cases hnot

/-- Pages that are in RAM at the same time are at most as many as there are frames. -/
private theorem card_le_of_inmemory (hi : RepInv none s) {W : Finset Nat}
    (hW : ∀ v ∈ W, v < nPages ∧ (s.pageTable v).inmemory = true) : W.card ≤ ramPages := by
  rw [← Finset.card_range ramPages]
  refine Finset.card_le_card_of_injOn (fun v => (s.pageTable v).page) ?_ ?_
  · intro v hv
    obtain ⟨hlt, hm⟩ := hW v hv
    exact Finset.mem_coe.2 (Finset.mem_range.2 (hi.frame_lt v hlt hm).1)
  · intro v hv w hw heq
    obtain ⟨hlt, hm⟩ := hW v hv
    obtain ⟨hlt', hm'⟩ := hW w hw
    exact frame_inj hi hlt' hlt hm' hm heq

/-- During hits the pages used are in RAM all the time. -/
private theorem run_hits {ws : List (Option UInt32)} (hi : RepInv none s) (hin : ∀ a ∈ as, a.InRange)
    (hrun : run (access P) s as = some (ws, s')) (hzero : missCount (access P) faulting s as = 0) :
    (∀ v, (s'.pageTable v).inmemory = (s.pageTable v).inmemory) ∧
      ∀ a ∈ as, (s.pageTable a.page).inmemory = true := by
  induction as generalizing s ws with
  | nil =>
    cases hrun
    exact ⟨fun _ => rfl, fun a ha => by cases ha⟩
  | cons a as ih =>
    obtain ⟨b, s₁, ws', hs, hr, -⟩ := run_cons.1 hrun
    rw [missCount_cons hs, Nat.add_eq_zero_iff] at hzero
    have hm : (s.pageTable a.page).inmemory = true := by
      cases hcase : (s.pageTable a.page).inmemory with
      | true => rfl
      | false =>
        rw [faulting, hcase] at hzero
        cases hzero.1
    have hkeep := access_hit_inmemory hm hs
    obtain ⟨hlater, hall⟩ := ih (access_repInv hi (hin a (by simp)) hs) (fun x hx => hin x (by simp [hx])) hr hzero.2
    refine ⟨fun v => (hlater v).trans (hkeep v), fun x hx => ?_⟩
    rcases List.mem_cons.1 hx with rfl | hx
    · exact hm
    · rw [← hkeep]
      exact hall x hx

/-- Whatever the replacement function, the accesses from one fault to the next use at most `RAM_PAGES` pages. -/
private theorem holdsAtMost (P : Policy ρ) :
    HoldsAtMost (access P) faulting (RepInv none) Access.InRange Access.page ramPages := by
  refine ⟨fun s a b s' hi ha h => access_repInv hi ha h, ?_⟩
  intro s a w b s₁ bs s' hi hin hs hrun hzero
  have hi₁ := access_repInv hi (hin a (by simp)) hs
  obtain ⟨-, hall⟩ := run_hits hi₁ (fun x hx => hin x (by simp [hx])) hrun hzero
  apply card_le_of_inmemory hi₁
  intro v hv
  obtain ⟨x, hx, rfl⟩ := List.mem_map.1 (List.mem_toFinset.1 hv)
  refine ⟨Access.page_lt (hin x hx), ?_⟩
  rcases List.mem_cons.1 hx with rfl | hx
  · exact access_inmemory hs
  · exact hall x hx

end Resident

/-! ### First in, first out -/

section Fifo

variable {s s' : Paging Hand} {a : Access} {as : List Access} {b : Option UInt32}

/-- Of pages in `W` only, `n` were loaded, and they are the last ones of the queue. -/
def LoadedLast (W : Finset Nat) (n : Nat) (q : List Nat) : Prop :=
  ∃ l, l <:+ q ∧ l.Nodup ∧ l.length = n ∧ ∀ v ∈ l, v ∈ W

private theorem LoadedLast.le {W : Finset Nat} {n : Nat} {q : List Nat} (h : LoadedLast W n q) : n ≤ W.card := by
  obtain ⟨l, -, hnd, rfl, hW⟩ := h
  rw [← List.toFinset_card_of_nodup hnd]
  exact Finset.card_le_card fun v hv => hW v (List.mem_toFinset.1 hv)

/-- A page that is not in the queue is loaded. -/
private theorem LoadedLast.load {W : Finset Nat} {n v : Nat} {q : List Nat} (h : LoadedLast W n q) (hv : v ∉ q)
    (hW : v ∈ W) (hcard : W.card ≤ ramPages) (hlen : q.length ≤ ramPages) : LoadedLast W (n + 1) (fifoRefer q v).2 := by
  obtain ⟨l, hsuf, hnd, rfl, hl⟩ := h
  have hnew : v ∉ l := fun hin => hv (hsuf.subset hin)
  have hlast : LoadedLast W (l.length + 1) (l ++ [v]) := by
    refine ⟨l ++ [v], List.suffix_refl _, ?_, by simp, ?_⟩
    · exact (List.perm_append_singleton v l).nodup_iff.2 (List.nodup_cons.2 ⟨hnew, hnd⟩)
    · intro w hw
      rcases List.mem_append.1 hw with hw | hw
      · exact hl w hw
      · rwa [List.mem_singleton.1 hw]
  have hle := hlast.le
  obtain ⟨l', hsuf', hnd', hlen', hl'⟩ := hlast
  obtain ⟨t, rfl⟩ := hsuf
  rw [List.length_append] at hlen
  rw [fifoRefer, if_neg hv]
  split
  · exact ⟨l', hsuf'.trans ⟨t, by rw [List.append_assoc]⟩, hnd', hlen', hl'⟩
  · -- the page evicted is none of those loaded
    next hfull =>
    rw [List.length_append] at hfull
    cases t with
    | nil =>
      rw [List.length_nil] at hfull
      omega
    | cons x t =>
      exact ⟨l', hsuf'.trans ⟨t, by rw [List.cons_append, List.tail_cons, List.append_assoc]⟩, hnd', hlen', hl'⟩

/-- Pages in `W` only were used, and `n` of them loaded. -/
def Loading (W : Finset Nat) (n : Nat) (s : Paging Hand) : Prop :=
  RepInv none s ∧ ∃ q, FifoHolds s q ∧ LoadedLast W n q

private theorem Loading.step {W : Finset Nat} {n : Nat} (h : Loading W n s) (hcard : W.card ≤ ramPages) (ha : a.InRange)
    (haW : a.page ∈ W) (hs : access fifo s a = some (b, s')) : Loading W (n + (faulting s a).toNat) s' := by
  obtain ⟨hi, q, hq, hlast⟩ := h
  refine ⟨access_repInv hi ha hs, _, (hq.step hi ha hs).2, ?_⟩
  have hmem := hq.mem_iff hi (Access.page_lt ha)
  cases hm : (s.pageTable a.page).inmemory with
  | true =>
    rw [faulting, hm, fifoRefer, if_pos (hmem.2 hm)]
    exact hlast
  | false =>
    have hnot : a.page ∉ q := by
      intro hin
      rw [hmem.1 hin] at hm
      cases hm
    rw [faulting, hm]
    exact hlast.load hnot haW hcard hq.length_le

/-- While at most `RAM_PAGES` pages are used, at most `RAM_PAGES` faults occur. -/
private theorem fifo_missesAtMost : MissesAtMost (access fifo) faulting (fun s => RepInv none s ∧ ∃ q, FifoHolds s q)
    Access.InRange Access.page ramPages ramPages := by
  constructor
  · rintro s a b s' ⟨hi, q, hq⟩ ha h
    exact ⟨access_repInv hi ha h, _, (hq.step hi ha h).2⟩
  · rintro s w bs s' ⟨hi, q, hq⟩ hin hrun hcard
    obtain ⟨W, hW⟩ : ∃ W, W = (w.map Access.page).toFinset := ⟨_, rfl⟩
    rw [← hW] at hcard
    have hstart : Loading W 0 s := ⟨hi, q, hq, [], List.nil_suffix, List.nodup_nil, rfl, fun v hv => by cases hv⟩
    have hok : ∀ a ∈ w, a.InRange ∧ a.page ∈ W := by
      intro a ha
      rw [hW]
      exact ⟨hin a ha, List.mem_toFinset.2 (List.mem_map_of_mem ha)⟩
    have hend : Loading W (0 + missCount (access fifo) faulting s w) s' :=
      run_missCount hstart (fun n s a b s' h hok hs => h.step hcard hok.1 hok.2 hs) hok hrun
    obtain ⟨-, q', -, hlast⟩ := hend
    rw [Nat.zero_add] at hlast
    exact hlast.le.trans hcard

/-- On every sequence of accesses `fifo_page_replace` leads to at most `RAM_PAGES` times as many page faults as any
other replacement function. -/
theorem fifo_competitive {ρ : Type} (P : Policy ρ) (r : ρ) {ws ws' : List (Option UInt32)} {t : Paging ρ}
    (hin : ∀ a ∈ as, a.InRange) (hrun : run (access fifo) (initial 0) as = some (ws, s))
    (hrun' : run (access P) (initial r) as = some (ws', t)) :
    (faults fifo (initial 0) as).length ≤ ramPages * (faults P (initial r) as).length := by
  rw [faults_length, faults_length]
  exact missCount_le_mul fifo_missesAtMost (holdsAtMost P) ⟨repInv_initial 0, [], fifoHolds_initial⟩
    (repInv_initial r) hin hrun hrun' fun _ _ _ => rfl

/-- Ten pages, read in turn. -/
theorem fifo_competitive_sweep : (faults fifo (initial 0) (sweep 10)).length ≤
    ramPages * (faults secondChance (initial 0) (sweep 10)).length := by
  have hsome : (run (access fifo) (initial 0) (sweep 10)).isSome = true := by decide
  have hsome' : (run (access secondChance) (initial 0) (sweep 10)).isSome = true := by decide
  obtain ⟨⟨ws, s⟩, hrun⟩ := Option.isSome_iff_exists.1 hsome
  obtain ⟨⟨ws', t⟩, hrun'⟩ := Option.isSome_iff_exists.1 hsome'
  exact fifo_competitive secondChance 0 (by decide) hrun hrun'

end Fifo

/-! ### Second chance -/

section SecondChance

variable {s s' : Paging Hand} {a : Access} {as : List Access} {b : Option UInt32}

/-- The frames hold a queue in which no page is twice. -/
def Queued (s : Paging Hand) : Prop := RepInv none s ∧ ∃ c, Holds s c ∧ (c.map Prod.fst).Nodup

/-- Pages in `W` only were used, with `n` faults. -/
def Windowed (W : Finset Nat) (n : Nat) (s : Paging Hand) : Prop :=
  RepInv none s ∧ ∃ c seen, Holds s c ∧ Window ramPages seen n c ∧ seen ⊆ W

private theorem Windowed.step {W : Finset Nat} {n : Nat} (h : Windowed W n s) (hcard : W.card ≤ ramPages)
    (ha : a.InRange) (haW : a.page ∈ W) (hs : access secondChance s a = some (b, s')) :
    Windowed W (n + (faulting s a).toNat) s' := by
  obtain ⟨hi, c, seen, hc, hwindow, hseen⟩ := h
  have hsub : insert a.page seen ⊆ W := Finset.insert_subset haW hseen
  have hmiss : faulting s a = !decide (a.page ∈ c.map Prod.fst) := by
    have hmem := hc.mem_iff hi (Access.page_lt ha)
    cases hm : (s.pageTable a.page).inmemory with
    | true => rw [faulting, hm, decide_eq_true (hmem.2 hm)]
    | false =>
      have hnot : a.page ∉ c.map Prod.fst := by
        intro hin
        rw [hmem.1 hin] at hm
        cases hm
      rw [faulting, hm, decide_eq_false hnot]
  rw [hmiss]
  exact ⟨access_repInv hi ha hs, _, _, (hc.inPlace hi ha hs).2,
    hwindow.step (by decide) ((Finset.card_le_card hsub).trans hcard), hsub⟩

/-- While at most `RAM_PAGES` pages are used, at most `2 * RAM_PAGES - 2` faults occur. -/
private theorem secondChance_missesAtMost :
    MissesAtMost (access secondChance) faulting Queued Access.InRange Access.page ramPages (2 * ramPages - 2) := by
  constructor
  · rintro s a b s' ⟨hi, c, hc, hnd⟩ ha h
    exact ⟨access_repInv hi ha h, _, (hc.inPlace hi ha h).2, referInPlace_nodup hnd ramPages a.page⟩
  · rintro s w bs s' ⟨hi, c, hc, hnd⟩ hin hrun hcard
    obtain ⟨W, hW⟩ : ∃ W, W = (w.map Access.page).toFinset := ⟨_, rfl⟩
    rw [← hW] at hcard
    have hstart : Windowed W 0 s :=
      ⟨hi, c, ∅, hc, window_start (by decide) hnd hc.length_le hc.head, Finset.empty_subset W⟩
    have hok : ∀ a ∈ w, a.InRange ∧ a.page ∈ W := by
      intro a ha
      rw [hW]
      exact ⟨hin a ha, List.mem_toFinset.2 (List.mem_map_of_mem ha)⟩
    have hend : Windowed W (0 + missCount (access secondChance) faulting s w) s' :=
      run_missCount hstart (fun n s a b s' h hok hs => h.step hcard hok.1 hok.2 hs) hok hrun
    obtain ⟨-, c', seen, -, hwindow, -⟩ := hend
    rw [Nat.zero_add] at hwindow
    exact hwindow.misses

/-- On every sequence of accesses `second_chance_replace` leads to at most `2 * RAM_PAGES - 2` times as many page faults
as any other replacement function. -/
theorem secondChance_competitive {ρ : Type} (P : Policy ρ) (r : ρ) {ws ws' : List (Option UInt32)} {t : Paging ρ}
    (hin : ∀ a ∈ as, a.InRange) (hrun : run (access secondChance) (initial 0) as = some (ws, s))
    (hrun' : run (access P) (initial r) as = some (ws', t)) :
    (faults secondChance (initial 0) as).length ≤ (2 * ramPages - 2) * (faults P (initial r) as).length := by
  rw [faults_length, faults_length]
  exact missCount_le_mul secondChance_missesAtMost (holdsAtMost P)
    ⟨repInv_initial 0, [], holds_initial, List.nodup_nil⟩ (repInv_initial r) hin hrun hrun' fun _ _ _ => rfl

theorem secondChance_competitive_sweep : (faults secondChance (initial 0) (sweep 10)).length ≤
    (2 * ramPages - 2) * (faults fifo (initial 0) (sweep 10)).length := by
  have hsome : (run (access secondChance) (initial 0) (sweep 10)).isSome = true := by decide
  have hsome' : (run (access fifo) (initial 0) (sweep 10)).isSome = true := by decide
  obtain ⟨⟨ws, s⟩, hrun⟩ := Option.isSome_iff_exists.1 hsome
  obtain ⟨⟨ws', t⟩, hrun'⟩ := Option.isSome_iff_exists.1 hsome'
  exact secondChance_competitive fifo 0 (by decide) hrun hrun'

end SecondChance

end Edaf35.Machine
