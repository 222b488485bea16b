import Edaf35.Lib.Recent
import Edaf35.Machine.FifoQueue

/-!
# The FIFO policy evicts in load order

The pages resident under `fifo_page_replace` are those that the last `RAM_PAGES` faults loaded, so the order of the
loads alone decides which page a fault evicts; accesses that do not fault have no part in it.
-/

namespace Edaf35.Machine

variable {s s' : Paging Hand} {v : Nat} {a : Access} {as : List Access} {b : Option UInt32}

/-- The pages that the faults of a run loaded, in order. -/
def loads {ρ : Type} (P : Policy ρ) (s : Paging ρ) (as : List Access) : List Nat := (faults P s as).map Prod.fst

private theorem loads_append {ws : List (Option UInt32)} {s₀ : Paging Hand}
    (hrun : run (access fifo) s₀ as = some (ws, s)) (h : access fifo s a = some (b, s')) :
    loads fifo s₀ (as ++ [a]) =
      if (s.pageTable a.page).inmemory then loads fifo s₀ as else loads fifo s₀ as ++ [a.page] := by
  rw [loads, loads, faults_append hrun h, List.map_append]
  split
  · exact List.append_nil _
  · rfl

/-- The queue of the frames holds the pages loaded last, and no page was loaded twice within nine faults. -/
structure LoadQueue (s : Paging Hand) (ls : List Nat) : Prop where
  lt : ∀ v ∈ ls, v < nPages
  holds : FifoHolds s (recent ramPages ls)
  distinct : DistinctWithin (ramPages + 1) ls

private theorem LoadQueue.step {ls : List Nat} (h : LoadQueue s ls) (hi : RepInv none s) (ha : a.InRange)
    (hs : access fifo s a = some (b, s')) :
    LoadQueue s' (if (s.pageTable a.page).inmemory then ls else ls ++ [a.page]) := by
  have hmem := h.holds.mem_iff hi (Access.page_lt ha)
  obtain ⟨-, hstep⟩ := h.holds.step hi ha hs
  by_cases hm : (s.pageTable a.page).inmemory = true
  · rw [if_pos hm]
    rw [fifoRefer, if_pos (hmem.2 hm)] at hstep
    exact ⟨h.lt, hstep, h.distinct⟩
  · have hnot : a.page ∉ recent ramPages ls := fun hin => hm (hmem.1 hin)
    rw [if_neg hm]
    have hlt : ∀ v ∈ ls ++ [a.page], v < nPages := by
      intro v hv
      rcases List.mem_append.1 hv with hv | hv
      · exact h.lt v hv
      · rw [List.mem_singleton.1 hv]
        exact Access.page_lt ha
    refine ⟨hlt, ?_, h.distinct.snoc hnot⟩
    have hlen := length_recent ramPages ls
    rw [fifoRefer, if_neg hnot] at hstep
    rw [recent_append (by decide)]
    by_cases hlt : ls.length < ramPages
    · rw [if_pos hlt]
      rwa [if_pos (by omega)] at hstep
    · rw [if_neg hlt]
      rwa [if_neg (by omega)] at hstep

private theorem run_loadQueue {ws : List (Option UInt32)} (hin : ∀ a ∈ as, a.InRange)
    (hrun : run (access fifo) (initial 0) as = some (ws, s)) :
    RepInv none s ∧ LoadQueue s (loads fifo (initial 0) as) := by
  refine ⟨(run_repInv fifo 0 hin hrun).1, ?_⟩
  have h₀ : LoadQueue (initial 0) (loads fifo (initial 0) []) :=
    ⟨fun v hv => (by cases hv), fifoHolds_initial, distinctWithin_nil⟩
  refine run_snoc (I := fun as s => LoadQueue s (loads fifo (initial 0) as)) h₀ ?_ hin hrun
  intro as bs s a b s' hin hr hq ha hs
  rw [loads_append hr hs]
  exact hq.step (run_repInv fifo 0 hin hr).1 ha hs

/-- A full queue takes all frames. -/
private theorem FifoHolds.owned {q : List Nat} (h : FifoHolds s q) (hq : q.length = ramPages) {f : Nat}
    (hf : f < ramPages) : ∃ v, (s.coremap f).owner = some v := by
  have hframe : (s.coremap f).owner ∈ fifoFrames s := (mem_turn (s.static + 1 : Hand).isLt).2 ⟨f, hf, rfl⟩
  rw [h.frames, hq, Nat.sub_self, List.replicate_zero, List.nil_append] at hframe
  obtain ⟨v, -, hv⟩ := List.mem_map.1 hframe
  exact ⟨v, hv.symm⟩

/-- What a fault evicts. -/
private theorem FifoHolds.victim_eq {q : List Nat} (h : FifoHolds s q) (hm : (s.pageTable a.page).inmemory = false) :
    victim fifo s a = if q.length < ramPages then none else q.head? := by
  obtain ⟨e, t, het⟩ : ∃ e t, fifoFrames s = e :: t := ⟨_, _, turn_eq_cons _ (s.static + 1 : Hand).isLt⟩
  have he : (s.coremap (s.static + 1 : Hand)).owner = e := turn_head (s.static + 1 : Hand).isLt het
  rw [victim_fifo hm, he]
  rw [h.frames] at het
  split
  · next hlt =>
    obtain ⟨k, hk⟩ : ∃ k, ramPages - q.length = k + 1 := ⟨ramPages - q.length - 1, by omega⟩
    rw [hk, List.replicate_succ, List.cons_append, List.cons.injEq] at het
    exact het.1.symm
  · next hge =>
    rw [Nat.sub_eq_zero_of_le (Nat.le_of_not_lt hge), List.replicate_zero, List.nil_append] at het
    cases q with
    | nil => exact absurd (by decide) hge
    | cons p q =>
      rw [List.map_cons, List.cons.injEq] at het
      exact het.1.symm

/-! ### Every run -/

/-- After every run under `fifo_page_replace`, with `ls` the pages loaded by its faults: the resident pages are those of
the last eight faults; from the eighth fault on all frames are in use; the next fault evicts nothing up to the eighth,
and later the resident page that was loaded longest ago, the one loaded eight faults before; and a page is resident up
to the eighth fault after it was loaded, and not after that one. -/
theorem fifo_evicts_oldest {ws : List (Option UInt32)} (hin : ∀ a ∈ as, a.InRange)
    (hrun : run (access fifo) (initial 0) as = some (ws, s)) {ls : List Nat} (hls : ls = loads fifo (initial 0) as) :
    (∀ v, v < nPages → ((s.pageTable v).inmemory = true ↔ v ∈ recent ramPages ls)) ∧
    (ramPages ≤ ls.length → ∀ f, f < ramPages → ∃ v, (s.coremap f).owner = some v) ∧
    (∀ a : Access, a.InRange → (s.pageTable a.page).inmemory = false →
      (ls.length < ramPages → victim fifo s a = none) ∧
      (ramPages ≤ ls.length → ∃ v, victim fifo s a = some v ∧ ls[ls.length - ramPages]? = some v ∧
        (s.pageTable v).inmemory = true ∧
        ∀ w, w < nPages → (s.pageTable w).inmemory = true → w ≠ v → age ls w < age ls v)) ∧
    ∀ i v, ls[i]? = some v → (ls.length ≤ i + ramPages → (s.pageTable v).inmemory = true) ∧
      (ls.length = i + ramPages + 1 → (s.pageTable v).inmemory = false) := by
  obtain ⟨hi, hq⟩ := run_loadQueue hin hrun
  rw [← hls] at hq
  have hlen := length_recent ramPages ls
  have hresident : ∀ v, v < nPages → ((s.pageTable v).inmemory = true ↔ v ∈ recent ramPages ls) :=
    fun v hv => (hq.holds.mem_iff hi hv).symm
  refine ⟨hresident, fun hfull f hf => hq.holds.owned (by omega) hf, fun a ha hm => ⟨fun hfew => ?_, fun hfull => ?_⟩,
    fun i v hv => ?_⟩
  · rw [hq.holds.victim_eq hm, if_pos (by omega)]
  · have hhead : (recent ramPages ls).head? = ls[ls.length - ramPages]? := head?_recent ramPages ls
    have hlt : ls.length - ramPages < ls.length := Nat.sub_lt (Nat.lt_of_lt_of_le (by decide) hfull) (by decide)
    rw [List.getElem?_eq_getElem hlt] at hhead
    have hmem : ls[ls.length - ramPages] ∈ recent ramPages ls := List.mem_of_mem_head? hhead
    refine ⟨ls[ls.length - ramPages], ?_, List.getElem?_eq_getElem hlt, ?_, fun w hw hmw hne => ?_⟩
    · rw [hq.holds.victim_eq hm, if_neg (by omega), hhead]
    · exact (hresident _ (hq.lt _ (List.getElem_mem hlt))).2 hmem
    · exact age_lt_age_head hq.distinct.recent_nodup hhead ((hresident w hw).1 hmw) hne
  · have hlt : v < nPages := hq.lt v (List.mem_of_getElem? hv)
    refine ⟨fun hle => (hresident v hlt).2 (mem_recent_of_getElem? hv hle), fun heq => ?_⟩
    by_contra hm
    rw [Bool.not_eq_false, hresident v hlt] at hm
    exact hq.distinct.notMem_recent hv heq hm

/-- After twelve pages were read in order, the page loaded by the fifth fault is the next to go. -/
theorem fifo_evicts_oldest_sweep :
    ∃ ws s, run (access fifo) (initial 0) (sweep 12) = some (ws, s) ∧ ∃ v, victim fifo s (.read 48) = some v ∧
      (loads fifo (initial 0) (sweep 12))[4]? = some v ∧ (s.pageTable v).inmemory = true := by
  have hev : (run (access fifo) (initial 0) (sweep 12)).map (fun x => (x.2.pageTable 12).inmemory) = some false := by
    decide
  have hlen : (loads fifo (initial 0) (sweep 12)).length = 12 := by decide
  obtain ⟨⟨ws, s⟩, hrun, hm⟩ := Option.map_eq_some_iff.1 hev
  obtain ⟨-, -, hnext, -⟩ := fifo_evicts_oldest (by decide) hrun rfl
  obtain ⟨-, hfull⟩ := hnext (.read 48) (by decide) hm
  obtain ⟨v, hv, hload, hres, -⟩ := hfull (by rw [hlen]; decide)
  rw [hlen] at hload
  exact ⟨ws, s, hrun, v, hv, hload, hres⟩

end Edaf35.Machine
