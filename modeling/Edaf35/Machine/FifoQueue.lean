import Edaf35.Lib.Ring
import Edaf35.Machine.SwapSpace

/-!
# The FIFO policy as a queue

`fifo_page_replace` moves its hand by one frame at each fault.  Read round the frames from the frame after the hand,
the coremap is the queue of the resident pages in the order in which they were loaded, after the free frames.
-/

namespace Edaf35.Machine

variable {s s' : Paging Hand} {v : Nat} {a : Access} {as : List Access} {b : Option UInt32}

/-- First in, first out: the page evicted and the queue after a reference to page `v`. -/
def fifoRefer (q : List Nat) (v : Nat) : Option Nat × List Nat :=
  if v ∈ q then (none, q)
  else if q.length < ramPages then (none, q ++ [v])
  else (q.head?, q.tail ++ [v])

/-- The owners of the frames, from the frame after the hand on. -/
def fifoFrames (s : Paging Hand) : List (Option Nat) :=
  turn (fun f => (s.coremap f).owner) ramPages ((s.static + 1 : Hand) : Nat)

/-- The frames hold the queue `q`, after the free ones. -/
structure FifoHolds (s : Paging Hand) (q : List Nat) : Prop where
  frames : fifoFrames s = List.replicate (ramPages - q.length) none ++ q.map some
  length_le : q.length ≤ ramPages

theorem fifoHolds_initial : FifoHolds (initial 0) [] := ⟨by decide, by decide⟩

/-- The pages in the queue are the resident ones. -/
theorem FifoHolds.mem_iff {q : List Nat} (h : FifoHolds s q) (hi : RepInv none s) (hv : v < nPages) :
    v ∈ q ↔ (s.pageTable v).inmemory = true := by
  have hmem : some v ∈ fifoFrames s ↔ v ∈ q := by
    rw [h.frames]
    simp
  rw [← hmem, fifoFrames, mem_turn (s.static + 1 : Hand).isLt]
  constructor
  · rintro ⟨f, hf, ho⟩
    exact ((hi.owner_iff f v hf (by simp)).1 ho).2.1
  · intro hm
    have hf := (hi.frame_lt v hv hm).1
    exact ⟨_, hf, (hi.owner_iff _ v hf (by simp)).2 ⟨hv, hm, rfl⟩⟩

private theorem fifo_replace (s : Paging Hand) (a : Access) : fifo.replace (countFault (a.start s)) =
    (((s.static + 1 : Hand) : Nat), { countFault (a.start s) with static := s.static + 1 }) := by
  cases a <;> rfl

private theorem countFault_start_coremap (s : Paging Hand) (a : Access) :
    (countFault (a.start s)).coremap = s.coremap := by
  cases a <;> rfl

/-- A fault evicts the owner of the frame after the hand. -/
theorem victim_fifo (hm : (s.pageTable a.page).inmemory = false) :
    victim fifo s a = (s.coremap (s.static + 1 : Hand)).owner := by
  rw [victim_of_fault hm (fifo_replace s a), countFault_start_coremap]

/-- A fault evicts the owner of the frame after the hand, and puts the page there. -/
private theorem fifoFrames_fault {e : Option Nat} {t : List (Option Nat)} (hm : (s.pageTable a.page).inmemory = false)
    (het : fifoFrames s = e :: t) (h : access fifo s a = some (b, s')) :
    victim fifo s a = e ∧ fifoFrames s' = t ++ [some a.page] := by
  obtain ⟨hstatic, howner, -⟩ := access_fault hm (fifo_replace s a) h
  have hcore := countFault_start_coremap s a
  have hlt := (s.static + 1 : Hand).isLt
  constructor
  · rw [victim_fifo hm]
    exact turn_head hlt het
  · have hkeep : ∀ f, f < ramPages → f ≠ ((s.static + 1 : Hand) : Nat) →
        (s'.coremap f).owner = (s.coremap f).owner := by
      intro f _ hne
      rw [howner, if_neg hne, hcore]
    have hhead : (s'.coremap (s.static + 1 : Hand)).owner = some a.page := by rw [howner, if_pos rfl]
    have hturn := (turn_congr hlt hkeep het).trans (congrArg (· :: t) hhead)
    -- the hand moves on, so that the frame filled comes last
    have hval : ((s.static + 1 + 1 : Hand) : Nat) = ((s.static + 1 : Hand) + 1) % ramPages := by
      rw [Fin.val_add]
      rfl
    rw [fifoFrames, hstatic, hval]
    exact turn_add_one hlt hturn

/-- One access is a reference under the rule `fifoRefer`. -/
theorem FifoHolds.step {q : List Nat} (hq : FifoHolds s q) (hi : RepInv none s) (ha : a.InRange)
    (h : access fifo s a = some (b, s')) :
    victim fifo s a = (fifoRefer q a.page).1 ∧ FifoHolds s' (fifoRefer q a.page).2 := by
  have hmem := hq.mem_iff hi (Access.page_lt ha)
  by_cases hm : (s.pageTable a.page).inmemory = true
  · obtain ⟨hstatic, hcore, -⟩ := access_hit hm h
    rw [fifoRefer, if_pos (hmem.2 hm), victim_of_hit hm]
    refine ⟨rfl, ?_, hq.length_le⟩
    rw [fifoFrames, hcore, hstatic]
    exact hq.frames
  · have hnot : a.page ∉ q := fun hin => hm (hmem.1 hin)
    have hm : (s.pageTable a.page).inmemory = false := by simpa using hm
    obtain ⟨e, t, het⟩ : ∃ e t, fifoFrames s = e :: t := ⟨_, _, turn_eq_cons _ (s.static + 1 : Hand).isLt⟩
    obtain ⟨hvictim, hframes⟩ := fifoFrames_fault hm het h
    rw [hvictim, fifoRefer, if_neg hnot]
    rw [hq.frames] at het
    by_cases hroom : q.length < ramPages
    · -- the frame after the hand is free
      obtain ⟨k, hk⟩ : ∃ k, ramPages - q.length = k + 1 := ⟨ramPages - q.length - 1, by omega⟩
      rw [hk, List.replicate_succ, List.cons_append, List.cons.injEq] at het
      obtain ⟨rfl, rfl⟩ := het
      rw [if_pos hroom]
      refine ⟨rfl, ?_, by rw [List.length_append]; exact hroom⟩
      have hk' : ramPages - (q ++ [a.page]).length = k := by
        rw [List.length_append, List.length_singleton]
        omega
      rw [hframes, hk', List.map_append, ← List.append_assoc]
      rfl
    · have hlen : q.length = ramPages := Nat.le_antisymm hq.length_le (by omega)
      rw [hlen, Nat.sub_self, List.replicate_zero, List.nil_append] at het
      rw [if_neg hroom]
      cases q with
      | nil => cases hlen
      | cons p q =>
        rw [List.map_cons, List.cons.injEq] at het
        obtain ⟨rfl, rfl⟩ := het
        rw [List.length_cons] at hlen
        have hlen' : (q ++ [a.page]).length = ramPages := by rw [List.length_append]; exact hlen
        refine ⟨rfl, ?_, Nat.le_of_eq hlen'⟩
        rw [hframes, List.tail_cons, hlen', Nat.sub_self, List.map_append]
        rfl

end Edaf35.Machine
