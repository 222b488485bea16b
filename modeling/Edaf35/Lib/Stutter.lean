import Mathlib.Logic.Function.Iterate

/-!
# Stuttering simulation

A concrete machine advances by `tick` and emits an observation at some of its ticks (`out`); an abstract machine emits
one at each of its steps (`spec`, which is `none` when it has halted).  In a stuttering simulation a tick that emits
matches one step of the abstract machine, and the other ticks match none.  As the rank falls at these, they cannot go
on for ever while the abstract machine could still move, so that the two machines emit the same sequence.
-/

namespace Edaf35

variable {σ τ ω : Type*}

/-- What `n` ticks emit. -/
def emitted (tick : σ → σ) (out : σ → Option ω) : Nat → σ → List ω
  | 0, _ => []
  | n + 1, s => (out s).toList ++ emitted tick out n (tick s)

/-- What at most `k` steps emit. -/
def produced (spec : τ → Option (ω × τ)) : Nat → τ → List ω
  | 0, _ => []
  | k + 1, a =>
    match spec a with
    | none => []
    | some (o, a') => o :: produced spec k a'

/-- The state after at most `k` steps. -/
def after (spec : τ → Option (ω × τ)) : Nat → τ → τ
  | 0, a => a
  | k + 1, a =>
    match spec a with
    | none => a
    | some (_, a') => after spec k a'

/-- A stuttering simulation: the relation, and the rank that bounds the ticks that emit nothing. -/
structure StutterSim (tick : σ → σ) (out : σ → Option ω) (spec : τ → Option (ω × τ)) (R : σ → τ → Prop)
    (rank : σ → Nat) : Prop where
  silent : ∀ s a, R s a → out s = none → R (tick s) a
  emit : ∀ s a o, R s a → out s = some o → ∃ a', spec a = some (o, a') ∧ R (tick s) a'
  progress : ∀ s a, R s a → out s = none → spec a ≠ none → rank (tick s) < rank s

variable {tick : σ → σ} {out : σ → Option ω} {spec : τ → Option (ω × τ)} {R : σ → τ → Prop} {rank : σ → Nat} {s : σ}
  {a : τ}

/-- Any number of ticks emits what some number of steps emits, and the states after them are related. -/
theorem StutterSim.safe (h : StutterSim tick out spec R rank) (hr : R s a) (n : Nat) :
    ∃ k, emitted tick out n s = produced spec k a ∧ R (tick^[n] s) (after spec k a) := by
  induction n generalizing s a with
  | zero => exact ⟨0, rfl, hr⟩
  | succ n ih =>
    rw [emitted, Function.iterate_succ_apply]
    cases ho : out s with
    | none =>
      obtain ⟨k, hk, hrel⟩ := ih (h.silent s a hr ho)
      exact ⟨k, by rw [hk]; rfl, hrel⟩
    | some o =>
      obtain ⟨a', ha, hr'⟩ := h.emit s a o hr ho
      obtain ⟨k, hk, hrel⟩ := ih hr'
      refine ⟨k + 1, ?_, ?_⟩
      · rw [hk, produced, ha]
        rfl
      · rw [after, ha]
        exact hrel

/-- Before an abstract step comes a tick that emits. -/
private theorem StutterSim.exists_emit (h : StutterSim tick out spec R rank) (hr : R s a) (hmove : spec a ≠ none) :
    ∃ n, emitted tick out n s = [] ∧ R (tick^[n] s) a ∧ out (tick^[n] s) ≠ none := by
  generalize hrank : rank s = r
  induction r using Nat.strongRecOn generalizing s with
  | ind r ih =>
    by_cases ho : out s = none
    · have hlt : rank (tick s) < r := hrank ▸ h.progress s a hr ho hmove
      obtain ⟨n, hn, hrel, hout⟩ := ih _ hlt (h.silent s a hr ho) rfl
      exact ⟨n + 1, by rw [emitted, ho, hn]; rfl, hrel, hout⟩
    · exact ⟨0, rfl, hr, ho⟩

theorem emitted_add (m n : Nat) :
    emitted tick out (m + n) s = emitted tick out m s ++ emitted tick out n (tick^[m] s) := by
  induction m generalizing s with
  | zero => rw [Nat.zero_add]; rfl
  | succ m ih => rw [Nat.succ_add, emitted, emitted, ih, List.append_assoc, Function.iterate_succ_apply]

/-- What any number of steps emits is emitted after enough ticks. -/
theorem StutterSim.live (h : StutterSim tick out spec R rank) (hr : R s a) (k : Nat) :
    ∃ n, emitted tick out n s = produced spec k a := by
  induction k generalizing s a with
  | zero => exact ⟨0, rfl⟩
  | succ k ih =>
    cases ha : spec a with
    | none => exact ⟨0, by rw [produced, ha]; rfl⟩
    | some x =>
      obtain ⟨m, hm, hrel, hout⟩ := h.exists_emit hr (by rw [ha]; exact Option.some_ne_none x)
      obtain ⟨o, ho⟩ := Option.ne_none_iff_exists'.1 hout
      obtain ⟨a', ha', hrel'⟩ := h.emit _ a o hrel ho
      obtain ⟨n, hn⟩ := ih hrel'
      refine ⟨m + (n + 1), ?_⟩
      rw [emitted_add, hm, emitted, ho, hn, produced, ha']
      rfl

end Edaf35
