import Mathlib.Data.List.Basic
import Mathlib.Data.List.Induction

/-!
# Runs of a partial step function

A step function `step : σ → α → Option (β × σ)` takes a state and a call, and gives the answer of the call and the
next state, or `none` when the system stops.  `run` executes a list of calls.  An invariant that may mention the
calls made so far is carried over whole runs by `run_history`, one that does not by `run_invariant`.  `Along` says of
every call of a run what the state before it and the call have to meet.
-/

namespace Edaf35

variable {σ α β : Type*}

/-- The answers and the final state of a list of calls; `none` when one of them stops the system. -/
def run (step : σ → α → Option (β × σ)) : σ → List α → Option (List β × σ)
  | s, [] => some ([], s)
  | s, a :: as =>
    match step s a with
    | none => none
    | some (b, s₁) =>
      match run step s₁ as with
      | none => none
      | some (bs, s₂) => some (b :: bs, s₂)

@[simp] theorem run_nil (step : σ → α → Option (β × σ)) (s : σ) : run step s [] = some ([], s) := rfl

theorem run_cons {step : σ → α → Option (β × σ)} {s s₂ : σ} {a : α} {as : List α} {bs : List β} :
    run step s (a :: as) = some (bs, s₂) ↔
      ∃ b s₁ bs', step s a = some (b, s₁) ∧ run step s₁ as = some (bs', s₂) ∧ bs = b :: bs' := by
  constructor
  · intro h
    rw [run] at h
    split at h
    · cases h
    · rename_i b s₁ hs
      split at h
      · cases h
      · rename_i bs' s₂' hr
        cases h
        exact ⟨b, s₁, bs', hs, hr, rfl⟩
  · rintro ⟨b, s₁, bs', hs, hr, rfl⟩
    rw [run, hs]
    simp only [hr]

theorem run_append {step : σ → α → Option (β × σ)} {s s₂ : σ} {as as' : List α} {bs : List β} :
    run step s (as ++ as') = some (bs, s₂) ↔
      ∃ s₁ bs₁ bs₂, run step s as = some (bs₁, s₁) ∧ run step s₁ as' = some (bs₂, s₂) ∧ bs = bs₁ ++ bs₂ := by
  induction as generalizing s bs with
  | nil => simp
  | cons a as ih =>
    simp only [List.cons_append, run_cons, ih]
    constructor
    · rintro ⟨b, s₁, bs', hs, ⟨s₃, bs₁, bs₂, h₁, h₂, rfl⟩, rfl⟩
      exact ⟨s₃, b :: bs₁, bs₂, ⟨b, s₁, bs₁, hs, h₁, rfl⟩, h₂, rfl⟩
    · rintro ⟨s₃, _, bs₂, ⟨b, s₁, bs₁, hs, h₁, rfl⟩, h₂, rfl⟩
      exact ⟨b, s₁, bs₁ ++ bs₂, hs, ⟨s₃, bs₁, bs₂, h₁, h₂, rfl⟩, rfl⟩

theorem run_length {step : σ → α → Option (β × σ)} {s s' : σ} {as : List α} {bs : List β}
    (h : run step s as = some (bs, s')) : bs.length = as.length := by
  induction as generalizing s bs with
  | nil => cases h; rfl
  | cons a as ih =>
    obtain ⟨b, s₁, bs', -, hr, rfl⟩ := run_cons.1 h
    simp [ih hr]

/-- A run that stops has a first call that stops the system. -/
theorem run_eq_none {step : σ → α → Option (β × σ)} {s : σ} {as : List α} (h : run step s as = none) :
    ∃ l a l' bs s', as = l ++ a :: l' ∧ run step s l = some (bs, s') ∧ step s' a = none := by
  induction as generalizing s with
  | nil => cases h
  | cons a as ih =>
    cases hs : step s a with
    | none => exact ⟨[], a, as, [], s, rfl, rfl, hs⟩
    | some x =>
      obtain ⟨b, s₁⟩ := x
      cases hr : run step s₁ as with
      | some y => rw [run, hs] at h; simp only [hr] at h; cases h
      | none =>
        obtain ⟨l, a', l', bs, s', rfl, hl, ha⟩ := ih hr
        exact ⟨a :: l, a', l', b :: bs, s', rfl, run_cons.2 ⟨b, s₁, bs, hs, hl, rfl⟩, ha⟩

/-- An invariant `I` about the calls made so far and the state, and a property `Q` of each answer: if one step
keeps `I` and gives `Q`, a whole run does. -/
theorem run_history {step : σ → α → Option (β × σ)} {I : List α → σ → Prop} {Q : List α → α → β → Prop}
    {ok : α → Prop}
    (hstep : ∀ h s a b s', I h s → ok a → step s a = some (b, s') → I (h ++ [a]) s' ∧ Q h a b)
    {s s' : σ} {as : List α} {bs : List β} (hI : I [] s) (hok : ∀ a ∈ as, ok a)
    (hrun : run step s as = some (bs, s')) :
    I as s' ∧ ∀ i a b, as[i]? = some a → bs[i]? = some b → Q (as.take i) a b := by
  suffices key : ∀ (as : List α) (h : List α) (s : σ) (bs : List β), I h s → (∀ a ∈ as, ok a) →
      run step s as = some (bs, s') →
      I (h ++ as) s' ∧ ∀ i a b, as[i]? = some a → bs[i]? = some b → Q (h ++ as.take i) a b by
    simpa using key as [] s bs hI hok hrun
  intro as
  induction as with
  | nil =>
    intro h s bs hI _ hrun
    cases hrun
    exact ⟨by simpa using hI, by simp⟩
  | cons a as ih =>
    intro h s bs hI hok hrun
    obtain ⟨b, s₁, bs', hs, hr, rfl⟩ := run_cons.1 hrun
    obtain ⟨hI₁, hQ⟩ := hstep h s a b s₁ hI (hok a (by simp)) hs
    obtain ⟨hI₂, hQ₂⟩ := ih (h ++ [a]) s₁ bs' hI₁ (fun x hx => hok x (by simp [hx])) hr
    refine ⟨by simpa using hI₂, ?_⟩
    intro i x y hx hy
    cases i with
    | zero =>
      simp only [List.getElem?_cons_zero, Option.some.injEq] at hx hy
      subst hx hy
      simpa using hQ
    | succ i =>
      simp only [List.getElem?_cons_succ] at hx hy
      simpa using hQ₂ i x y hx hy

/-- An invariant of the state that every step keeps holds after every run. -/
theorem run_invariant {step : σ → α → Option (β × σ)} {I : σ → Prop} {ok : α → Prop}
    (hstep : ∀ s a b s', I s → ok a → step s a = some (b, s') → I s')
    {s s' : σ} {as : List α} {bs : List β} (hI : I s) (hok : ∀ a ∈ as, ok a)
    (hrun : run step s as = some (bs, s')) : I s' :=
  (run_history (I := fun _ => I) (Q := fun _ _ _ => True)
    (fun _ s a b s' hs ha h => ⟨hstep s a b s' hs ha h, trivial⟩) hI hok hrun).1

/-- A property of the calls made and the state reached that each further call keeps. -/
theorem run_snoc {step : σ → α → Option (β × σ)} {I : List α → σ → Prop} {ok : α → Prop} {s₀ : σ} (h₀ : I [] s₀)
    (hstep : ∀ as bs s a b s', (∀ x ∈ as, ok x) → run step s₀ as = some (bs, s) → I as s → ok a →
      step s a = some (b, s') → I (as ++ [a]) s')
    {s : σ} {as : List α} {bs : List β} (hok : ∀ a ∈ as, ok a) (hrun : run step s₀ as = some (bs, s)) : I as s := by
  induction as using List.reverseRecOn generalizing bs s with
  | nil => cases hrun; exact h₀
  | append_singleton as a ih =>
    obtain ⟨s₁, bs₁, bs₂, hr, hlast, -⟩ := run_append.1 hrun
    obtain ⟨b, s₂, bs', hs, hnil, -⟩ := run_cons.1 hlast
    cases hnil
    have hok' : ∀ x ∈ as, ok x := fun x hx => hok x (List.mem_append_left _ hx)
    exact hstep as bs₁ s₁ a b s hok' hr (ih hok' hr) (hok a (by simp)) hs

/-! ### Calls along a run -/

/-- Every call of a run, in the state in which it is made, has the property. -/
def Along (step : σ → α → Option (β × σ)) (s : σ) (as : List α) (P : σ → α → Prop) : Prop :=
  ∀ l a l' bs s', as = l ++ a :: l' → run step s l = some (bs, s') → P s' a

theorem Along.mono {step : σ → α → Option (β × σ)} {s : σ} {as : List α} {P Q : σ → α → Prop}
    (h : Along step s as P) (hPQ : ∀ s a, P s a → Q s a) : Along step s as Q :=
  fun l a l' bs s' has hrun => hPQ s' a (h l a l' bs s' has hrun)

/-- The last call of a run, and those before it. -/
theorem along_snoc {step : σ → α → Option (β × σ)} {s : σ} {as : List α} {a : α} {P : σ → α → Prop} :
    Along step s (as ++ [a]) P ↔ Along step s as P ∧ ∀ bs s', run step s as = some (bs, s') → P s' a := by
  constructor
  · intro h
    refine ⟨fun l x l' bs s' has hrun => ?_, fun bs s' hrun => h as a [] bs s' rfl hrun⟩
    exact h l x (l' ++ [a]) bs s' (by rw [has]; simp) hrun
  · rintro ⟨h, ha⟩ l x l' bs s' has hrun
    rcases List.eq_nil_or_concat l' with rfl | ⟨l₁, y, rfl⟩
    · obtain ⟨rfl, hx⟩ := List.append_inj' has rfl
      cases hx
      exact ha bs s' hrun
    · rw [List.concat_eq_append, ← List.cons_append, ← List.append_assoc] at has
      obtain ⟨rfl, -⟩ := List.append_inj' has rfl
      exact h l x l₁ bs s' rfl hrun

theorem along_singleton {step : σ → α → Option (β × σ)} {s : σ} {a : α} {P : σ → α → Prop} :
    Along step s [a] P ↔ P s a := by
  have hnil : Along step s [] P := by
    intro l x l' bs s' has _
    exact absurd has (by simp)
  have hsnoc : Along step s ([] ++ [a]) P ↔ _ := along_snoc
  rw [List.nil_append] at hsnoc
  rw [hsnoc]
  constructor
  · intro h
    exact h.2 [] s rfl
  · intro h
    refine ⟨hnil, fun bs s' hrun => ?_⟩
    cases hrun
    exact h

/-- A property of the calls with their answers and of the state, in a run of calls that all meet `P`. -/
theorem run_along {step : σ → α → Option (β × σ)} {I : List (α × β) → σ → Prop} {P : σ → α → Prop} {s₀ : σ}
    (h₀ : I [] s₀)
    (hstep : ∀ log s a b s', I log s → P s a → step s a = some (b, s') → I (log ++ [(a, b)]) s')
    {s : σ} {as : List α} {bs : List β} (hP : Along step s₀ as P) (hrun : run step s₀ as = some (bs, s)) :
    I (as.zip bs) s := by
  induction as using List.reverseRecOn generalizing bs s with
  | nil => cases hrun; exact h₀
  | append_singleton as a ih =>
    obtain ⟨s₁, bs₁, bs₂, hr, hlast, rfl⟩ := run_append.1 hrun
    obtain ⟨b, s₂, bs', hs, hnil, rfl⟩ := run_cons.1 hlast
    cases hnil
    obtain ⟨hbefore, ha⟩ := along_snoc.1 hP
    rw [List.zip_append (run_length hr).symm]
    exact hstep _ s₁ a b s (ih hbefore hr) (ha bs₁ s₁ hr) hs

/-! ### Two runs side by side -/

/-- A relation between the states of two systems that related calls keep, as long as the calls of the first are ones
that its states allow. -/
theorem run_related {τ γ : Type*} {step : σ → α → Option (β × σ)} {step' : τ → α → Option (γ × τ)} {R : σ → τ → Prop}
    {p : α → α → Prop} {C : σ → α → Prop}
    (hstep : ∀ s t a a' b b' s' t', R s t → C s a → p a a' → step s a = some (b, s') →
      step' t a' = some (b', t') → R s' t')
    {s s' : σ} {t t' : τ} {as as' : List α} {bs : List β} {bs' : List γ} (hR : R s t)
    (hok : ∀ l a l' bs₁ s₁, as = l ++ a :: l' → run step s l = some (bs₁, s₁) → C s₁ a)
    (hpair : List.Forall₂ p as as') (hrun : run step s as = some (bs, s'))
    (hrun' : run step' t as' = some (bs', t')) : R s' t' := by
  induction hpair generalizing s t bs bs' with
  | nil =>
    cases hrun
    cases hrun'
    exact hR
  | @cons a a' as as' ha _ ih =>
    obtain ⟨b, s₁, bs₁, hs, hr, -⟩ := run_cons.1 hrun
    obtain ⟨b', t₁, bs₁', hs', hr', -⟩ := run_cons.1 hrun'
    have hfirst := hok [] a as [] s rfl rfl
    refine ih (hstep s t a a' b b' s₁ t₁ hR hfirst ha hs hs') ?_ hr hr'
    intro l x l' bs₂ s₂ he hl
    exact hok (a :: l) x l' (b :: bs₂) s₂ (by rw [he]; rfl) (run_cons.2 ⟨b, s₁, bs₂, hs, hl, rfl⟩)

/-- If each call of the specification is answered by a call of the system, so is each run. -/
theorem run_simulates {τ γ : Type*} {step : σ → α → Option (β × σ)} {spec : τ → α → Option (γ × τ)} {R : σ → τ → Prop}
    {Q : γ → β → Prop} {ok : α → Prop}
    (hstep : ∀ s t a c t', R s t → ok a → spec t a = some (c, t') → ∃ b s', step s a = some (b, s') ∧ Q c b ∧ R s' t')
    {s : σ} {t t' : τ} {as : List α} {cs : List γ} (hR : R s t) (hok : ∀ a ∈ as, ok a)
    (hrun : run spec t as = some (cs, t')) :
    ∃ bs s', run step s as = some (bs, s') ∧ List.Forall₂ Q cs bs ∧ R s' t' := by
  induction as generalizing s t cs with
  | nil =>
    cases hrun
    exact ⟨[], s, rfl, .nil, hR⟩
  | cons a as ih =>
    obtain ⟨c, t₁, cs', hc, hr, rfl⟩ := run_cons.1 hrun
    obtain ⟨b, s₁, hb, hq, hR₁⟩ := hstep s t a c t₁ hR (hok a (by simp)) hc
    obtain ⟨bs, s', hbs, hqs, hR'⟩ := ih hR₁ (fun x hx => hok x (by simp [hx])) hr
    exact ⟨b :: bs, s', run_cons.2 ⟨b, s₁, bs, hb, hbs, rfl⟩, .cons hq hqs, hR'⟩

/-! ### Reachable states -/

/-- The states reached from `s₀` by calls that the state allows. -/
inductive Reach (step : σ → α → Option (β × σ)) (ok : σ → α → Prop) (s₀ : σ) : σ → Prop
  | refl : Reach step ok s₀ s₀
  | tail {s s' : σ} {a : α} {b : β} : Reach step ok s₀ s → ok s a → step s a = some (b, s') → Reach step ok s₀ s'

theorem Reach.invariant {step : σ → α → Option (β × σ)} {ok : σ → α → Prop} {s₀ s : σ} {I : σ → Prop}
    (h : Reach step ok s₀ s) (h₀ : I s₀)
    (hstep : ∀ s a b s', I s → ok s a → step s a = some (b, s') → I s') : I s := by
  induction h with
  | refl => exact h₀
  | tail _ hok hs ih => exact hstep _ _ _ _ ih hok hs

/-- An invariant about the state and a value that the state does not hold, with which every allowed call answers. -/
theorem Reach.exists_invariant {ι : Type*} {step : σ → α → Option (β × σ)} {ok : σ → α → Prop} {s₀ s : σ}
    {I : ι → σ → Prop} (h : Reach step ok s₀ s) (h₀ : ∃ i, I i s₀)
    (hstep : ∀ i s a, I i s → ok s a → ∃ b s' j, step s a = some (b, s') ∧ I j s') : ∃ i, I i s := by
  refine h.invariant (I := fun s => ∃ i, I i s) h₀ fun s a b s' ⟨i, hi⟩ hok hs => ?_
  obtain ⟨b₁, s₁, j, hs₁, hj⟩ := hstep i s a hi hok
  rw [hs₁, Option.some.injEq, Prod.mk.injEq] at hs
  obtain ⟨-, rfl⟩ := hs
  exact ⟨j, hj⟩

end Edaf35
