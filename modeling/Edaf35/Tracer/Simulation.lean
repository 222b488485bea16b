import Edaf35.Tracer.Trace

/-!
# The tracer does not change the child

The tracer with its child simulates the child without a tracer (`simulation`): a tick at which the child executes an
instruction is a step of the plain child, and the other ticks are none.  Between two iterations the text is the
patched one; while the child executes a divide instruction alone, exactly that word is put back.  It suffices that the
patched text is right at the addresses which the child comes to.

What `main` writes down is about the words in the table (`Accounted`).  A divide instruction that the table does not
have is executed like any other and not counted, so that `ndivw` is the number of all divide instructions only if there
is none (`trace_transparent`, `not_counted`).
-/

namespace Edaf35.Tracer

variable {σ : Type} {C : Child σ} {A : UInt32 → Prop} {text text' : Text} {table : InstrTable} {p : UInt32}

/-- The text `text'` and the table are `text` patched.  Only the addresses of `A` matter where the table has no word. -/
structure PatchedFrom (A : UInt32 → Prop) (text text' : Text) (table : InstrTable) : Prop where
  zero : ∀ p w, lookupInstr table p = .ok w → text' p = 0
  divw : ∀ p w, lookupInstr table p = .ok w → IsDivw w
  found : ∀ p, A p → text' p = 0 → lookupInstr table p = .ok (text p)
  other : ∀ p, A p → text' p ≠ 0 → text' p = text p

theorem PatchedFrom.isDivw (h : PatchedFrom A text text' table) (hp : A p) (hzero : text' p = 0) : IsDivw (text p) :=
  h.divw p _ (h.found p hp hzero)

private theorem PatchedFrom.ne_zero (h : PatchedFrom A text text' table) (hp : A p) (hzero : text' p = 0) :
    text p ≠ 0 :=
  ne_zero_of_field (h.isDivw hp hzero).2

theorem inTable_eq_true_iff : inTable table p = true ↔ ∃ w, lookupInstr table p = .ok w := by
  unfold inTable
  cases lookupInstr table p with
  | error e => simp [Except.isOk, Except.toBool]
  | ok w => simp [Except.isOk, Except.toBool]

theorem PatchedFrom.inTable_iff (h : PatchedFrom A text text' table) (hp : A p) : inTable table p ↔ text' p = 0 := by
  rw [inTable_eq_true_iff]
  exact ⟨fun ⟨w, hw⟩ => h.zero p w hw, fun hzero => ⟨_, h.found p hp hzero⟩⟩

/-- A text whose zeroed words are those in the table is the text before patched. -/
theorem Zeroed.patchedFrom (h : Zeroed text table) (A : UInt32 → Prop) :
    PatchedFrom A (unpatched text table) text table := by
  refine ⟨fun p w hw => (h.zero_iff p).2 ⟨w, hw⟩, h.divw, fun p _ hzero => ?_, fun p _ hne => ?_⟩
  · obtain ⟨w, hw⟩ := (h.zero_iff p).1 hzero
    simp only [unpatched, hw]
  · cases hl : lookupInstr table p with
    | error e => simp only [unpatched, hl]
    | ok w => exact absurd ((h.zero_iff p).2 ⟨w, hl⟩) hne

/-! ### The addresses that the child comes to -/

/-- From `a` on, the plain child only executes words at addresses of `A`. -/
def Stays (C : Child σ) (text : Text) (A : UInt32 → Prop) (a : Option σ × Nat) : Prop :=
  ∀ k, ∀ c ∈ produced (plain C text) k a, A (C.nip c)

private theorem Stays.here {c : σ} {m : Nat} (h : Stays C text A (some c, m)) : A (C.nip c) := h 1 c List.mem_cons_self

private theorem Stays.next {c : σ} {m : Nat} {a : Option σ × Nat} (h : Stays C text A (some c, m))
    (hplain : plain C text (some c, m) = some (c, a)) : Stays C text A a := by
  intro k d hd
  refine h (k + 1) d ?_
  rw [produced, hplain]
  exact List.mem_cons_of_mem _ hd

/-! ### The simulation -/

/-- The tracer in each phase, and the plain child after the same instructions. -/
inductive Related (C : Child σ) (A : UInt32 → Prop) (text text' : Text) (table : InstrTable) :
    State σ → Option σ × Nat → Prop
  | cont {c m hist ndivw divfp} (hstays : Stays C text A (some c, m)) :
    Related C A text text' table ⟨.cont, c, text', hist, ndivw, divfp⟩ (some c, m)
  | running {c m hist ndivw divfp} (hstays : Stays C text A (some c, m)) :
    Related C A text text' table ⟨.running, c, text', hist, ndivw, divfp⟩ (some c, m)
  | stopped {c m hist ndivw divfp} (hstays : Stays C text A (some c, m)) (hzero : text' (C.nip c) = 0) :
    Related C A text text' table ⟨.stopped, c, text', hist, ndivw, divfp⟩ (some c, m)
  | stepping {c m hist ndivw divfp} (hstays : Stays C text A (some c, m)) (hzero : text' (C.nip c) = 0) :
    Related C A text text' table
      ⟨.stepping (C.nip c), c, Function.update text' (C.nip c) (text (C.nip c)), hist, ndivw, divfp⟩ (some c, m)
  | poke {c m hist ndivw divfp p} (hstays : Stays C text A (some c, m)) (hzero : text' p = 0) :
    Related C A text text' table ⟨.poke p, c, Function.update text' p (text p), hist, ndivw, divfp⟩ (some c, m)
  | exited {c m text₁ hist ndivw divfp} :
    Related C A text text' table ⟨.exited, c, text₁, hist, ndivw, divfp⟩ (none, m)
  | failed {c m text₁ hist ndivw divfp} :
    Related C A text text' table ⟨.failed, c, text₁, hist, ndivw, divfp⟩ (none, m)

/-- The number of ticks before the child executes an instruction is less than this. -/
def rank (s : State σ) : Nat :=
  match s.phase with
  | .poke _ => 4
  | .cont => 3
  | .running => 2
  | .stopped => 1
  | .stepping _ | .exited | .failed => 0

/-- The numerator and the denominator of the divide instruction `word`. -/
def operands (C : Child σ) (word : UInt32) (c : σ) : UInt32 × UInt32 :=
  (C.gpr c (instrField word 11 5), C.gpr c (instrField word 16 5))

section

variable {c c' : σ} {hist : Nat → UInt64} {ndivw : UInt64} {divfp : Option (List (UInt32 × UInt32))}

/-- At a patched word the divide instruction is put back and counted. -/
private theorem tick_stopped (h : PatchedFrom A text text' table) (hA : A (C.nip c)) (hzero : text' (C.nip c) = 0) :
    tick C table ⟨.stopped, c, text', hist, ndivw, divfp⟩ =
      ⟨.stepping (C.nip c), c, Function.update text' (C.nip c) (text (C.nip c)),
        countDenominator hist (operands C (text (C.nip c)) c).2, ndivw + 1,
        divfp.map fun l => l ++ [operands C (text (C.nip c)) c]⟩ := by
  have hdivw := h.isDivw hA hzero
  have hcond : text (C.nip c) ≠ 0 ∧ instrPrimary (text (C.nip c)) = poX ∧ instrField (text (C.nip c)) 21 10 = eoDivw :=
    ⟨h.ne_zero hA hzero, hdivw⟩
  simp only [tick, examine, hzero, if_true, h.found _ hA hzero]
  rw [if_pos hcond]
  rfl

/-- Zeroing the word again gives the patched text. -/
private theorem tick_poke (hzero : text' p = 0) (w : UInt32) :
    tick C table ⟨.poke p, c, Function.update text' p w, hist, ndivw, divfp⟩ =
      ⟨.cont, c, text', hist, ndivw, divfp⟩ := by
  simp only [tick, Function.update_idem]
  rw [← hzero, Function.update_eq_self]

/-- A zeroed word stops the child. -/
private theorem tick_running_zero (hzero : text' (C.nip c) = 0) :
    tick C table ⟨.running, c, text', hist, ndivw, divfp⟩ = ⟨.stopped, c, text', hist, ndivw, divfp⟩ :=
  if_pos hzero

/-- While the divide instruction is back, the child executes it. -/
private theorem executes_stepping {w : UInt32} (hw : w ≠ 0) :
    executes C ⟨.stepping (C.nip c), c, Function.update text' (C.nip c) w, hist, ndivw, divfp⟩ = some c := by
  unfold executes
  simp only [Function.update_self]
  exact if_neg hw

variable (hist ndivw divfp)

/-- Five ticks for a divide instruction of the table. -/
theorem ticks_divide (h : PatchedFrom A text text' table) (hA : A (C.nip c)) (hzero : text' (C.nip c) = 0)
    (hexec : C.exec (text (C.nip c)) c = some c') :
    (tick C table)^[5] ⟨.cont, c, text', hist, ndivw, divfp⟩ =
        ⟨.cont, c', text', countDenominator hist (operands C (text (C.nip c)) c).2, ndivw + 1,
          divfp.map fun l => l ++ [operands C (text (C.nip c)) c]⟩ ∧
      emitted (tick C table) (executes C) 5 ⟨.cont, c, text', hist, ndivw, divfp⟩ = [c] := by
  have hne := h.ne_zero hA hzero
  have hcont : tick C table ⟨.cont, c, text', hist, ndivw, divfp⟩ = ⟨.running, c, text', hist, ndivw, divfp⟩ := rfl
  have hrunning : executes C ⟨.running, c, text', hist, ndivw, divfp⟩ = none := if_pos hzero
  have hstepping : ∀ hist' ndivw' divfp', tick C table ⟨.stepping (C.nip c), c,
      Function.update text' (C.nip c) (text (C.nip c)), hist', ndivw', divfp'⟩ = ⟨.poke (C.nip c), c',
        Function.update text' (C.nip c) (text (C.nip c)), hist', ndivw', divfp'⟩ := by
    intro hist' ndivw' divfp'
    simp only [tick, Function.update_self, if_neg hne, hexec]
  constructor
  · simp only [Function.iterate_succ_apply, Function.iterate_zero_apply, hcont, tick_running_zero hzero,
      tick_stopped h hA hzero, hstepping, tick_poke hzero]
  · simp only [emitted, hcont, tick_running_zero hzero, tick_stopped h hA hzero, hstepping, hrunning,
      executes_stepping hne]
    rfl

/-- Two ticks for an instruction that is not patched, with which the child exits. -/
theorem ticks_exit (table : InstrTable) (hne : text' (C.nip c) ≠ 0) (hexec : C.exec (text' (C.nip c)) c = none) :
    (tick C table)^[2] ⟨.cont, c, text', hist, ndivw, divfp⟩ = ⟨.exited, c, text', hist, ndivw, divfp⟩ ∧
      emitted (tick C table) (executes C) 2 ⟨.cont, c, text', hist, ndivw, divfp⟩ = [c] := by
  simp [tick, emitted, executes, hne, hexec]

end

theorem simulation (h : PatchedFrom A text text' table) :
    StutterSim (tick C table) (executes C) (plain C text) (Related C A text text' table) rank := by
  refine ⟨fun s a hr ho => ?_, fun s a o hr ho => ?_, fun s a hr ho hmove => ?_⟩
  · -- a tick without an instruction of the child
    cases hr with
    | cont hstays => exact .running hstays
    | @running c m hist ndivw divfp hstays =>
      by_cases hzero : text' (C.nip c) = 0
      · rw [tick_running_zero hzero]
        exact .stopped hstays hzero
      · exact absurd (ho.symm.trans (if_neg hzero)) (by simp)
    | stopped hstays hzero =>
      rw [tick_stopped h hstays.here hzero]
      exact .stepping hstays hzero
    | stepping hstays hzero =>
      rw [executes_stepping (h.ne_zero hstays.here hzero)] at ho
      cases ho
    | poke hstays hzero =>
      rw [tick_poke hzero]
      exact .cont hstays
    | exited => exact .exited
    | failed => exact .failed
  · -- an instruction of the child
    cases hr with
    | cont | stopped | poke | exited | failed => cases ho
    | @running c m hist ndivw divfp hstays =>
      by_cases hzero : text' (C.nip c) = 0
      · exact absurd (ho.symm.trans (if_pos hzero)) (by simp)
      · obtain rfl : c = o := Option.some.inj ((if_neg hzero).symm.trans ho)
        have hword : text' (C.nip c) = text (C.nip c) := h.other _ hstays.here hzero
        obtain ⟨m', hplain⟩ : ∃ m', plain C text (some c, m) = some (c, C.exec (text (C.nip c)) c, m') := ⟨_, rfl⟩
        have hnext := hstays.next hplain
        refine ⟨_, hplain, ?_⟩
        simp only [tick, if_neg hzero]
        rw [hword]
        cases hexec : C.exec (text (C.nip c)) c with
        | none => exact .exited
        | some c' => exact .running (hexec ▸ hnext)
    | @stepping c m hist ndivw divfp hstays hzero =>
      have hback : text (C.nip c) ≠ 0 := h.ne_zero hstays.here hzero
      rw [executes_stepping hback] at ho
      obtain rfl : c = o := Option.some.inj ho
      obtain ⟨m', hplain⟩ : ∃ m', plain C text (some c, m) = some (c, C.exec (text (C.nip c)) c, m') := ⟨_, rfl⟩
      have hnext := hstays.next hplain
      refine ⟨_, hplain, ?_⟩
      simp only [tick, Function.update_self, if_neg hback]
      cases hexec : C.exec (text (C.nip c)) c with
      | none => exact .failed
      | some c' => exact .poke (hexec ▸ hnext) hzero
  · -- the ticks without an instruction lead to one
    cases hr with
    | cont => exact Nat.lt_succ_self 2
    | @running c m hist ndivw divfp hstays =>
      by_cases hzero : text' (C.nip c) = 0
      · rw [tick_running_zero hzero]
        exact Nat.lt_succ_self 1
      · exact absurd (ho.symm.trans (if_neg hzero)) (by simp)
    | stopped hstays hzero =>
      rw [tick_stopped h hstays.here hzero]
      exact Nat.lt_succ_self 0
    | stepping hstays hzero =>
      rw [executes_stepping (h.ne_zero hstays.here hzero)] at ho
      cases ho
    | poke hstays hzero =>
      rw [tick_poke hzero]
      exact Nat.lt_succ_self 3
    | exited | failed => exact absurd rfl hmove

/-- After any number of ticks the tracer is related to the plain child after the instructions emitted so far. -/
theorem related_ticks (h : PatchedFrom A text text' table) {c : σ} (hstays : Stays C text A (some c, 0))
    (hist : Nat → UInt64) (divfp : Option (List (UInt32 × UInt32))) (n : Nat) :
    ∃ k, traced C table n (start c text' hist divfp) = untraced C text k c ∧
      Related C A text text' table (ticks C table n (start c text' hist divfp)) (plainAfter C text k c) :=
  (simulation h).safe (.cont hstays) n

private theorem Related.text_eq_zero {s : State σ} {a : Option σ × Nat} (hr : Related C A text text' table s a)
    (h : PatchedFrom A text text' table) (hcont : s.phase = .cont) {w : UInt32} (hw : lookupInstr table p = .ok w) :
    s.text p = 0 := by
  cases hr with
  | cont => exact h.zero p w hw
  | running | stopped | stepping | poke | exited | failed => cases hcont

theorem Related.none_of_gone {s : State σ} {a : Option σ × Nat} (hr : Related C A text text' table s a)
    (hgone : s.phase = .exited ∨ s.phase = .failed) : a.1 = none := by
  cases hr with
  | exited | failed => rfl
  | cont | running | stopped | stepping | poke => rcases hgone with hgone | hgone <;> cases hgone

/-! ### What is written down -/

/-- The state of the child whose divide instruction `main` has written down, but the child has not executed. -/
def announced (s : State σ) : List σ :=
  match s.phase with
  | .stepping _ => [s.child]
  | _ => []

/-- The states in which the child executes a word of the table. -/
def handled (C : Child σ) (table : InstrTable) (l : List σ) : List σ := l.filter fun c => inTable table (C.nip c)

/-- With the states `l` in which the child has executed instructions so far: the histogram, `ndivw` and the lines of the
trace file are those of the words in the table among them, and of the one announced. -/
structure Accounted (C : Child σ) (text : Text) (table : InstrTable) (hist : Nat → UInt64)
    (lines : Option (List (UInt32 × UInt32))) (s : State σ) (l : List σ) : Prop where
  hist : s.hist = ((handled C table l ++ announced s).map fun c => (operands C (text (C.nip c)) c).2).foldl
    countDenominator hist
  ndivw : s.ndivw = .ofNat (handled C table l ++ announced s).length
  divfp : s.divfp = lines.map fun first =>
    first ++ (handled C table l ++ announced s).map fun c => operands C (text (C.nip c)) c

private theorem handled_append (l l' : List σ) : handled C table (l ++ l') = handled C table l ++ handled C table l' :=
  List.filter_append ..

theorem announced_of_gone {s : State σ} (h : s.phase = .exited ∨ s.phase = .failed) : announced s = [] := by
  unfold announced
  rcases h with h | h <;> rw [h]

variable {hist : Nat → UInt64} {lines : Option (List (UInt32 × UInt32))}

/-- A tick that writes nothing down, and the states of which something is written down stay the same. -/
private theorem Accounted.congr {s s' : State σ} {l l' : List σ} (ha : Accounted C text table hist lines s l)
    (hhist : s'.hist = s.hist) (hndivw : s'.ndivw = s.ndivw) (hdivfp : s'.divfp = s.divfp)
    (hstates : handled C table l' ++ announced s' = handled C table l ++ announced s) :
    Accounted C text table hist lines s' l' := by
  refine ⟨?_, ?_, ?_⟩ <;> rw [hstates]
  · exact hhist.trans ha.hist
  · exact hndivw.trans ha.ndivw
  · exact hdivfp.trans ha.divfp

theorem handled_of_zero {c : σ} (h : PatchedFrom A text text' table) (hA : A (C.nip c))
    (hzero : text' (C.nip c) = 0) : handled C table [c] = [c] :=
  List.filter_cons_of_pos ((h.inTable_iff hA).2 hzero)

private theorem handled_of_ne {c : σ} (h : PatchedFrom A text text' table) (hA : A (C.nip c))
    (hne : text' (C.nip c) ≠ 0) : handled C table [c] = [] :=
  List.filter_cons_of_neg fun hin => hne ((h.inTable_iff hA).1 hin)

/-- A tick keeps the account. -/
private theorem Accounted.tick (h : PatchedFrom A text text' table) {s : State σ} {a : Option σ × Nat} {l : List σ}
    (hr : Related C A text text' table s a) (ha : Accounted C text table hist lines s l) :
    Accounted C text table hist lines (Tracer.tick C table s) (l ++ (executes C s).toList) := by
  cases hr with
  | cont | exited | failed => exact ha.congr rfl rfl rfl (by simp [executes, announced, Tracer.tick])
  | @running c m hist' ndivw divfp hstays =>
    by_cases hzero : text' (C.nip c) = 0
    · rw [tick_running_zero hzero]
      exact ha.congr rfl rfl rfl (by simp [executes, announced, hzero])
    · have hexec : executes C ⟨.running, c, text', hist', ndivw, divfp⟩ = some c := if_neg hzero
      have hnone := handled_of_ne h hstays.here hzero
      rw [hexec]
      simp only [Tracer.tick, if_neg hzero]
      cases C.exec (text' (C.nip c)) c with
      | none | some => exact ha.congr rfl rfl rfl (by simp [announced, handled_append, hnone])
  | @stopped c m hist' ndivw divfp hstays hzero =>
    -- the instruction is written down before the child executes it
    obtain ⟨hhist, hndivw, hdivfp⟩ := ha
    simp only [announced, List.append_nil] at hhist hndivw hdivfp
    rw [tick_stopped h hstays.here hzero]
    refine ⟨?_, ?_, ?_⟩ <;> simp only [executes, announced, Option.toList_none, List.append_nil]
    · rw [hhist, List.map_append, List.foldl_append]
      rfl
    · rw [hndivw, List.length_append, UInt64.ofNat_add]
      rfl
    · rw [hdivfp, Option.map_map]
      simp [Function.comp_def]
  | @stepping c m hist' ndivw divfp hstays hzero =>
    have hne : text (C.nip c) ≠ 0 := h.ne_zero hstays.here hzero
    have hone := handled_of_zero h hstays.here hzero
    rw [executes_stepping hne]
    simp only [Tracer.tick, Function.update_self, if_neg hne]
    cases C.exec (text (C.nip c)) c with
    | none | some => exact ha.congr rfl rfl rfl (by simp [announced, handled_append, hone])
  | @poke c m hist' ndivw divfp p hstays hzero =>
    rw [tick_poke hzero]
    exact ha.congr rfl rfl rfl (by simp [executes, announced])

/-- After any number of ticks. -/
theorem accounted_ticks (h : PatchedFrom A text text' table) {c : σ} (hstays : Stays C text A (some c, 0))
    (hist : Nat → UInt64) (lines : Option (List (UInt32 × UInt32))) (n : Nat) :
    Accounted C text table hist lines (ticks C table n (start c text' hist lines))
      (traced C table n (start c text' hist lines)) := by
  induction n with
  | zero => refine ⟨rfl, rfl, by simp [ticks, traced, emitted, start, announced, handled]⟩
  | succ n ih =>
    obtain ⟨_, -, hr⟩ := related_ticks h hstays hist lines n
    have hnext : ticks C table (n + 1) (start c text' hist lines) =
        tick C table (ticks C table n (start c text' hist lines)) := Function.iterate_succ_apply' ..
    have hemit : traced C table (n + 1) (start c text' hist lines) =
        traced C table n (start c text' hist lines) ++
          (executes C (ticks C table n (start c text' hist lines))).toList :=
      (emitted_add n 1).trans (by rw [emitted, emitted, List.append_nil]; rfl)
    rw [hnext, hemit]
    exact ih.tick h hr

/-! ### Transparency -/

/-- The plain child counts the divide words among those it executes. -/
private theorem plainAfter_snd (text : Text) (k : Nat) (c : σ) :
    (plainAfter C text k c).2 = (untraced C text k c).countP fun d => IsDivw (text (C.nip d)) := by
  suffices key : ∀ a : Option σ × Nat, (after (plain C text) k a).2 =
      a.2 + (produced (plain C text) k a).countP fun d => IsDivw (text (C.nip d)) by
    exact (key (some c, 0)).trans (Nat.zero_add _)
  induction k with
  | zero => exact fun a => rfl
  | succ k ih =>
    intro a
    match a with
    | (none, m) => rfl
    | (some c, m) =>
      simp only [after, produced, plain, ih, List.countP_cons, decide_eq_true_eq]
      split <;> omega

/-- The child executes the same instructions in the same states with and without the tracer; whenever it is continued,
every word in the table is zeroed; and when it has exited, `ndivw` is the number of words of the table that the child
without a tracer executed, which are all its divide instructions if it executed no other. -/
theorem trace_transparent (h : Zeroed text table) (c : σ) (hist : Nat → UInt64)
    (divfp : Option (List (UInt32 × UInt32))) :
    (∀ n, ∃ k, traced C table n (start c text hist divfp) = untraced C (unpatched text table) k c) ∧
      (∀ k, ∃ n, traced C table n (start c text hist divfp) = untraced C (unpatched text table) k c) ∧
      (∀ n, (ticks C table n (start c text hist divfp)).phase = .cont → ∀ p w, lookupInstr table p = .ok w →
        (ticks C table n (start c text hist divfp)).text p = 0) ∧
      ∀ n, (ticks C table n (start c text hist divfp)).phase = .exited ∨
          (ticks C table n (start c text hist divfp)).phase = .failed →
        ∃ k, traced C table n (start c text hist divfp) = untraced C (unpatched text table) k c ∧
          (plainAfter C (unpatched text table) k c).1 = none ∧
          (ticks C table n (start c text hist divfp)).ndivw =
            .ofNat ((untraced C (unpatched text table) k c).countP fun d => inTable table (C.nip d)) ∧
          ((∀ d ∈ untraced C (unpatched text table) k c, IsDivw (unpatched text table (C.nip d)) →
              inTable table (C.nip d)) →
            (ticks C table n (start c text hist divfp)).ndivw =
              .ofNat (plainAfter C (unpatched text table) k c).2) := by
  have hfrom := h.patchedFrom fun _ => True
  have hstays : Stays C (unpatched text table) (fun _ => True) (some c, 0) := fun _ _ _ => trivial
  refine ⟨fun n => ?_, fun k => (simulation hfrom).live (.cont hstays) k, fun n hcont p w hw => ?_,
    fun n hgone => ?_⟩
  · obtain ⟨k, hk, -⟩ := related_ticks hfrom hstays hist divfp n
    exact ⟨k, hk⟩
  · obtain ⟨k, -, hr⟩ := related_ticks hfrom hstays hist divfp n
    exact hr.text_eq_zero hfrom hcont hw
  · obtain ⟨k, hk, hr⟩ := related_ticks hfrom hstays hist divfp n
    have hndivw := (accounted_ticks hfrom hstays hist divfp n).ndivw
    rw [announced_of_gone hgone, List.append_nil, hk, handled, ← List.countP_eq_length_filter] at hndivw
    refine ⟨k, hk, hr.none_of_gone hgone, hndivw, fun hall => ?_⟩
    rw [hndivw, plainAfter_snd]
    congr 1
    refine List.countP_congr fun d hd => ⟨fun hin => ?_, fun hdivw => hall d hd (by simpa using hdivw)⟩
    have hzero := (hfrom.inTable_iff trivial).1 hin
    simpa using hfrom.isDivw trivial hzero

/-! ### After `rewrite_instr` -/

/-- A text of which the words of a set `S` with the field `EO_DIVW` were zeroed, and the divide words put into the
table. -/
theorem patchedFrom_of_lookup {S : UInt32 → Prop} [DecidablePred S]
    (hlookup : ∀ p w, lookupInstr table p = .ok w ↔ S p ∧ IsDivw (text p) ∧ w = text p)
    (htext : ∀ p, text' p = if S p ∧ instrField (text p) 21 10 = eoDivw then 0 else text p)
    (hA : ∀ p, A p → text p ≠ 0 ∧ (S p → instrField (text p) 21 10 = eoDivw → IsDivw (text p))) :
    PatchedFrom A text text' table := by
  refine ⟨fun p w hw => ?_, fun p w hw => ?_, fun p hp hzero => ?_, fun p _ hne => ?_⟩
  · obtain ⟨hS, hdivw, -⟩ := (hlookup p w).1 hw
    rw [htext p]
    exact if_pos ⟨hS, hdivw.2⟩
  · obtain ⟨-, hdivw, rfl⟩ := (hlookup p w).1 hw
    exact hdivw
  · obtain ⟨hnonzero, hfield⟩ := hA p hp
    rw [htext p] at hzero
    by_cases hin : S p ∧ instrField (text p) 21 10 = eoDivw
    · exact (hlookup p _).2 ⟨hin.1, hfield hin.1 hin.2, rfl⟩
    · rw [if_neg hin] at hzero
      exact absurd hzero hnonzero
  · rw [htext p] at hne ⊢
    split at hne
    · exact absurd rfl hne
    · next hin => exact if_neg hin

/-- A text that is right at all addresses. -/
private theorem PatchedFrom.zeroed (h : PatchedFrom (fun _ => True) text text' table) :
    Zeroed text' table ∧ unpatched text' table = text := by
  refine ⟨⟨fun p => ⟨fun hzero => ⟨_, h.found p trivial hzero⟩, fun ⟨w, hw⟩ => h.zero p w hw⟩, h.divw⟩,
    funext fun p => ?_⟩
  by_cases hzero : text' p = 0
  · simp only [unpatched, h.found p trivial hzero]
  · cases hl : lookupInstr table p with
    | error e => simp only [unpatched, hl, h.other p trivial hzero]
    | ok w => exact absurd (h.zero p w hl) hzero

/-- What is in a table that was empty before the words of `S` were installed. -/
theorem lookupInstr_new_iff {S : UInt32 → Prop} {t : InstrTable} (hwf : WellFormed table)
    (hmem : ∀ x, x ∈ entries table.a ↔ x ∈ entries t.a ∨ S x.addr ∧ IsDivw (text x.addr) ∧ x.instr = text x.addr)
    (hempty : ∀ x ∈ t.a, x.addr = 0) {w : UInt32} :
    lookupInstr table p = .ok w ↔ S p ∧ IsDivw (text p) ∧ w = text p := by
  rw [lookupInstr_eq_ok_iff hwf, hmem, mem_entries]
  exact or_iff_right fun hold => hold.2 (hempty _ hold.1)

/-- A section patched by `rewrite_instr`. -/
private theorem Rewritten.patchedFrom {t : InstrTable} {addr : UInt32} {k : Nat}
    (h : Rewritten text t addr k text' table) (hempty : ∀ x ∈ t.a, x.addr = 0)
    (hA : ∀ p, A p → text p ≠ 0 ∧ (InRange addr (4 * k) p → instrField (text p) 21 10 = eoDivw → IsDivw (text p))) :
    PatchedFrom A text text' table :=
  patchedFrom_of_lookup (fun _ _ => lookupInstr_new_iff h.wellFormed h.mem_iff hempty) h.text_eq hA

/-! ### A child that divides in a loop -/

/-- A child that executes the words at 4 and 8 in turn and exits after the given number of instructions. -/
def looping : Child (Nat × UInt32) where
  nip s := s.2
  gpr _ _ := 3
  exec _ s := if s.1 = 0 then none else some (s.1 - 1, if s.2 = 4 then 8 else 4)

/-- `divw r3,r4,r5` at 4 and 8, and `addi r0,r0,0` elsewhere. -/
def divwTwice : Text := fun p => if p = 4 ∨ p = 8 then 0x7c642bd6 else 0x38000000

/-- A section in which only divide words have the field `EO_DIVW`, rewritten with a new table. -/
private theorem exists_rewritten (text : Text) (start size : UInt32) (hal : 4 ∣ start.toNat) (hsize : 4 ∣ size.toNat)
    (hlt : start.toNat + size.toNat < 2 ^ 32) (hzero : ¬InRange start size.toNat 0)
    (hfew : countDivw text start (size.toNat / 4) ≤ 2 ^ 27)
    (htext : ∀ p, text p ≠ 0 ∧ (instrField (text p) 21 10 = eoDivw → IsDivw (text p))) :
    ∃ t text' t', newInstrTable (fun _ => true) = .ok t ∧
      rewriteInstr (fun _ => true) text start size t = .ok (countDivw text start (size.toNat / 4), text', t') ∧
      PatchedFrom (fun _ => True) text text' t' ∧
      ∀ p, text' p = if InRange start size.toNat p ∧ instrField (text p) 21 10 = eoDivw then 0 else text p := by
  obtain ⟨t, ht⟩ : ∃ t, newInstrTable (fun _ => true) = .ok t := ⟨_, rfl⟩
  obtain ⟨hwf, hn, hempty⟩ := newInstrTable_wellFormed ht
  have hnew : ∀ x ∈ t.a, ¬InRange start size.toNat x.addr := fun x hx => by rwa [hempty x hx]
  rcases rewriteInstr_spec (fun _ => true) text hwf hal hsize hlt hzero hnew with
    ⟨text', t', hok, hr⟩ | ⟨-, ⟨bytes, hb⟩ | hb⟩
  · have hfrom := hr.patchedFrom (A := fun _ => True) hempty fun p _ => ⟨(htext p).1, fun _ => (htext p).2⟩
    refine ⟨t, text', t', ht, hok, hfrom, fun p => ?_⟩
    rw [hr.text_eq p, Nat.mul_div_cancel' hsize]
  · cases hb
  · omega

theorem divwText_word (p : UInt32) :
    divwText p ≠ 0 ∧ (instrField (divwText p) 21 10 = eoDivw → IsDivw (divwText p)) := by
  unfold divwText
  split <;> decide

/-- The text of two words, patched by `rewriteInstr`. -/
theorem patched_divwText : ∃ t text' t', newInstrTable (fun _ => true) = .ok t ∧
    rewriteInstr (fun _ => true) divwText 4 8 t = .ok (1, text', t') ∧ Patched text' t' ∧
      unpatched text' t' = divwText ∧ lookupInstr t' 4 = .ok (divwText 4) := by
  obtain ⟨t, text', t', ht, hok, hfrom, htext⟩ :=
    exists_rewritten divwText 4 8 (by decide) (by decide) (by decide) (by decide) (by decide) divwText_word
  obtain ⟨hzeroed, hback⟩ := hfrom.zeroed
  refine ⟨t, text', t', ht, hok, ⟨hzeroed, fun p => ?_⟩, hback, hfrom.found 4 trivial ?_⟩
  · rw [htext p]
    by_cases hp : p = 4
    · rw [hp]
      decide
    · rw [divwText, if_neg hp]
      split <;> decide
  · rw [htext 4]
    decide

/-- The patched text of two words and a child that divides twice. -/
theorem trace_transparent_looping : ∃ t text' t', newInstrTable (fun _ => true) = .ok t ∧
    rewriteInstr (fun _ => true) divwText 4 8 t = .ok (1, text', t') ∧
      (∃ n, traced looping t' n (start (3, 4) text' (fun _ => 0) none) = [(3, 4), (2, 8), (1, 4), (0, 8)]) ∧
      ∀ n, (ticks looping t' n (start (3, 4) text' (fun _ => 0) none)).phase = .cont →
        (ticks looping t' n (start (3, 4) text' (fun _ => 0) none)).text 4 = 0 := by
  obtain ⟨t, text', t', ht, hok, hpatched, hback, hfour⟩ := patched_divwText
  obtain ⟨-, hlive, hcont, -⟩ := trace_transparent (C := looping) hpatched.toZeroed (3, 4) (fun _ => 0) none
  refine ⟨t, text', t', ht, hok, ?_, fun n hphase => hcont n hphase 4 (divwText 4) hfour⟩
  obtain ⟨n, hn⟩ := hlive 4
  rw [hback] at hn
  exact ⟨n, hn.trans (by decide)⟩

/-- With a table that has the divide instruction at 4 and not the one at 8, the child divides twice and `ndivw` is 1. -/
theorem not_counted : ∃ t text' t' n k, newInstrTable (fun _ => true) = .ok t ∧
    rewriteInstr (fun _ => true) divwTwice 4 4 t = .ok (1, text', t') ∧ Zeroed text' t' ∧
      (ticks looping t' n (start (1, 4) text' (fun _ => 0) none)).phase = .exited ∧
      traced looping t' n (start (1, 4) text' (fun _ => 0) none) = untraced looping (unpatched text' t') k (1, 4) ∧
      plainAfter looping (unpatched text' t') k (1, 4) = (none, 2) ∧
      (ticks looping t' n (start (1, 4) text' (fun _ => 0) none)).ndivw = 1 := by
  have hwords : ∀ p, divwTwice p ≠ 0 ∧ (instrField (divwTwice p) 21 10 = eoDivw → IsDivw (divwTwice p)) := by
    intro p
    unfold divwTwice
    split <;> decide
  obtain ⟨t, text', t', ht, hok, hfrom, htext⟩ :=
    exists_rewritten divwTwice 4 4 (by decide) (by decide) (by decide) (by decide) (by decide) hwords
  have hfour : text' 4 = 0 := (htext 4).trans (by decide)
  have height : text' 8 = 0x7c642bd6 := (htext 8).trans (by decide)
  obtain ⟨hzeroed, hback⟩ := hfrom.zeroed
  have hne : text' 8 ≠ 0 := by
    rw [height]
    decide
  obtain ⟨hfirst, hfirst'⟩ := ticks_divide (C := looping) (fun _ => 0) 0 none hfrom (c := (1, 4)) trivial hfour rfl
  have hsecond := fun hist => ticks_exit (C := looping) hist 1 none t' (c := (0, 8)) hne rfl
  have hrun : ticks looping t' (2 + 5) (start (1, 4) text' (fun _ => 0) none) =
      ⟨.exited, (0, 8), text', countDenominator (fun _ => 0) 3, 1, none⟩ := by
    rw [ticks, Function.iterate_add_apply, start, hfirst]
    exact (hsecond _).1
  have htraced : traced looping t' (5 + 2) (start (1, 4) text' (fun _ => 0) none) = [(1, 4), (0, 8)] := by
    rw [traced, start, emitted_add, hfirst', hfirst]
    exact congrArg _ (hsecond _).2
  refine ⟨t, text', t', 7, 2, ht, hok, hzeroed, congrArg State.phase hrun, ?_, ?_, congrArg State.ndivw hrun⟩
  · rw [hback]
    exact htraced
  · rw [hback]
    decide

end Edaf35.Tracer
