import Edaf35.Tracer.InstrTable

/-!
# Rewriting the text of the child

`rewrite_instr` visits the words of a text section.  It zeroes a word when its extended opcode field is `EO_DIVW`, and
installs it in the table when also its primary opcode is `PO_X`.  The calls of `ptrace` act on one word and succeed.

The two tests agree on a section if and only if no word with the field `EO_DIVW` has another primary opcode; such a
word is zeroed and lost.  A section that ends at the last address is not visited at all, because its end wraps to 0.
-/

namespace Edaf35.Tracer

/-- The words of the child by address. -/
abbrev Text := UInt32 → UInt32

/-! ### The functions -/

/-- `PO_X`. -/
def poX : UInt32 := 31

/-- `EO_DIVW`. -/
def eoDivw : UInt32 := 491

def instrPrimary (instr : UInt32) : UInt32 := (instr >>> 26) &&& 0x3f

def instrField (instr pos num : UInt32) : UInt32 := (instr >>> (32 - pos - num)) &&& ((1 <<< num) - 1)

/-- The text after the word at `addr` was visited. -/
def visit (text : Text) (addr : UInt32) : Text :=
  if instrField (text addr) 21 10 = eoDivw then Function.update text addr 0 else text

/-- The loop of `rewrite_instr` from `addr` to `stop`. -/
def rewriteLoop (calloc : Nat → Bool) (stop : UInt32) :
    Nat → Text → InstrTable → Nat → UInt32 → Except Failure (Nat × Text × InstrTable)
  | 0, _, _, _, _ => .error .fault
  | fuel + 1, text, table, n, addr =>
    if addr < stop then
      let instr := text addr
      let text := visit text addr
      if instrPrimary instr = poX ∧ instrField instr 21 10 = eoDivw then do
        let table ← installInstr calloc table addr instr
        rewriteLoop calloc stop fuel text table (n + 1) (addr + 4)
      else rewriteLoop calloc stop fuel text table n (addr + 4)
    else .ok (n, text, table)

/-- `rewrite_instr`: the number of rewrites, the text and the table after it. -/
def rewriteInstr (calloc : Nat → Bool) (text : Text) (start size : UInt32) (table : InstrTable) :
    Except Failure (Nat × Text × InstrTable) :=
  rewriteLoop calloc (start + size) (2 ^ 32) text table 0 start

/-! ### The words of a section -/

/-- A divide word. -/
def IsDivw (instr : UInt32) : Prop := instrPrimary instr = poX ∧ instrField instr 21 10 = eoDivw

instance (instr : UInt32) : Decidable (IsDivw instr) := inferInstanceAs (Decidable (_ ∧ _))

/-- The address `p` of a word in the `size` bytes from `start` on. -/
def InRange (start : UInt32) (size : Nat) (p : UInt32) : Prop :=
  4 ∣ p.toNat ∧ start.toNat ≤ p.toNat ∧ p.toNat < start.toNat + size

instance (start : UInt32) (size : Nat) (p : UInt32) : Decidable (InRange start size p) :=
  inferInstanceAs (Decidable (_ ∧ _))

/-- The number of divide words among the `k` words from `start` on. -/
def countDivw (text : Text) (start : UInt32) (k : Nat) : Nat :=
  (List.range k).countP fun i => IsDivw (text (.ofNat (start.toNat + 4 * i)))

variable {text : Text} {addr start size p : UInt32} {k : Nat} {t : InstrTable} {calloc : Nat → Bool}

private theorem toNat_add_four (hlt : addr.toNat + 4 < 2 ^ 32) : (addr + 4).toNat = addr.toNat + 4 := by
  rw [UInt32.toNat_add]
  exact Nat.mod_eq_of_lt hlt

/-- The first word and the words after it. -/
private theorem inRange_succ (hal : 4 ∣ addr.toNat) (hlt : addr.toNat + 4 < 2 ^ 32) :
    InRange addr (4 * (k + 1)) p ↔ p = addr ∨ InRange (addr + 4) (4 * k) p := by
  unfold InRange
  rw [toNat_add_four hlt]
  constructor
  · rintro ⟨hp, hle, hup⟩
    by_cases heq : p.toNat = addr.toNat
    · exact Or.inl (UInt32.toNat_inj.1 heq)
    · exact Or.inr ⟨hp, by omega, by omega⟩
  · rintro (rfl | ⟨hp, hle, hup⟩)
    · exact ⟨hal, Nat.le_refl _, by omega⟩
    · exact ⟨hp, by omega, by omega⟩

private theorem countDivw_succ (hlt : addr.toNat + 4 < 2 ^ 32) :
    countDivw text addr (k + 1) = (if IsDivw (text addr) then 1 else 0) + countDivw text (addr + 4) k := by
  have hshift : (fun i => decide (IsDivw (text (.ofNat (addr.toNat + 4 * i))))) ∘ Nat.succ =
      fun i => decide (IsDivw (text (.ofNat ((addr + 4).toNat + 4 * i)))) := by
    funext i
    rw [Function.comp_apply, toNat_add_four hlt, Nat.succ_eq_add_one, Nat.mul_add, Nat.mul_one, Nat.add_assoc,
      Nat.add_comm 4]
  unfold countDivw
  rw [List.range_succ_eq_map, List.countP_cons, List.countP_map, hshift, Nat.mul_zero, Nat.add_zero,
    UInt32.ofNat_toNat, Nat.add_comm]
  simp only [decide_eq_true_eq]

private theorem visit_self : visit text addr addr = if instrField (text addr) 21 10 = eoDivw then 0 else text addr := by
  unfold visit
  split
  · exact Function.update_self ..
  · rfl

private theorem visit_of_ne (hp : p ≠ addr) : visit text addr p = text p := by
  unfold visit
  split
  · exact Function.update_of_ne hp ..
  · rfl

/-- A visit of the word before the first does not matter. -/
private theorem countDivw_visit (hlt : addr.toNat + 4 * (k + 1) < 2 ^ 32) :
    countDivw (visit text addr) (addr + 4) k = countDivw text (addr + 4) k := by
  unfold countDivw
  apply List.countP_congr
  intro i hi
  have hne : UInt32.ofNat ((addr + 4).toNat + 4 * i) ≠ addr := by
    rw [List.mem_range] at hi
    rw [toNat_add_four (by omega)]
    intro h
    have := congrArg UInt32.toNat h
    rw [UInt32.toNat_ofNat_of_lt' (by show _ < 2 ^ 32; omega)] at this
    omega
  rw [visit_of_ne hne]

/-! ### The loop -/

/-- What the loop has done to `k` words from `addr` on. -/
structure Rewritten (text : Text) (t : InstrTable) (addr : UInt32) (k : Nat) (text' : Text)
    (t' : InstrTable) : Prop where
  wellFormed : WellFormed t'
  text_eq : ∀ p, text' p = if InRange addr (4 * k) p ∧ instrField (text p) 21 10 = eoDivw then 0 else text p
  mem_iff : ∀ x, x ∈ entries t'.a ↔
    x ∈ entries t.a ∨ InRange addr (4 * k) x.addr ∧ IsDivw (text x.addr) ∧ x.instr = text x.addr

variable {text' : Text} {t₁ t' : InstrTable} {stop : UInt32} {fuel n : Nat}

/-- The first word, and then the others. -/
private theorem Rewritten.cons (hal : 4 ∣ addr.toNat) (hlt : addr.toNat + 4 < 2 ^ 32)
    (h : Rewritten (visit text addr) t₁ (addr + 4) k text' t')
    (hmem : ∀ x, x ∈ entries t₁.a ↔ x ∈ entries t.a ∨ x.addr = addr ∧ IsDivw (text addr) ∧ x.instr = text addr) :
    Rewritten text t addr (k + 1) text' t' := by
  have hself : ¬InRange (addr + 4) (4 * k) addr := fun hp => by
    have := hp.2.1
    rw [toNat_add_four hlt] at this
    omega
  refine ⟨h.wellFormed, fun p => ?_, fun x => ?_⟩
  · rw [h.text_eq p]
    by_cases hp : p = addr
    · subst hp
      simp only [hself, false_and, if_false, visit_self, (inRange_succ hal hlt).2 (Or.inl rfl), true_and]
    · simp only [visit_of_ne hp, inRange_succ hal hlt, hp, false_or]
  · rw [h.mem_iff x, hmem x, or_assoc]
    by_cases hp : x.addr = addr
    · simp only [hp, hself, false_and, or_false, true_and, (inRange_succ hal hlt).2 (Or.inl rfl)]
    · simp only [hp, false_and, false_or, visit_of_ne hp, inRange_succ hal hlt]

private theorem rewriteLoop_divw (hlt : addr < stop) (hdivw : IsDivw (text addr)) :
    rewriteLoop calloc stop (fuel + 1) text t n addr = (installInstr calloc t addr (text addr)).bind fun t =>
      rewriteLoop calloc stop fuel (visit text addr) t (n + 1) (addr + 4) := by
  rw [rewriteLoop, if_pos hlt]
  exact if_pos hdivw

private theorem rewriteLoop_other (hlt : addr < stop) (hdivw : ¬IsDivw (text addr)) :
    rewriteLoop calloc stop (fuel + 1) text t n addr =
      rewriteLoop calloc stop fuel (visit text addr) t n (addr + 4) := by
  rw [rewriteLoop, if_pos hlt]
  exact if_neg hdivw

private theorem rewriteLoop_spec (calloc : Nat → Bool) (text : Text) (h : WellFormed t)
    (hpos : 0 < k → 0 < addr.toNat) (hal : 4 ∣ addr.toNat)
    (hstop : stop.toNat = addr.toNat + 4 * k) (hfuel : k < fuel) (hnew : ∀ x ∈ t.a, ¬InRange addr (4 * k) x.addr) :
    (∃ text' t', rewriteLoop calloc stop fuel text t n addr = .ok (n + countDivw text addr k, text', t') ∧
        Rewritten text t addr k text' t') ∨
      (∃ e, rewriteLoop calloc stop fuel text t n addr = .error e) ∧
        ((∃ bytes, calloc bytes = false) ∨ 2 ^ 27 < t.n + countDivw text addr k) := by
  have hstopLt := stop.toNat_lt
  induction k generalizing addr text t n fuel with
  | zero =>
    obtain ⟨fuel, rfl⟩ : ∃ f, fuel = f + 1 := ⟨fuel - 1, by omega⟩
    have hge : ¬addr < stop := by rw [UInt32.lt_iff_toNat_lt]; omega
    have hempty : ∀ p, ¬InRange addr (4 * 0) p := fun p hp => by
      have := hp.2
      omega
    refine Or.inl ⟨text, t, ?_, h, fun p => ?_, fun x => ?_⟩
    · rw [rewriteLoop, if_neg hge]
      rfl
    · rw [if_neg fun hp => hempty p hp.1]
    · exact ⟨Or.inl, fun hx => hx.resolve_right fun hr => hempty _ hr.1⟩
  | succ k ih =>
    obtain ⟨fuel, rfl⟩ : ∃ f, fuel = f + 1 := ⟨fuel - 1, by omega⟩
    have hlt : addr < stop := by rw [UInt32.lt_iff_toNat_lt]; omega
    have hltNext : addr.toNat + 4 < 2 ^ 32 := by omega
    have hnext := toNat_add_four hltNext
    have hcount : countDivw (visit text addr) (addr + 4) k = countDivw text (addr + 4) k := countDivw_visit (by omega)
    have hsucc : countDivw text addr (k + 1) = (if IsDivw (text addr) then 1 else 0) + countDivw text (addr + 4) k :=
      countDivw_succ hltNext
    have hrest : ∀ x ∈ t.a, ¬InRange (addr + 4) (4 * k) x.addr :=
      fun x hx hr => hnew x hx ((inRange_succ hal hltNext).2 (Or.inr hr))
    have hpos' : 0 < k → 0 < (addr + 4).toNat := by omega
    have hal' : 4 ∣ (addr + 4).toNat := by omega
    have hstop' : stop.toNat = (addr + 4).toNat + 4 * k := by omega
    have hfuel' : k < fuel := by omega
    by_cases hdivw : IsDivw (text addr)
    · -- the word is installed
      rw [rewriteLoop_divw hlt hdivw, hsucc, if_pos hdivw]
      have haddr : addr ≠ 0 := by rintro rfl; exact absurd (hpos (Nat.succ_pos k)) (by decide)
      have hfresh : ∀ x ∈ t.a, x.addr ≠ addr := fun x hx hxa =>
        hnew x hx ((inRange_succ hal hltNext).2 (Or.inl hxa))
      rcases installInstr_spec calloc h haddr hfresh (text addr) with ⟨t₁, ht₁, hwf, hperm⟩ | ⟨⟨e, he⟩, hwhy⟩
      · rw [ht₁]
        have hn : t₁.n = t.n + 1 := by
          have hlen := hperm.length_eq
          rwa [List.length_cons, hwf.count, h.count] at hlen
        have hmem : ∀ x, x ∈ entries t₁.a ↔
            x ∈ entries t.a ∨ x.addr = addr ∧ IsDivw (text addr) ∧ x.instr = text addr := fun x => by
          rw [hperm.mem_iff, List.mem_cons, or_comm]
          refine or_congr_right ⟨?_, fun ⟨ha, _, hw⟩ => ?_⟩
          · rintro rfl
            exact ⟨rfl, hdivw, rfl⟩
          · cases x
            simp only at ha hw
            rw [ha, hw]
        have hnew₁ : ∀ x ∈ t₁.a, ¬InRange (addr + 4) (4 * k) x.addr := fun x hx hr => by
          have hlo := hr.2.1
          have hx0 : x.addr ≠ 0 := fun h0 => by
            rw [h0, hnext] at hlo
            exact absurd hlo (by simp)
          rcases (hmem x).1 (mem_entries.2 ⟨hx, hx0⟩) with hx' | ⟨hxa, -⟩
          · exact hrest x (mem_entries.1 hx').1 hr
          · rw [hxa, hnext] at hlo
            omega
        rcases ih (n := n + 1) (visit text addr) hwf hpos' hal' hstop' hfuel' hnew₁ with
          ⟨text', t', hloop, hr⟩ | ⟨⟨e, he⟩, hwhy⟩
        · refine Or.inl ⟨text', t', ?_, hr.cons hal hltNext hmem⟩
          rw [← Nat.add_assoc, ← hcount]
          exact hloop
        · exact Or.inr ⟨⟨e, he⟩, hwhy.imp_right fun hb => by omega⟩
      · rw [he]
        exact Or.inr ⟨⟨e, rfl⟩, hwhy.imp_right fun hb => by omega⟩
    · rw [rewriteLoop_other hlt hdivw, hsucc, if_neg hdivw, Nat.zero_add, ← hcount]
      rcases ih (n := n) (visit text addr) h hpos' hal' hstop' hfuel' hrest with ⟨text', t', hloop, hr⟩ | herr
      · exact Or.inl ⟨text', t', hloop, hr.cons hal hltNext fun x => by simp [hdivw]⟩
      · exact Or.inr herr

/-! ### The patched words and the table -/

/-- The divide words are zeroed and in the table, the other words of the section are neither, and `n` is the number of
divide words. -/
structure Agree (text : Text) (start size : UInt32) (n : Nat) (text' : Text) (t' : InstrTable) : Prop where
  divw : ∀ p, InRange start size.toNat p → IsDivw (text p) → text' p = 0 ∧ lookupInstr t' p = .ok (text p)
  other : ∀ p, InRange start size.toNat p → ¬IsDivw (text p) → text' p = text p ∧ ∀ x ∈ t'.a, x.addr ≠ p
  count : n = countDivw text start (size.toNat / 4)

/-- Every word with the field `EO_DIVW` is a divide word; a section that ends at the last address has no divide
words. -/
def Patchable (text : Text) (start size : UInt32) : Prop :=
  if start.toNat + size.toNat < 2 ^ 32 then
    ∀ p, InRange start size.toNat p → instrField (text p) 21 10 = eoDivw → IsDivw (text p)
  else ∀ p, InRange start size.toNat p → ¬IsDivw (text p)

theorem ne_zero_of_field {w : UInt32} (hw : instrField w 21 10 = eoDivw) : w ≠ 0 := by
  rintro rfl
  exact absurd hw (by decide)

private theorem Rewritten.agree_iff (h : Rewritten text t start (size.toNat / 4) text' t') (hsize : 4 ∣ size.toNat)
    (hzero : ¬InRange start size.toNat 0) (hnew : ∀ x ∈ t.a, ¬InRange start size.toNat x.addr) :
    Agree text start size (countDivw text start (size.toNat / 4)) text' t' ↔
      ∀ p, InRange start size.toNat p → instrField (text p) 21 10 = eoDivw → IsDivw (text p) := by
  obtain ⟨hwf, htext, hmem⟩ := h
  rw [Nat.mul_div_cancel' hsize] at htext hmem
  have hin : ∀ p x, InRange start size.toNat p → x ∈ t'.a → x.addr = p → IsDivw (text p) ∧ x.instr = text p := by
    rintro p x hp hx rfl
    have hx0 : x.addr ≠ 0 := fun h0 => hzero (h0 ▸ hp)
    rcases (hmem x).1 (mem_entries.2 ⟨hx, hx0⟩) with hold | ⟨-, hdivw, hw⟩
    · exact absurd hp (hnew x (mem_entries.1 hold).1)
    · exact ⟨hdivw, hw⟩
  constructor
  · intro hagree p hp hfield
    by_contra hdivw
    have hsame := (hagree.other p hp hdivw).1
    rw [htext p, if_pos ⟨hp, hfield⟩] at hsame
    exact ne_zero_of_field hfield hsame.symm
  · intro hfields
    refine ⟨fun p hp hdivw => ⟨?_, ?_⟩, fun p hp hdivw => ⟨?_, fun x hx hxp => ?_⟩, rfl⟩
    · rw [htext p, if_pos ⟨hp, hdivw.2⟩]
    · exact (lookupInstr_eq_ok_iff hwf).2 ((hmem _).2 (Or.inr ⟨hp, hdivw, rfl⟩))
    · rw [htext p, if_neg fun h => hdivw (hfields p hp h.2)]
    · exact hdivw (hin p x hp hx hxp).1

private theorem countDivw_eq_zero (hwrap : start.toNat + size.toNat ≤ 2 ^ 32) (hal : 4 ∣ start.toNat)
    (h : ∀ p, InRange start size.toNat p → ¬IsDivw (text p)) : countDivw text start (size.toNat / 4) = 0 := by
  unfold countDivw
  rw [List.countP_eq_zero]
  intro i hi
  rw [List.mem_range] at hi
  rw [decide_eq_true_eq]
  have hword : (UInt32.ofNat (start.toNat + 4 * i)).toNat = start.toNat + 4 * i :=
    UInt32.toNat_ofNat_of_lt' (by show _ < 2 ^ 32; omega)
  refine h _ ⟨?_, ?_, ?_⟩ <;> rw [hword] <;> omega

/-- A section that ends before the last address is rewritten word by word, unless memory runs out. -/
theorem rewriteInstr_spec (calloc : Nat → Bool) (text : Text) (h : WellFormed t) (hal : 4 ∣ start.toNat)
    (hsize : 4 ∣ size.toNat) (hlt : start.toNat + size.toNat < 2 ^ 32) (hzero : ¬InRange start size.toNat 0)
    (hnew : ∀ x ∈ t.a, ¬InRange start size.toNat x.addr) :
    (∃ text' t', rewriteInstr calloc text start size t = .ok (countDivw text start (size.toNat / 4), text', t') ∧
        Rewritten text t start (size.toNat / 4) text' t') ∨
      (∃ e, rewriteInstr calloc text start size t = .error e) ∧
        ((∃ bytes, calloc bytes = false) ∨ 2 ^ 27 < t.n + countDivw text start (size.toNat / 4)) := by
  have hstop : (start + size).toNat = start.toNat + 4 * (size.toNat / 4) := by
    rw [UInt32.toNat_add, Nat.mod_eq_of_lt hlt, Nat.mul_div_cancel' hsize]
  have hpos : 0 < size.toNat / 4 → 0 < start.toNat := fun hk => by
    by_contra h0
    exact hzero ⟨by simp, by omega, by show 0 < _; omega⟩
  have hnew' : ∀ x ∈ t.a, ¬InRange start (4 * (size.toNat / 4)) x.addr := by rwa [Nat.mul_div_cancel' hsize]
  have hfuel : size.toNat / 4 < 2 ^ 32 := by omega
  have hloop := rewriteLoop_spec (n := 0) calloc text h hpos hal hstop hfuel hnew'
  rwa [Nat.zero_add] at hloop

/-- On any section, if `rewrite_instr` returns, the zeroed words and the table agree if and only if the section is
patchable; it returns when there is memory and the table gets at most 2^27 instructions. -/
theorem rewriteInstr_agree_iff (calloc : Nat → Bool) (text : Text) (start size : UInt32) (h : WellFormed t)
    (hal : 4 ∣ start.toNat) (hsize : 4 ∣ size.toNat) (hwrap : start.toNat + size.toNat ≤ 2 ^ 32)
    (hzero : ¬InRange start size.toNat 0) (hnew : ∀ x ∈ t.a, ¬InRange start size.toNat x.addr) :
    ((∀ bytes, calloc bytes = true) → t.n + countDivw text start (size.toNat / 4) ≤ 2 ^ 27 →
        ∃ n text' t', rewriteInstr calloc text start size t = .ok (n, text', t')) ∧
      ∀ n text' t', rewriteInstr calloc text start size t = .ok (n, text', t') →
        (Agree text start size n text' t' ↔ Patchable text start size) := by
  unfold Patchable
  by_cases hlt : start.toNat + size.toNat < 2 ^ 32
  · rw [if_pos hlt]
    rcases rewriteInstr_spec calloc text h hal hsize hlt hzero hnew with ⟨text₁, t₁, hloop, hr⟩ | ⟨⟨e, he⟩, hwhy⟩
    · refine ⟨fun _ _ => ⟨_, _, _, hloop⟩, fun n text' t' hok => ?_⟩
      obtain ⟨rfl, rfl, rfl⟩ : countDivw text start (size.toNat / 4) = n ∧ text₁ = text' ∧ t₁ = t' := by
        simpa using hloop.symm.trans hok
      exact hr.agree_iff hsize hzero hnew
    · refine ⟨fun hmem hsmall => ?_, fun n text' t' hok => ?_⟩
      · rcases hwhy with ⟨bytes, hb⟩ | hb
        · rw [hmem bytes] at hb
          cases hb
        · omega
      · have := he.symm.trans hok
        cases this
  · -- the end is 0, so the loop visits nothing
    have hstop : start + size = 0 := by
      rw [← UInt32.toNat_inj, UInt32.toNat_add]
      show (start.toNat + size.toNat) % 2 ^ 32 = 0
      omega
    have hok : rewriteInstr calloc text start size t = .ok (0, text, t) := by
      rw [rewriteInstr, hstop]
      exact if_neg (by rw [UInt32.lt_iff_toNat_lt]; exact Nat.not_lt_zero _)
    rw [if_neg hlt, hok]
    refine ⟨fun _ _ => ⟨_, _, _, rfl⟩, fun n text' t' heq => ?_⟩
    obtain ⟨rfl, rfl, rfl⟩ : 0 = n ∧ text = text' ∧ t = t' := by simpa using heq
    constructor
    · intro hagree p hp hdivw
      exact ne_zero_of_field hdivw.2 (hagree.divw p hp hdivw).1
    · intro hnone
      refine ⟨fun p hp hdivw => absurd hdivw (hnone p hp), fun p hp _ => ⟨rfl, fun x hx hxp => ?_⟩, ?_⟩
      · exact hnew x hx (hxp ▸ hp)
      · exact (countDivw_eq_zero hwrap hal hnone).symm

/-! ### Two sections -/

/-- `divw r3,r4,r5` at 4, and `addi r0,r0,0` elsewhere. -/
def divwText : Text := fun p => if p = 4 then 0x7c642bd6 else 0x38000000

/-- `addi r0,r0,982`, whose extended opcode field is that of `divw`. -/
def addiText : Text := fun _ => 0x380003d6

private theorem words_four_eight (hp : InRange 4 8 p) : p = 4 ∨ p = 8 := by
  obtain ⟨h₁, h₂, h₃⟩ := hp
  rw [← UInt32.toNat_inj, ← UInt32.toNat_inj]
  simp only [UInt32.reduceToNat] at h₂ h₃ ⊢
  omega

/-- The words at 4 and 8 are patched, with a new table. -/
theorem rewriteInstr_agree_iff_divwText : ∃ t n text' t', newInstrTable (fun _ => true) = .ok t ∧
    rewriteInstr (fun _ => true) divwText 4 8 t = .ok (n, text', t') ∧ Agree divwText 4 8 n text' t' := by
  obtain ⟨t, ht⟩ : ∃ t, newInstrTable (fun _ => true) = .ok t := ⟨_, rfl⟩
  obtain ⟨hwf, hn, hempty⟩ := newInstrTable_wellFormed ht
  have hnew : ∀ x ∈ t.a, ¬InRange 4 (8 : UInt32).toNat x.addr := fun x hx => by rw [hempty x hx]; decide
  obtain ⟨hreturns, hagree⟩ := rewriteInstr_agree_iff (fun _ => true) divwText 4 8 hwf (by decide) (by decide)
    (by decide) (by decide) hnew
  obtain ⟨n, text', t', hok⟩ := hreturns (fun _ => rfl) (by rw [hn]; decide)
  refine ⟨t, n, text', t', ht, hok, (hagree n text' t' hok).2 ?_⟩
  rw [Patchable, if_pos (by decide)]
  intro p hp hfield
  rcases words_four_eight hp with rfl | rfl
  · decide
  · exact absurd hfield (by decide)

/-- The only word of the section is zeroed and not installed. -/
theorem rewriteInstr_not_agree : ∃ t text', newInstrTable (fun _ => true) = .ok t ∧
    rewriteInstr (fun _ => true) addiText 4 4 t = .ok (0, text', t) ∧ InRange 4 4 4 ∧ ¬IsDivw (addiText 4) ∧
      text' 4 = 0 ∧ ¬Agree addiText 4 4 0 text' t := by
  refine ⟨_, _, rfl, rfl, by decide, by decide, by decide, fun h => ?_⟩
  have := (h.other 4 (by decide) (by decide)).1
  exact absurd this (by decide)

end Edaf35.Tracer
