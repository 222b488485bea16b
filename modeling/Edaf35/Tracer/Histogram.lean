import Edaf35.Tracer.Simulation

/-!
# The histogram of the denominators

When the child has exited, `main` prints how often each denominator from 1 to `MAX_DENOMINATOR` occurred, up to its
sign, and in a last row the divide instructions that are in no other.  A zero is counted in element 0 of `hist`, which
has no row, so that it ends up in the last one, and the smallest number is its own absolute value, below every bound.
The report is right exactly when there is neither and no counter has wrapped around (`report_accounts_iff`).
-/

namespace Edaf35.Tracer

/-! ### The report -/

/-- What `main` prints at the end: the rows, the row after them, and the number of executed divide instructions.  There
are no rows unless an instruction was executed. -/
structure Report where
  rows : List (Nat × UInt64)
  above : Option UInt64
  ndivw : UInt64
deriving Repr

/-- The body of the loop over the histogram, with `sum` and the rows printed so far. -/
def printRow (hist : Nat → UInt64) (acc : UInt64 × List (Nat × UInt64)) (i : Nat) : UInt64 × List (Nat × UInt64) :=
  if hist i > 0 then (acc.1 + hist i, acc.2 ++ [(i, hist i)]) else acc

def report (hist : Nat → UInt64) (ndivw : UInt64) : Report :=
  if ndivw > 0 then
    let (sum, rows) := (List.range' 1 100).foldl (printRow hist) (0, [])
    ⟨rows, some (ndivw - sum), ndivw⟩
  else ⟨[], none, ndivw⟩

/-- The count in the row of `i`; a row that is not printed stands for 0. -/
def Report.shown (r : Report) (i : Nat) : UInt64 := (r.rows.lookup i).getD 0

/-- The count in the row of the larger denominators. -/
def Report.shownAbove (r : Report) : UInt64 := r.above.getD 0

/-! ### What the rows should be -/

/-- The absolute value of a denominator. -/
def magnitude (d : UInt32) : Nat := d.toInt32.toInt.natAbs

/-- The denominators whose absolute value is `i`. -/
def tally (ds : List UInt32) (i : Nat) : Nat := ds.countP fun d => magnitude d = i

def tallyAbove (ds : List UInt32) : Nat := ds.countP fun d => 100 < magnitude d

/-- Every update of `hist` for one of the denominators is at an index within its bounds. -/
def IndexOk (ds : List UInt32) : Prop :=
  ∀ d ∈ ds, (labs d).toInt32 ≤ maxDenominator → 0 ≤ (labs d).toInt32

/-- The report counts each denominator in its row. -/
structure Accounts (ds : List UInt32) (r : Report) : Prop where
  index : IndexOk ds
  row : ∀ i, 1 ≤ i → i ≤ 100 → (r.shown i).toNat = tally ds i
  above : r.shownAbove.toNat = tallyAbove ds

/-- The smallest number of 32 bits. -/
def mostNegative : UInt32 := 0x80000000

/-- There is no smallest number, the zeros do not show in the last row, and the counters have not wrapped around. -/
structure Accountable (ds : List UInt32) : Prop where
  noMostNegative : mostNegative ∉ ds
  zeros : 2 ^ 64 ∣ tally ds 0
  row : ∀ i, 1 ≤ i → i ≤ 100 → tally ds i < 2 ^ 64
  above : tallyAbove ds < 2 ^ 64
  total : 2 ^ 64 ∣ ds.length → tallyAbove ds = 0 ∧ ∀ i, 1 ≤ i → i ≤ 100 → tally ds i = 0

/-! ### Updates -/

private theorem toInt_toInt32 (d : UInt32) :
    d.toInt32.toInt = if d.toNat < 2 ^ 31 then (d.toNat : Int) else d.toNat - 2 ^ 32 := by
  have hbits : d.toInt32.toInt = d.toBitVec.toInt := rfl
  have hnat : d.toBitVec.toNat = d.toNat := rfl
  rw [hbits, BitVec.toInt_eq_toNat_cond, hnat]
  split <;> split <;> omega

/-- Except for the smallest number, `labs` is the absolute value. -/
private theorem labs_eq {d : UInt32} (hd : d ≠ mostNegative) :
    (labs d).toNat = magnitude d ∧ (labs d).toInt32.toInt = magnitude d := by
  have hlt : d.toNat < 2 ^ 32 := d.toNat_lt
  have hne : d.toNat ≠ 2 ^ 31 := fun h => hd (UInt32.toNat.inj h)
  have hsize : UInt32.size = 2 ^ 32 := rfl
  have hneg : d.toInt32 < 0 ↔ 2 ^ 31 ≤ d.toNat := by
    have hzero : (0 : Int32).toInt = 0 := rfl
    rw [Int32.lt_iff_toInt_lt, toInt_toInt32, hzero]
    split <;> omega
  have habs : (labs d).toNat = magnitude d ∧ (labs d).toNat < 2 ^ 31 := by
    unfold labs magnitude
    rw [toInt_toInt32]
    split
    · rename_i h
      rw [hneg] at h
      rw [UInt32.toNat_neg, hsize, if_neg (by omega)]
      omega
    · rename_i h
      rw [hneg] at h
      rw [if_pos (by omega)]
      omega
  refine ⟨habs.1, ?_⟩
  rw [toInt_toInt32, if_pos habs.2, habs.1]

private theorem counted_iff {d : UInt32} (hd : d ≠ mostNegative) :
    (labs d).toInt32 ≤ maxDenominator ↔ magnitude d ≤ 100 := by
  have hmax : maxDenominator.toInt = 100 := rfl
  rw [Int32.le_iff_toInt_le, (labs_eq hd).2, hmax]
  omega

/-- The updates are within the bounds of `hist` exactly when no denominator is the smallest number. -/
private theorem indexOk_iff {ds : List UInt32} : IndexOk ds ↔ mostNegative ∉ ds := by
  constructor
  · intro h hmem
    exact absurd (h _ hmem (by decide)) (by decide)
  · intro h d hd _
    have hne : d ≠ mostNegative := fun he => h (he ▸ hd)
    have hzero : (0 : Int32).toInt = 0 := rfl
    rw [Int32.le_iff_toInt_le, (labs_eq hne).2, hzero]
    omega

/-- Another denominator adds 1 to the element of its absolute value, if there is one. -/
private theorem countDenominator_apply {hist : Nat → UInt64} {d : UInt32} (hd : d ≠ mostNegative) {i : Nat}
    (hi : i ≤ 100) : countDenominator hist d i = if magnitude d = i then hist i + 1 else hist i := by
  unfold countDenominator
  by_cases hle : magnitude d ≤ 100
  · have hindex : histIndex (labs d) = magnitude d := by
      unfold histIndex
      rw [UInt32.toNat_mul, (labs_eq hd).1]
      have height : (8 : UInt32).toNat = 8 := rfl
      rw [height]
      omega
    rw [if_pos ((counted_iff hd).2 hle), hindex, Function.update_apply]
    by_cases heq : magnitude d = i
    · rw [if_pos heq.symm, if_pos heq, heq]
    · rw [if_neg (fun h => heq h.symm), if_neg heq]
  · rw [if_neg (fun h => hle ((counted_iff hd).1 h)), if_neg (fun h : magnitude d = i => hle (h ▸ hi))]

private theorem tally_cons (d : UInt32) (ds : List UInt32) (i : Nat) :
    tally (d :: ds) i = tally ds i + if magnitude d = i then 1 else 0 := by
  unfold tally
  rw [List.countP_cons]
  simp only [decide_eq_true_eq]

private theorem tallyAbove_cons (d : UInt32) (ds : List UInt32) :
    tallyAbove (d :: ds) = tallyAbove ds + if 100 < magnitude d then 1 else 0 := by
  unfold tallyAbove
  rw [List.countP_cons]
  simp only [decide_eq_true_eq]

/-- The histogram of a list of denominators, modulo 2 ^ 64. -/
private theorem foldl_countDenominator {ds : List UInt32} (hds : mostNegative ∉ ds) {i : Nat} (hi : i ≤ 100) :
    ds.foldl countDenominator (fun _ => 0) i = .ofNat (tally ds i) := by
  suffices key : ∀ (ds : List UInt32) (hist : Nat → UInt64), mostNegative ∉ ds →
      ds.foldl countDenominator hist i = hist i + .ofNat (tally ds i) by
    rw [key ds _ hds, UInt64.zero_add]
  intro ds
  induction ds with
  | nil =>
    intro hist _
    exact (UInt64.add_zero _).symm
  | cons d ds ih =>
    intro hist hmem
    rw [List.mem_cons, not_or] at hmem
    rw [List.foldl_cons, ih _ hmem.2, countDenominator_apply (fun h => hmem.1 h.symm) hi, tally_cons]
    split
    · rw [UInt64.ofNat_add, UInt64.add_assoc, UInt64.add_comm 1]
      rfl
    · rw [Nat.add_zero]

/-! ### The loop over the rows -/

private theorem eq_zero_of_not_pos {n : UInt64} (h : ¬n > 0) : n = 0 := by
  rcases Nat.eq_zero_or_pos n.toNat with hzero | hpos
  · exact UInt64.toNat.inj hzero
  · exact absurd hpos h

/-- The loop adds up the elements and prints those that are not 0. -/
private theorem foldl_printRow {hist : Nat → UInt64} {f : Nat → Nat} {l : List Nat}
    (hhist : ∀ i ∈ l, hist i = .ofNat (f i)) (n : Nat) (rows : List (Nat × UInt64)) :
    l.foldl (printRow hist) (.ofNat n, rows) =
      (.ofNat (n + (l.map f).sum), rows ++ (l.filter fun i => hist i > 0).map fun i => (i, hist i)) := by
  induction l generalizing n rows with
  | nil => simp
  | cons i l ih =>
    have hi : hist i = .ofNat (f i) := hhist i List.mem_cons_self
    have hrest : ∀ j ∈ l, hist j = .ofNat (f j) := fun j hj => hhist j (List.mem_cons_of_mem _ hj)
    rw [List.foldl_cons, List.map_cons, List.sum_cons, ← Nat.add_assoc]
    unfold printRow
    by_cases hpos : hist i > 0
    · rw [if_pos hpos, List.filter_cons_of_pos (by simpa using hpos), List.map_cons, hi, ← UInt64.ofNat_add]
      exact (ih hrest _ _).trans (by rw [List.append_assoc]; rfl)
    · have hadd : UInt64.ofNat n = .ofNat (n + f i) := by
        rw [UInt64.ofNat_add, ← hi, eq_zero_of_not_pos hpos, UInt64.add_zero]
      rw [if_neg hpos, List.filter_cons_of_neg (by simpa using hpos), hadd]
      exact ih hrest _ _

private theorem lookup_printed (hist : Nat → UInt64) (l : List Nat) (i : Nat) :
    (((l.filter fun i => hist i > 0).map fun i => (i, hist i)).lookup i).getD 0 = if i ∈ l then hist i else 0 := by
  induction l with
  | nil => rfl
  | cons j l ih =>
    by_cases hij : i = j
    · subst hij
      rw [if_pos List.mem_cons_self]
      by_cases hpos : hist i > 0
      · rw [List.filter_cons_of_pos (by simpa using hpos), List.map_cons, List.lookup_cons_self]
        rfl
      · rw [List.filter_cons_of_neg (by simpa using hpos), ih, eq_zero_of_not_pos hpos]
        exact ite_self 0
    · have hmem : i ∈ j :: l ↔ i ∈ l := by simp [hij]
      simp only [hmem, ← ih]
      by_cases hpos : hist j > 0
      · rw [List.filter_cons_of_pos (by simpa using hpos), List.map_cons, List.lookup_cons, beq_false_of_ne hij]
      · rw [List.filter_cons_of_neg (by simpa using hpos)]

/-! ### The rows of a list of denominators -/

private theorem sum_tally_cons (d : UInt32) (ds : List UInt32) (l : List Nat) :
    (l.map (tally (d :: ds))).sum = (l.map (tally ds)).sum + l.count (magnitude d) := by
  induction l with
  | nil => rfl
  | cons i l ih =>
    rw [List.map_cons, List.map_cons, List.sum_cons, List.sum_cons, ih, tally_cons, List.count_cons]
    by_cases h : magnitude d = i
    · rw [if_pos h, if_pos (by simpa using h.symm)]
      omega
    · rw [if_neg h, if_neg (by simpa using fun he => h he.symm)]
      omega

/-- Each denominator is 0, has a row, or belongs in the last row. -/
private theorem length_eq_tally (ds : List UInt32) :
    ds.length = tally ds 0 + ((List.range' 1 100).map (tally ds)).sum + tallyAbove ds := by
  induction ds with
  | nil => decide
  | cons d ds ih =>
    rw [List.length_cons, ih, sum_tally_cons, tally_cons, tallyAbove_cons, List.count_range_1']
    split <;> split <;> split <;> omega

/-- The rows printed for a list of denominators. -/
private theorem report_shown {ds : List UInt32} (hds : mostNegative ∉ ds) :
    (∀ i, 1 ≤ i → i ≤ 100 → (report (ds.foldl countDenominator (fun _ => 0)) (.ofNat ds.length)).shown i =
        if UInt64.ofNat ds.length = 0 then 0 else .ofNat (tally ds i)) ∧
      (report (ds.foldl countDenominator (fun _ => 0)) (.ofNat ds.length)).shownAbove =
        if UInt64.ofNat ds.length = 0 then 0 else .ofNat (tally ds 0 + tallyAbove ds) := by
  have hhist : ∀ i ∈ List.range' 1 100, ds.foldl countDenominator (fun _ => 0) i = .ofNat (tally ds i) := by
    intro i hi
    rw [List.mem_range'_1] at hi
    exact foldl_countDenominator hds (by omega)
  have hloop := foldl_printRow hhist 0 []
  unfold report Report.shown Report.shownAbove
  by_cases hpos : UInt64.ofNat ds.length > 0
  · have hne : UInt64.ofNat ds.length ≠ 0 := fun h => absurd hpos (by rw [h]; decide)
    rw [if_pos hpos]
    simp only [if_neg hne]
    have hzero : (UInt64.ofNat 0, ([] : List (Nat × UInt64))) = (0, []) := rfl
    rw [hzero] at hloop
    rw [hloop]
    constructor
    · intro i hlow hhigh
      have hi : i ∈ List.range' 1 100 := List.mem_range'_1.2 ⟨hlow, by omega⟩
      rw [List.nil_append, lookup_printed, if_pos hi, hhist i hi]
    · have hsplit : ds.length = tally ds 0 + tallyAbove ds + ((List.range' 1 100).map (tally ds)).sum := by
        have := length_eq_tally ds
        omega
      rw [Option.getD_some, Nat.zero_add, hsplit, UInt64.ofNat_add (tally ds 0 + tallyAbove ds), UInt64.add_sub_cancel]
  · rw [if_neg hpos, if_pos (eq_zero_of_not_pos hpos)]
    exact ⟨fun i _ _ => (if_pos (eq_zero_of_not_pos hpos)).symm, rfl⟩

private theorem toNat_ofNat (n : Nat) : (UInt64.ofNat n).toNat = n % 2 ^ 64 := UInt64.toNat_ofNat

private theorem ofNat_eq_zero_iff (n : Nat) : UInt64.ofNat n = 0 ↔ 2 ^ 64 ∣ n := by
  rw [← UInt64.toNat_inj, toNat_ofNat]
  exact (Nat.dvd_iff_mod_eq_zero ..).symm

section Iff

variable {ds : List UInt32} (hds : mostNegative ∉ ds)
include hds

/-- There are no rows, so there may be nothing to show. -/
private theorem accounts_iff_of_dvd (htotal : 2 ^ 64 ∣ ds.length) :
    Accounts ds (report (ds.foldl countDenominator (fun _ => 0)) (.ofNat ds.length)) ↔ Accountable ds := by
  obtain ⟨hrow, habove⟩ := report_shown hds
  rw [if_pos ((ofNat_eq_zero_iff _).2 htotal)] at habove
  simp only [if_pos ((ofNat_eq_zero_iff _).2 htotal)] at hrow
  constructor
  · intro h
    have hzero : ∀ i, 1 ≤ i → i ≤ 100 → tally ds i = 0 := by
      intro i hlow hhigh
      rw [← h.row i hlow hhigh, hrow i hlow hhigh]
      rfl
    have habove0 : tallyAbove ds = 0 := by
      rw [← h.above, habove]
      rfl
    have hsum : ((List.range' 1 100).map (tally ds)).sum = 0 := by
      rw [List.sum_eq_zero_iff_forall_eq_nat]
      intro n hn
      obtain ⟨i, hi, rfl⟩ := List.mem_map.1 hn
      rw [List.mem_range'_1] at hi
      exact hzero i hi.1 (by omega)
    have hlen := length_eq_tally ds
    rw [hsum, habove0] at hlen
    refine ⟨hds, by omega, fun i hlow hhigh => ?_, by omega, fun _ => ⟨habove0, hzero⟩⟩
    rw [hzero i hlow hhigh]
    omega
  · intro h
    obtain ⟨habove0, hzero⟩ := h.total htotal
    refine ⟨indexOk_iff.2 hds, fun i hlow hhigh => ?_, ?_⟩
    · rw [hrow i hlow hhigh, hzero i hlow hhigh]
      rfl
    · rw [habove, habove0]
      rfl

/-- Every counter shows its number of denominators, the last one those that are 0 as well. -/
private theorem accounts_iff_of_not_dvd (htotal : ¬2 ^ 64 ∣ ds.length) :
    Accounts ds (report (ds.foldl countDenominator (fun _ => 0)) (.ofNat ds.length)) ↔ Accountable ds := by
  obtain ⟨hrow, habove⟩ := report_shown hds
  rw [if_neg fun h => htotal ((ofNat_eq_zero_iff _).1 h)] at habove
  simp only [if_neg fun h => htotal ((ofNat_eq_zero_iff _).1 h)] at hrow
  constructor
  · intro h
    have hlast := h.above
    rw [habove, toNat_ofNat] at hlast
    refine ⟨hds, by omega, fun i hlow hhigh => ?_, by omega, fun hd => absurd hd htotal⟩
    have hi := h.row i hlow hhigh
    rw [hrow i hlow hhigh, toNat_ofNat] at hi
    omega
  · intro h
    have hzeros := h.zeros
    have hlast := h.above
    refine ⟨indexOk_iff.2 hds, fun i hlow hhigh => ?_, ?_⟩
    · rw [hrow i hlow hhigh, toNat_ofNat, Nat.mod_eq_of_lt (h.row i hlow hhigh)]
    · rw [habove, toNat_ofNat]
      omega

end Iff

/-- The report for a list of denominators counts each of them in its row exactly when they are accountable. -/
private theorem report_foldl_iff (ds : List UInt32) :
    Accounts ds (report (ds.foldl countDenominator (fun _ => 0)) (.ofNat ds.length)) ↔ Accountable ds := by
  by_cases hds : mostNegative ∈ ds
  · exact ⟨fun h => absurd hds (indexOk_iff.1 h.index), fun h => absurd hds h.noMostNegative⟩
  · by_cases htotal : 2 ^ 64 ∣ ds.length
    · exact accounts_iff_of_dvd hds htotal
    · exact accounts_iff_of_not_dvd hds htotal

/-- Denominators that fit in the counters, none of them 0 or the smallest number. -/
private theorem Accountable.of_lt {ds : List UInt32} (hneg : mostNegative ∉ ds) (hzero : 0 ∉ ds)
    (hlen : ds.length < 2 ^ 64) : Accountable ds := by
  have hle : ∀ i, tally ds i ≤ ds.length := fun i => List.countP_le_length
  have hnone : tally ds 0 = 0 := by
    unfold tally
    rw [List.countP_eq_zero]
    intro d hd hmag
    have hmag' : magnitude d = 0 := by simpa using hmag
    have hlt : d.toNat < 2 ^ 32 := d.toNat_lt
    unfold magnitude at hmag'
    rw [toInt_toInt32] at hmag'
    have hd0 : d.toNat = (0 : UInt32).toNat := by
      have hz : (0 : UInt32).toNat = 0 := rfl
      rw [hz]
      split at hmag' <;> omega
    exact hzero (UInt32.toNat.inj hd0 ▸ hd)
  refine ⟨hneg, ?_, fun i _ _ => lt_of_le_of_lt (hle i) hlen, ?_, fun hd => ?_⟩
  · rw [hnone]
    exact Nat.dvd_zero _
  · exact lt_of_le_of_lt List.countP_le_length hlen
  · have hnil : ds = [] := List.eq_nil_of_length_eq_zero (Nat.eq_zero_of_dvd_of_lt hd hlen)
    rw [hnil]
    exact ⟨rfl, fun _ _ _ => rfl⟩

/-! ### The denominators of a run -/

variable {σ : Type} (C : Child σ) (text : Text) (table : InstrTable)

/-- The denominator of the divide instruction that the child is about to execute. -/
def denominator (c : σ) : UInt32 := C.gpr c (instrField (unpatched text table (C.nip c)) 16 5)

/-- The denominators of the divide instructions executed in the given states of the child. -/
def denominators (l : List σ) : List UInt32 :=
  (l.filter fun c => IsDivw (unpatched text table (C.nip c))).map (denominator C text table)

variable {C text table}

/-- In a patched text the words in the table are all the divide words. -/
private theorem Patched.handled_eq (h : Patched text table) (l : List σ) :
    handled C table l = l.filter fun c => IsDivw (unpatched text table (C.nip c)) := by
  have hfrom := h.patchedFrom fun _ => True
  refine List.filter_congr fun c _ => Bool.eq_iff_iff.2 ?_
  rw [hfrom.inTable_iff trivial, decide_eq_true_eq]
  refine ⟨hfrom.isDivw trivial, fun hdivw => ?_⟩
  by_contra hne
  rw [← hfrom.other _ trivial hne] at hdivw
  exact h.rest _ hdivw

/-- When the child has exited, `main` has counted the denominators of all its divide instructions. -/
private theorem Patched.counted (h : Patched text table) (c : σ) (divfp : Option (List (UInt32 × UInt32))) {n : Nat}
    (hexit : (ticks C table n (start c text (fun _ => 0) divfp)).phase = .exited) :
    (ticks C table n (start c text (fun _ => 0) divfp)).hist =
        (denominators C text table (traced C table n (start c text (fun _ => 0) divfp))).foldl countDenominator
          (fun _ => 0) ∧
      (ticks C table n (start c text (fun _ => 0) divfp)).ndivw =
        .ofNat (denominators C text table (traced C table n (start c text (fun _ => 0) divfp))).length := by
  have hstays : Stays C (unpatched text table) (fun _ => True) (some c, 0) := fun _ _ _ => trivial
  have haccount := accounted_ticks (h.patchedFrom fun _ => True) hstays (fun _ => 0) divfp n
  have hhist := haccount.hist
  have hndivw := haccount.ndivw
  rw [announced_of_gone (Or.inl hexit), List.append_nil, h.handled_eq] at hhist hndivw
  rw [denominators, List.length_map]
  exact ⟨hhist, hndivw⟩

/-- The indices at which `main` updates `hist` are within its bounds exactly when no denominator is the smallest
number; and when the child has exited, the report counts each denominator in its row exactly when the denominators are
accountable. -/
theorem report_accounts_iff (h : Patched text table) (c : σ) (divfp : Option (List (UInt32 × UInt32))) (n : Nat) :
    (IndexOk (denominators C text table (traced C table n (start c text (fun _ => 0) divfp))) ↔
        mostNegative ∉ denominators C text table (traced C table n (start c text (fun _ => 0) divfp))) ∧
      ((ticks C table n (start c text (fun _ => 0) divfp)).phase = .exited →
        (Accounts (denominators C text table (traced C table n (start c text (fun _ => 0) divfp)))
            (report (ticks C table n (start c text (fun _ => 0) divfp)).hist
              (ticks C table n (start c text (fun _ => 0) divfp)).ndivw) ↔
          Accountable (denominators C text table (traced C table n (start c text (fun _ => 0) divfp))))) := by
  refine ⟨indexOk_iff, fun hexit => ?_⟩
  obtain ⟨hhist, hndivw⟩ := h.counted c divfp hexit
  rw [hhist, hndivw]
  exact report_foldl_iff _

/-! ### Every list of denominators is that of a run -/

/-- A child that divides by the given numbers, at the word at 4, and then exits at the word at 8. -/
def dividing : Child (List UInt32) where
  nip s := if s = [] then 8 else 4
  gpr s _ := s.headD 0
  exec _ s := if s = [] then none else some s.tail

private theorem denominators_append (l l' : List σ) :
    denominators C text table (l ++ l') = denominators C text table l ++ denominators C text table l' := by
  unfold denominators
  rw [List.filter_append, List.map_append]

private theorem dividing_run (h : Patched text table) (hback : unpatched text table = divwText) (hfour : text 4 = 0)
    (hist : Nat → UInt64) (ndivw : UInt64) (divfp : Option (List (UInt32 × UInt32))) (ds : List UInt32) :
    ∃ n, ((tick dividing table)^[n] ⟨.cont, ds, text, hist, ndivw, divfp⟩).phase = .exited ∧
      denominators dividing text table
        (emitted (tick dividing table) (executes dividing) n ⟨.cont, ds, text, hist, ndivw, divfp⟩) = ds := by
  have hfrom := h.patchedFrom fun _ => True
  induction ds generalizing hist ndivw divfp with
  | nil =>
    have height : text (dividing.nip []) ≠ 0 := by
      intro hzero
      have hdivw := hfrom.isDivw trivial hzero
      rw [hback] at hdivw
      exact absurd hdivw (by decide)
    obtain ⟨htick, hemit⟩ := ticks_exit (C := dividing) (c := []) hist ndivw divfp table height rfl
    refine ⟨2, ?_, ?_⟩
    · rw [htick]
    · rw [hemit, denominators, hback]
      rfl
  | cons d ds ih =>
    have hzero : text (dividing.nip (d :: ds)) = 0 := hfour
    obtain ⟨htick, hemit⟩ := ticks_divide (c := d :: ds) hist ndivw divfp hfrom trivial hzero rfl
    obtain ⟨n, hexit, hds⟩ := ih (countDenominator hist d) (ndivw + 1) (divfp.map fun l => l ++ [(d, d)])
    have hone : denominators dividing text table [d :: ds] = [d] := by
      rw [denominators, ← h.handled_eq, handled_of_zero hfrom trivial hzero]
      rfl
    refine ⟨5 + n, ?_, ?_⟩
    · rw [Nat.add_comm, Function.iterate_add_apply, htick]
      exact hexit
    · rw [emitted_add, denominators_append, hemit, hone, htick]
      exact congrArg (d :: ·) hds

/-- A child whose text was patched by `rewriteInstr` exits after dividing by the given numbers. -/
private theorem exists_denominators (ds : List UInt32) : ∃ t text' t' n, newInstrTable (fun _ => true) = .ok t ∧
    rewriteInstr (fun _ => true) divwText 4 8 t = .ok (1, text', t') ∧ Patched text' t' ∧
      (ticks dividing t' n (start ds text' (fun _ => 0) none)).phase = .exited ∧
      denominators dividing text' t' (traced dividing t' n (start ds text' (fun _ => 0) none)) = ds := by
  obtain ⟨t, text', t', ht, hok, hpatched, hback, hfour⟩ := patched_divwText
  obtain ⟨n, hexit, hds⟩ := dividing_run hpatched hback ((hpatched.zero_iff 4).2 ⟨_, hfour⟩) (fun _ => 0) 0 none ds
  exact ⟨t, text', t', n, ht, hok, hpatched, hexit, hds⟩

/-- Two divisions by 3 and one by -3. -/
theorem report_accounts_iff_threes : ∃ text' t' n, Patched text' t' ∧
    (ticks dividing t' n (start [3, 3, 0xfffffffd] text' (fun _ => 0) none)).phase = .exited ∧
      Accounts [3, 3, 0xfffffffd] (report (ticks dividing t' n (start [3, 3, 0xfffffffd] text' (fun _ => 0) none)).hist
        (ticks dividing t' n (start [3, 3, 0xfffffffd] text' (fun _ => 0) none)).ndivw) := by
  obtain ⟨t, text', t', n, -, -, hpatched, hexit, hds⟩ := exists_denominators [3, 3, 0xfffffffd]
  refine ⟨text', t', n, hpatched, hexit, ?_⟩
  have hiff := (report_accounts_iff hpatched [3, 3, 0xfffffffd] none n).2 hexit
  rw [hds] at hiff
  apply hiff.2
  apply Accountable.of_lt <;> decide

/-- A division by 0 is counted as one by a number above 100. -/
theorem not_accounts : ∃ text' t' n, Patched text' t' ∧
    (ticks dividing t' n (start [0] text' (fun _ => 0) none)).phase = .exited ∧
      denominators dividing text' t' (traced dividing t' n (start [0] text' (fun _ => 0) none)) = [0] ∧
      ¬Accounts [0] (report (ticks dividing t' n (start [0] text' (fun _ => 0) none)).hist
        (ticks dividing t' n (start [0] text' (fun _ => 0) none)).ndivw) := by
  obtain ⟨t, text', t', n, -, -, hpatched, hexit, hds⟩ := exists_denominators [0]
  refine ⟨text', t', n, hpatched, hexit, hds, ?_⟩
  obtain ⟨hhist, hndivw⟩ := hpatched.counted [0] none hexit
  rw [hhist, hndivw, hds, report_foldl_iff]
  intro h
  exact absurd h.zeros (by decide)

end Edaf35.Tracer
