import Edaf35.Ssfs.WellFormed

/-!
# Looking up, adding and removing directory entries

In a table of `n` entries `find_dir_entry` returns the one entry whose name agrees with the path in its first
`FS_NAME_LEN` characters, `first_empty_dir_entry` returns entry `n`, and `scooch_dir_entries` moves the entries after
the removed one down by one place and leaves an entry with an empty name at place `n - 1`.
-/

namespace Edaf35.Ssfs

variable {bs n : Nat} {b : Block bs}

/-- The entry bears the name `path`. -/
def HasName (e : DirEntry) (path : List UInt8) : Prop := nameKey fsNameLen e.name = nameKey fsNameLen path

instance (e : DirEntry) (path : List UInt8) : Decidable (HasName e path) :=
  inferInstanceAs (Decidable (_ = _))

theorem strncmp_path_iff {e : DirEntry} {path : List UInt8} :
    strncmp path e.name fsNameLen = 0 ↔ HasName e path := by
  rw [strncmp_eq_zero_iff]; exact eq_comm

/-! ### Lookup -/

private theorem findLoop_sound (h : Slots bs b.entry n) {path : List UInt8} {k di : Nat} (hdi : di ≤ n)
    (hk : di + k = dirEntriesPerBlock bs) :
    (∀ i, findLoop b path k di = some i → i < n ∧ HasName (b.entry i) path) ∧
      (findLoop b path k di = none → ∀ i, di ≤ i → i < n → ¬HasName (b.entry i) path) := by
  induction k generalizing di with
  | zero =>
    have := h.count_le
    refine ⟨fun i hi => (by cases hi), fun _ i hi hn => ?_⟩
    omega
  | succ k ih =>
    rw [findLoop]
    by_cases hn : di < n
    · rw [if_neg (by rw [h.used di hn]; decide)]
      obtain ⟨hsome, hnone⟩ := @ih (di + 1) (by omega) (by omega)
      by_cases hname : HasName (b.entry di) path
      · rw [if_pos (strncmp_path_iff.2 hname)]
        refine ⟨fun i hi => ?_, fun hi => (by cases hi)⟩
        cases hi
        exact ⟨hn, hname⟩
      · rw [if_neg (fun hc => hname (strncmp_path_iff.1 hc))]
        refine ⟨hsome, fun hf i hle hi => ?_⟩
        rcases Nat.lt_or_eq_of_le hle with hlt | rfl
        · exact hnone hf i hlt hi
        · exact hname
    · rw [if_pos (h.unused di (by omega) (by omega))]
      refine ⟨fun i hi => (by cases hi), fun _ i hle hi => ?_⟩
      omega

/-- The entry found has the name. -/
theorem Slots.of_findDirEntry (h : Slots bs b.entry n) {path : List UInt8} {i : Nat}
    (hf : findDirEntry b path = some i) : i < n ∧ HasName (b.entry i) path :=
  (findLoop_sound h (Nat.zero_le _) (Nat.zero_add _)).1 i hf

private theorem Slots.findDirEntry_none (h : Slots bs b.entry n) {path : List UInt8} (hf : findDirEntry b path = none)
    {i : Nat} (hi : i < n) : ¬HasName (b.entry i) path :=
  (findLoop_sound h (Nat.zero_le _) (Nat.zero_add _)).2 hf i (Nat.zero_le i) hi

theorem Table.unique {dir : Nat → DirEntry} {path : List UInt8} (h : Table bs dir n) {i j : Nat} (hi : i < n)
    (hj : j < n) (hni : HasName (dir i) path) (hnj : HasName (dir j) path) : i = j := by
  by_contra hne
  exact h.names i j hi hj hne (strncmp_eq_zero_iff.2 (hni.trans hnj.symm))

theorem findDirEntry_eq_some (h : Table bs b.entry n) {path : List UInt8} {i : Nat} :
    findDirEntry b path = some i ↔ i < n ∧ HasName (b.entry i) path := by
  refine ⟨h.slots.of_findDirEntry, fun ⟨hi, hn⟩ => ?_⟩
  cases hf : findDirEntry b path with
  | none => exact absurd hn (h.slots.findDirEntry_none hf hi)
  | some j =>
    obtain ⟨hj, hnj⟩ := h.slots.of_findDirEntry hf
    rw [h.unique hj hi hnj hn]

theorem findDirEntry_eq_none (h : Table bs b.entry n) {path : List UInt8} :
    findDirEntry b path = none ↔ ∀ i, i < n → ¬HasName (b.entry i) path := by
  rw [Option.eq_none_iff_forall_ne_some]
  constructor
  · intro hall i hi hn
    exact hall i ((findDirEntry_eq_some h).2 ⟨hi, hn⟩)
  · intro hall i hs
    obtain ⟨hi, hn⟩ := (findDirEntry_eq_some h).1 hs
    exact hall i hi hn

private theorem findLoop_congr {b' : Block bs} (h : b'.entry = b.entry) (path : List UInt8) (k di : Nat) :
    findLoop b' path k di = findLoop b path k di := by
  induction k generalizing di with
  | zero => rfl
  | succ k ih => simp only [findLoop, h, ih]

/-- The lookup reads the entries only. -/
theorem findDirEntry_congr {b' : Block bs} (h : b'.entry = b.entry) (path : List UInt8) :
    findDirEntry b' path = findDirEntry b path := findLoop_congr h path _ _

/-! ### The first empty entry -/

private theorem firstEmptyLoop_eq (h : Slots bs b.entry n) {k di : Nat} (hdi : di ≤ n)
    (hk : di + k = dirEntriesPerBlock bs) :
    firstEmptyLoop b k di = if n < dirEntriesPerBlock bs then some n else none := by
  induction k generalizing di with
  | zero => rw [firstEmptyLoop, if_neg (by omega)]
  | succ k ih =>
    rw [firstEmptyLoop]
    by_cases hn : di < n
    · rw [if_neg (by rw [h.used di hn]; decide), ih (by omega) (by omega)]
    · rw [if_pos (h.unused di (by omega) (by omega)), if_pos (by omega), show di = n by omega]

theorem firstEmptyDirEntry_eq (h : Slots bs b.entry n) :
    firstEmptyDirEntry b = if n < dirEntriesPerBlock bs then some n else none :=
  firstEmptyLoop_eq h (Nat.zero_le _) (Nat.zero_add _)

/-! ### Removing an entry -/

/-- The entry with an empty name. -/
def DirEntry.cleared (e : DirEntry) : DirEntry := { e with name := 0 :: e.name.tail }

private theorem DirEntry.cleared_isEmpty (e : DirEntry) : e.cleared.isEmpty = true := by simp [cleared, isEmpty]

/-- The table `dir` of `n` entries after entry `i` was removed. -/
def removed (dir : Nat → DirEntry) (n i j : Nat) : DirEntry :=
  if j < i then dir j
  else if j + 1 < n then dir (j + 1)
  else if j + 1 = n then (dir j).cleared
  else dir j

/-- Removing the last entry clears its name. -/
private theorem removed_last (dir : Nat → DirEntry) {i : Nat} (h : i + 1 = n) :
    removed dir n i = Function.update dir i (dir i).cleared := by
  funext j
  unfold removed
  by_cases hj : j = i
  · subst hj
    rw [Function.update_self, if_neg (by omega), if_neg (by omega), if_pos h]
  · rw [Function.update_of_ne hj]
    split
    · rfl
    · rw [if_neg (by omega), if_neg (by omega)]

/-- Removing entry `i` is copying the next entry over it and removing that one. -/
private theorem removed_copy (dir : Nat → DirEntry) {i : Nat} (h : i + 1 < n) :
    removed (Function.update dir i (dir (i + 1))) n (i + 1) = removed dir n i := by
  have hother : ∀ j, j ≠ i → Function.update dir i (dir (i + 1)) j = dir j :=
    fun j hj => Function.update_of_ne hj _ _
  funext j
  unfold removed
  rcases Nat.lt_trichotomy j i with hj | rfl | hj
  · rw [if_pos (by omega), if_pos hj, hother j (by omega)]
  · rw [if_pos (by omega), if_neg (by omega), if_pos h, Function.update_self]
  · rw [if_neg (show ¬j < i + 1 by omega), if_neg (show ¬j < i by omega), hother j (by omega),
      hother (j + 1) (by omega)]

private theorem scoochLoop_entry {k di : Nat} (hk : di + k + 1 = dirEntriesPerBlock bs) (hdi : di < n)
    (hn : n ≤ dirEntriesPerBlock bs) (hused : ∀ j, di < j → j < n → (b.entry j).isEmpty = false)
    (hunused : ∀ j, n ≤ j → j < dirEntriesPerBlock bs → (b.entry j).isEmpty = true) :
    (scoochLoop k di b).entry = removed b.entry n di := by
  induction k generalizing di b with
  | zero => rw [scoochLoop, entry_clearName b (by omega), removed_last _ (by omega), DirEntry.cleared]
  | succ k ih =>
    rw [scoochLoop]
    by_cases he : di + 1 = n
    · rw [if_pos (hunused _ (by omega) (by omega)), entry_clearName b (by omega), removed_last _ he,
        DirEntry.cleared]
    · have hcopy := entry_copyEntry b (i := di) (by omega) (di + 1)
      rw [if_neg (by rw [hused _ (by omega) (by omega)]; decide), ih (by omega) (by omega), hcopy,
        removed_copy _ (by omega)]
      · intro j h₁ h₂
        rw [hcopy, Function.update_of_ne (by omega)]; exact hused j (by omega) h₂
      · intro j h₁ h₂
        rw [hcopy, Function.update_of_ne (by omega)]; exact hunused j h₁ h₂

theorem scoochDirEntries_entry (h : Slots bs b.entry n) {di : Nat} (hdi : di < n) :
    (scoochDirEntries b di).entry = removed b.entry n di := by
  have := h.count_le
  exact scoochLoop_entry (by omega) hdi h.count_le (fun j _ hj => h.used j hj) h.unused

theorem removed_of_lt (dir : Nat → DirEntry) {i j : Nat} (hj : j + 1 < n) : removed dir n i j = dir (skip i j) := by
  unfold removed skip
  rw [if_pos hj]
  split <;> rfl

theorem Slots.remove {dir : Nat → DirEntry} (h : Slots bs dir n) {i : Nat} (hi : i < n) :
    Slots bs (removed dir n i) (n - 1) := by
  refine ⟨by have := h.count_le; omega, ?_, ?_⟩
  · intro j hj
    rw [removed_of_lt dir (by omega)]
    exact h.used _ (skip_lt (by omega))
  · intro j hj hjN
    unfold removed
    rw [if_neg (by omega), if_neg (by omega)]
    split
    · exact DirEntry.cleared_isEmpty _
    · exact h.unused j (by omega) hjN

/-- A new entry at place `n`. -/
theorem Slots.add {dir : Nat → DirEntry} (h : Slots bs dir n) (hn : n < dirEntriesPerBlock bs) {e : DirEntry}
    {path : List UInt8} (he : HasName e path) (hne : nameKey fsNameLen path ≠ []) :
    Slots bs (Function.update dir n e) (n + 1) := by
  refine ⟨by omega, ?_, ?_⟩
  · intro j hj
    rcases Nat.lt_or_eq_of_le (Nat.le_of_lt_succ hj) with hj | rfl
    · rw [Function.update_of_ne (by omega)]
      exact h.used j hj
    · rw [Function.update_self, Bool.eq_false_iff, ne_eq, isEmpty_iff, he]
      exact hne
  · intro j hj hjN
    rw [Function.update_of_ne (by omega)]
    exact h.unused j (by omega) hjN

/-- A new entry at place `n` with a name of its own. -/
theorem Table.add {dir : Nat → DirEntry} (h : Table bs dir n) (hn : n < dirEntriesPerBlock bs) {e : DirEntry}
    {path : List UInt8} (he : HasName e path) (hne : nameKey fsNameLen path ≠ [])
    (hnew : ∀ i, i < n → ¬HasName (dir i) path) : Table bs (Function.update dir n e) (n + 1) := by
  have hlt : ∀ j, j < n → Function.update dir n e j = dir j := fun j hj => Function.update_of_ne (by omega) _ _
  have hdiff : ∀ j, j < n → strncmp (dir j).name e.name fsNameLen ≠ 0 :=
    fun j hj hc => hnew j hj ((strncmp_eq_zero_iff.1 hc).trans he)
  obtain ⟨hcount, hused, hunused⟩ := h.slots.add hn he hne
  refine ⟨hcount, hused, hunused, fun j k hj hk hjk => ?_⟩
  rcases Nat.lt_or_eq_of_le (Nat.le_of_lt_succ hj) with hj | rfl
  · rw [hlt j hj]
    rcases Nat.lt_or_eq_of_le (Nat.le_of_lt_succ hk) with hk | rfl
    · rw [hlt k hk]; exact h.names j k hj hk hjk
    · rw [Function.update_self]; exact hdiff j hj
  · have hk : k < j := by omega
    rw [hlt k hk, Function.update_self]
    exact fun hc => hdiff k hk (strncmp_eq_zero_iff.2 (strncmp_eq_zero_iff.1 hc).symm)

private theorem update_name {dir : Nat → DirEntry} {i : Nat} {e : DirEntry} (he : e.name = (dir i).name) (j : Nat) :
    (Function.update dir i e j).name = (dir j).name := by
  by_cases hj : j = i
  · subst hj; rw [Function.update_self, he]
  · rw [Function.update_of_ne hj]

/-- An entry whose name stays may change in its other fields. -/
theorem Slots.setEntry {dir : Nat → DirEntry} (h : Slots bs dir n) {i : Nat} {e : DirEntry}
    (he : e.name = (dir i).name) : Slots bs (Function.update dir i e) n := by
  have hempty : ∀ j, (Function.update dir i e j).isEmpty = (dir j).isEmpty := by
    intro j; simp only [DirEntry.isEmpty, update_name he]
  refine ⟨h.count_le, ?_, ?_⟩
  · intro j hj; rw [hempty]; exact h.used j hj
  · intro j hj hjN; rw [hempty]; exact h.unused j hj hjN

theorem Table.setEntry {dir : Nat → DirEntry} (h : Table bs dir n) {i : Nat} {e : DirEntry}
    (he : e.name = (dir i).name) : Table bs (Function.update dir i e) n := by
  obtain ⟨hcount, hused, hunused⟩ := h.slots.setEntry he
  refine ⟨hcount, hused, hunused, fun j k hj hk hjk => ?_⟩
  rw [update_name he, update_name he]
  exact h.names j k hj hk hjk

end Edaf35.Ssfs
