import Edaf35.Ssfs.Session

/-!
# The names in the directory

`live cs` is the set of the names that the calls `cs` created and did not unlink since.  The directory holds the first
`FS_NAME_LEN` characters of each name (`stored cs`), and `do_getattr` compares as many, but `do_readdir` passes on
only `FS_NAME_LEN - 1` of them.
-/

namespace Edaf35.Ssfs

variable {bs : Nat} {δ : Type}

/-! ### Sets of names -/

/-- The names after the call `c`, if a name `name` is kept as `cut name`. -/
def Call.names (cut : List UInt8 → List UInt8) (ns : Finset (List UInt8)) : Call bs → Finset (List UInt8)
  | .create name _ _ => insert (cut name) ns
  | .unlink name _ => ns.erase (cut name)
  | _ => ns

/-- The names created and not yet unlinked. -/
def live (cs : List (Call bs)) : Finset (List UInt8) := cs.foldl (Call.names id) ∅

/-- What the directory keeps of the names created. -/
def stored (cs : List (Call bs)) : Finset (List UInt8) := cs.foldl (Call.names (List.take fsNameLen)) ∅

private theorem live_append (cs : List (Call bs)) (c' : Call bs) : live (cs ++ [c']) = c'.names id (live cs) := by
  simp [live, List.foldl_append]

private theorem stored_append (cs : List (Call bs)) (c' : Call bs) :
    stored (cs ++ [c']) = c'.names (List.take fsNameLen) (stored cs) := by
  simp [stored, List.foldl_append]

private theorem take_eq_iff {name nm : List UInt8} (h : nm.length < fsNameLen) :
    name.take fsNameLen = nm ↔ name = nm := by
  constructor
  · intro he
    have hlen := congrArg List.length he
    rw [List.length_take] at hlen
    rwa [List.take_of_length_le (by omega)] at he
  · rintro rfl
    exact List.take_of_length_le (Nat.le_of_lt h)

/-- A name shorter than the field is kept as it is. -/
private theorem mem_live_iff {cs : List (Call bs)} {nm : List UInt8} (h : nm.length < fsNameLen) :
    nm ∈ live cs ↔ nm ∈ stored cs := by
  induction cs using List.reverseRecOn with
  | nil => exact Iff.rfl
  | append_singleton cs c' ih =>
    rw [live_append, stored_append]
    cases c' with
    | create name m now =>
      simp only [Call.names, Finset.mem_insert, id, eq_comm (a := nm), take_eq_iff h, ih]
    | unlink name now =>
      simp only [Call.names, Finset.mem_erase, id, ne_eq, eq_comm (a := nm), take_eq_iff h, ih]
    | write => exact ih
    | truncate => exact ih
    | read => exact ih

/-- A name that fills the field comes from a long name. -/
private theorem exists_long {cs : List (Call bs)} {key : List UInt8} (hkey : key ∈ stored cs)
    (hlen : fsNameLen ≤ key.length) : ∃ nm ∈ live cs, fsNameLen ≤ nm.length ∧ nm.take fsNameLen = key := by
  induction cs using List.reverseRecOn generalizing key with
  | nil => cases hkey
  | append_singleton cs c' ih =>
    rw [stored_append] at hkey
    rw [live_append]
    cases c' with
    | create name m now =>
      rcases Finset.mem_insert.1 hkey with rfl | hkey
      · rw [List.length_take] at hlen
        exact ⟨name, Finset.mem_insert_self .., by omega, rfl⟩
      · obtain ⟨nm, hnm, hl, rfl⟩ := ih hkey hlen
        exact ⟨nm, Finset.mem_insert_of_mem hnm, hl, rfl⟩
    | unlink name now =>
      obtain ⟨hne, hkey⟩ := Finset.mem_erase.1 hkey
      obtain ⟨nm, hnm, hl, rfl⟩ := ih hkey hlen
      refine ⟨nm, Finset.mem_erase.2 ⟨?_, hnm⟩, hl, rfl⟩
      rintro rfl
      exact hne rfl
    | write => exact ih hkey hlen
    | truncate => exact ih hkey hlen
    | read => exact ih hkey hlen

/-! ### What `do_getattr` and `do_readdir` answer -/

section Answers

variable [RawDisk bs δ] [LawfulRawDisk bs δ] {s s' : Fs bs δ} {n : Nat} {free : List Nat} {file : Nat → List Nat}
  {name : List UInt8}

omit [RawDisk bs δ] [LawfulRawDisk bs δ] in
theorem isRoot_pathOf (h : IsName name) : isRoot (pathOf name) = false := by
  have hp : cstr (pathOf name) = rootPath ++ name := by
    have := cstr_of_isName h
    unfold cstr at this ⊢
    rw [pathOf, rootPath, List.singleton_append, List.takeWhile_cons_of_pos (by decide), this]
  have hr : cstr rootPath = rootPath := by decide
  unfold isRoot
  rw [hp, hr, decide_eq_false_iff_not]
  simpa using h.1

/-- `do_getattr` finds a name when the directory has an entry of that name. -/
private theorem doGetattr_eq (h : WellFormedAt bs (diskMap s.disk) (diskDir s.disk) n free file) (hname : IsName name)
    (st : Stat) (uid gid : UInt32) (now : UInt64) :
    ((doGetattr s (pathOf name) st uid gid now).1 = 0 ↔ ∃ i, i < n ∧ HasName (diskDir s.disk i) name) ∧
      ((doGetattr s (pathOf name) st uid gid now).1 = -enoent ↔ ∀ i, i < n → ¬HasName (diskDir s.disk i) name) := by
  unfold doGetattr
  rw [isRoot_pathOf hname, tail_pathOf]
  simp only [Bool.false_eq_true, if_false]
  cases hfind : findDirEntry (loadDirectory s).bdir name with
  | some i =>
    have hi := (h.findDirEntry_iff s rfl).1 hfind
    exact ⟨iff_of_true rfl ⟨i, hi⟩,
      iff_of_false (show ¬(0 : Int) = -enoent by decide) fun hno => hno i hi.1 hi.2⟩
  | none =>
    have hno := (h.findDirEntry_none s rfl).1 hfind
    exact ⟨iff_of_false (show ¬(-enoent : Int) = 0 by decide) fun ⟨i, hi, hn⟩ => hno i hi hn, iff_of_true rfl hno⟩

omit [RawDisk bs δ] [LawfulRawDisk bs δ] in
private theorem readdirLoop_eq {b : Block bs} (h : Slots bs b.entry n) {k i : Nat} (hi : i ≤ n)
    (hk : i + k = dirEntriesPerBlock bs) :
    readdirLoop b k i = (List.range' i (n - i)).map fun j => snprintf fsNameLen (b.entry j).name := by
  induction k generalizing i with
  | zero =>
    have := h.count_le
    rw [readdirLoop, show n - i = 0 by omega]
    rfl
  | succ k ih =>
    rw [readdirLoop]
    by_cases hn : i < n
    · rw [if_neg (by rw [h.used i hn]; decide), ih (by omega) (by omega), show n - i = n - (i + 1) + 1 by omega,
        List.range'_succ, List.map_cons]
    · rw [if_pos (h.unused i (by omega) (by omega)), show n - i = 0 by omega]
      rfl

/-- `do_readdir` passes on the first `FS_NAME_LEN - 1` characters of each name. -/
theorem doReaddir_sound (h : Slots bs (diskDir s.disk) n) (stack : Block bs) :
    doReaddir s rootPath stack = (0, [[46], [46, 46]] ++
      (List.range n).map fun i => (nameKey fsNameLen (diskDir s.disk i).name).take (fsNameLen - 1)) := by
  have hloop := readdirLoop_eq h (Nat.zero_le n) (Nat.zero_add _)
  rw [Nat.sub_zero, ← List.range_eq_range'] at hloop
  unfold doReaddir
  rw [if_pos (by decide), readBlock_eq s.disk (by decide)]
  refine congrArg (fun l => ((0 : Int), [[46], [46, 46]] ++ l)) (hloop.trans (List.map_congr_left fun i _ => ?_))
  rw [snprintf, nameKey_eq_take, List.take_take]
  rfl

private theorem doReaddir_eq (h : WellFormedAt bs (diskMap s.disk) (diskDir s.disk) n free file) (stack : Block bs) :
    doReaddir s rootPath stack = (0, [[46], [46, 46]] ++
      (List.range n).map fun i => (nameKey fsNameLen (diskDir s.disk i).name).take (fsNameLen - 1)) :=
  doReaddir_sound h.table.slots stack

end Answers

/-! ### Runs -/

section Runs

variable [RawDisk bs δ] [LawfulRawDisk bs δ] {s s' : Fs bs δ} {cs : List (Call bs)} {fuel : Nat}

/-- The directory holds the names `stored cs`. -/
def Lists (cs : List (Call bs)) (s : Fs bs δ) : Prop :=
  ∃ n free file, WellFormedAt bs (diskMap s.disk) (diskDir s.disk) n free file ∧
    ∀ key, (∃ i, i < n ∧ nameKey fsNameLen (diskDir s.disk i).name = key) ↔ key ∈ stored cs

omit [LawfulRawDisk bs δ] in
/-- A call that neither creates nor unlinks, and keeps the names of the entries. -/
private theorem lists_same {c' : Call bs} (hc : ∀ ns, c'.names (List.take fsNameLen) ns = ns) {n : Nat}
    {free : List Nat} {file : Nat → List Nat}
    (hkeys : ∀ key, (∃ i, i < n ∧ nameKey fsNameLen (diskDir s.disk i).name = key) ↔ key ∈ stored cs)
    (h' : WellFormedAt bs (diskMap s'.disk) (diskDir s'.disk) n free file)
    (hnames : ∀ j, (diskDir s'.disk j).name = (diskDir s.disk j).name) : Lists (cs ++ [c']) s' := by
  refine ⟨n, free, file, h', fun key => ?_⟩
  rw [stored_append, hc, ← hkeys]
  simp only [hnames]

/-- `do_create` adds the name of the new entry. -/
private theorem Lists.create {name : List UInt8} {m : UInt32} {now : UInt64} {r : Int} (h : Lists cs s)
    (hname : IsName name) (hnew : name.take fsNameLen ∉ stored cs) (hd : doCreate s (pathOf name) m now = some (r, s'))
    (hr : 0 ≤ r) :
    Lists (cs ++ [.create name m now]) s' := by
  obtain ⟨n, free, file, h, hkeys⟩ := h
  have habsent : ∀ i, i < n → ¬HasName (diskDir s.disk i) (pathOf name).tail := by
    intro i hi hn
    rw [tail_pathOf, HasName, nameKey_of_isName hname] at hn
    exact hnew ((hkeys _).1 ⟨i, hi, hn⟩)
  have hnil : nameKey fsNameLen (pathOf name).tail ≠ [] := nameKey_ne_nil hname
  by_cases hn : n < dirEntriesPerBlock bs
  · obtain ⟨s₂, hs₂, hdir, -, h', -⟩ := doCreate_spec m now h hn hnil habsent
    obtain ⟨-, rfl⟩ := result_eq hd hs₂
    refine ⟨n + 1, _, _, h', fun key => ?_⟩
    rw [stored_append, Call.names, Finset.mem_insert, ← hkeys, hdir]
    have hself : nameKey fsNameLen (newEntry name m now).name = name.take fsNameLen := by
      rw [← nameKey_of_isName hname]
      exact newEntry_hasName name m now
    constructor
    · rintro ⟨i, hi, rfl⟩
      rcases Nat.lt_or_eq_of_le (Nat.le_of_lt_succ hi) with hi | rfl
      · rw [Function.update_of_ne (by omega)]
        exact Or.inr ⟨i, hi, rfl⟩
      · rw [Function.update_self]
        exact Or.inl hself
    · rintro (rfl | ⟨i, hi, rfl⟩)
      · refine ⟨n, Nat.lt_succ_self n, ?_⟩
        rw [Function.update_self]
        exact hself
      · refine ⟨i, Nat.lt_succ_of_lt hi, ?_⟩
        rw [Function.update_of_ne (by omega)]
  · obtain ⟨rfl, -⟩ := result_eq hd (doCreate_full h.sound hn)
    exact absurd hr (by decide)

/-- `do_write` keeps the names. -/
private theorem Lists.write {name : List UInt8} {buffer : Nat → UInt8} {size now : UInt64} {offset : Int64}
    {stack : Block bs} {r : Int} (h : Lists cs s)
    (hd : doWrite s (pathOf name) buffer size offset now stack = some (r, s')) (hr : 0 ≤ r) :
    Lists (cs ++ [.write name buffer size offset now stack]) s' := by
  obtain ⟨n, free, file, h, hkeys⟩ := h
  have hne : r ≠ -enospc := by
    rintro rfl
    exact absurd hr (by decide)
  obtain ⟨free', file', h', hnames⟩ := doWrite_names h hd hne
  exact lists_same (fun _ => rfl) hkeys h' hnames

/-- `do_truncate` keeps the names. -/
private theorem Lists.truncate {name : List UInt8} {now : UInt64} {r : Int} (h : Lists cs s) (hfuel : fsNblocks ≤ fuel)
    (hd : doTruncate fuel s (pathOf name) now = some (r, s')) (hr : 0 ≤ r) :
    Lists (cs ++ [.truncate name now]) s' := by
  obtain ⟨n, free, file, h, hkeys⟩ := h
  cases hl : lookup s.disk (pathOf name).tail with
  | none =>
    obtain ⟨rfl, -⟩ := result_eq hd (doTruncate_absent fuel h (h.lookup_eq_none.1 hl))
    exact absurd hr (by decide)
  | some i =>
    obtain ⟨hi, hn⟩ := h.lookup_eq_some.1 hl
    obtain ⟨s₂, hs₂, ht⟩ := doTruncate_spec now h hi hn hfuel
    obtain ⟨-, rfl⟩ := result_eq hd hs₂
    apply lists_same (fun _ => rfl) hkeys ht.wellFormed
    intro j
    rw [ht.dir]
    by_cases hj : j = i
    · rw [hj, Function.update_self]
      rfl
    · rw [Function.update_of_ne hj]

/-- `do_unlink` takes the name of the removed entry away. -/
private theorem Lists.unlink {name : List UInt8} {now : UInt64} {r : Int} (h : Lists cs s) (hname : IsName name)
    (hfuel : fsNblocks ≤ fuel) (hd : doUnlink fuel s (pathOf name) now = some (r, s')) (hr : 0 ≤ r) :
    Lists (cs ++ [.unlink name now]) s' := by
  obtain ⟨n, free, file, h, hkeys⟩ := h
  cases hl : lookup s.disk (pathOf name).tail with
  | none =>
    obtain ⟨rfl, -⟩ := result_eq hd (doUnlink_absent fuel h (h.lookup_eq_none.1 hl))
    exact absurd hr (by decide)
  | some i =>
    obtain ⟨hi, hn⟩ := h.lookup_eq_some.1 hl
    obtain ⟨s₂, hs₂, hrem⟩ := doUnlink_spec now h hi hn hfuel
    obtain ⟨-, rfl⟩ := result_eq hd hs₂
    have hkey : nameKey fsNameLen (diskDir s.disk i).name = name.take fsNameLen := by
      rw [← nameKey_of_isName hname]
      exact hn
    refine ⟨n - 1, _, _, hrem.wellFormed, fun key => ?_⟩
    rw [stored_append, Call.names, Finset.mem_erase, ← hkeys]
    constructor
    · rintro ⟨j, hj, rfl⟩
      have hlt := skip_lt (i := i) (n := n) (j := j) (by omega)
      rw [hrem.dir j (by omega)]
      refine ⟨fun heq => skip_ne i j ?_, _, hlt, rfl⟩
      exact h.table.unique hlt hi (heq.trans hkey.symm) rfl
    · -- the entries behind the removed one move up
      rintro ⟨hne, j, hj, rfl⟩
      have hji : j ≠ i := by
        rintro rfl
        exact hne hkey
      obtain ⟨k, hk, rfl⟩ := exists_skip hi hj hji
      exact ⟨k, by omega, by rw [hrem.dir k hk]⟩

omit [LawfulRawDisk bs δ] in
/-- `do_read` keeps the names. -/
private theorem Lists.read {name : List UInt8} {size : UInt64} {offset : Int64} {stack : Block bs} {r : Int}
    {bytes : List UInt8} (h : Lists cs s) (hd : doRead s (pathOf name) size offset stack = some (r, bytes, s')) :
    Lists (cs ++ [.read name size offset stack]) s' := by
  obtain ⟨n, free, file, h, hkeys⟩ := h
  obtain rfl := doRead_state hd
  exact lists_same (fun _ => rfl) hkeys h fun _ => rfl

/-- A call that succeeds, a file being created under a name that the directory does not have. -/
private theorem perform_lists {c' : Call bs} {r : Answer} (h : Lists cs s) (hname : IsName c'.name)
    (hfuel : fsNblocks ≤ fuel) (hnew : ∀ name m now, c' = .create name m now → name.take fsNameLen ∉ stored cs)
    (hp : perform fuel s c' = some (r, s')) (hr : 0 ≤ r.ret) : Lists (cs ++ [c']) s' := by
  cases c' with
  | create name m now =>
    obtain ⟨x, hd, he⟩ := Option.map_eq_some_iff.1 hp
    cases he
    exact h.create hname (hnew name m now rfl) hd hr
  | write name buffer size offset now stack =>
    obtain ⟨x, hd, he⟩ := Option.map_eq_some_iff.1 hp
    cases he
    exact h.write hd hr
  | truncate name now =>
    obtain ⟨x, hd, he⟩ := Option.map_eq_some_iff.1 hp
    cases he
    exact h.truncate hfuel hd hr
  | unlink name now =>
    obtain ⟨x, hd, he⟩ := Option.map_eq_some_iff.1 hp
    cases he
    exact h.unlink hname hfuel hd hr
  | read name size offset stack =>
    obtain ⟨x, hd, he⟩ := Option.map_eq_some_iff.1 hp
    cases he
    exact h.read hd

/-- A file is created under a name that `do_getattr` does not find. -/
def Call.allowed (st : Stat) (uid gid : UInt32) (s : Fs bs δ) : Call bs → Bool
  | .create name _ now => (doGetattr s (pathOf name) st uid gid now).1 = -enoent
  | _ => true

/-- A call that is allowed and succeeds. -/
def succeed (fuel : Nat) (st : Stat) (uid gid : UInt32) (s : Fs bs δ) (c' : Call bs) : Option (Answer × Fs bs δ) :=
  if c'.allowed st uid gid s then (perform fuel s c').filter fun x => 0 ≤ x.1.ret else none

theorem run_lists {st : Stat} {uid gid : UInt32} {free : List Nat} {file : Nat → List Nat} {s₀ : Fs bs δ}
    {rs : List Answer} (h : WellFormedAt bs (diskMap s₀.disk) (diskDir s₀.disk) 0 free file) (hfuel : fsNblocks ≤ fuel)
    (hnames : ∀ c' ∈ cs, IsName c'.name) (hrun : run (succeed fuel st uid gid) s₀ cs = some (rs, s)) : Lists cs s := by
  have h₀ : Lists ([] : List (Call bs)) s₀ := by
    refine ⟨0, free, file, h, fun key => ?_⟩
    simp [stored]
  refine run_snoc h₀ ?_ hnames hrun
  intro cs rs s c' r s' _ _ hl hname hs
  unfold succeed at hs
  by_cases hallowed : c'.allowed st uid gid s = true
  · rw [if_pos hallowed, Option.filter_eq_some_iff] at hs
    obtain ⟨hp, hr⟩ := hs
    refine perform_lists hl hname hfuel ?_ hp (of_decide_eq_true hr)
    rintro name m now rfl hmem
    obtain ⟨n, free, file, h, hkeys⟩ := hl
    obtain ⟨i, hi, hkey⟩ := (hkeys _).2 hmem
    have hname : IsName name := hname
    have hnone := ((doGetattr_eq h hname st uid gid now).2).1 (of_decide_eq_true hallowed)
    exact hnone i hi (hkey.trans (nameKey_of_isName hname).symm)
  · rw [if_neg hallowed] at hs
    cases hs

/-- `do_readdir` passes on exactly the names `ns`, and `do_getattr` finds exactly them. -/
structure RoundTrips (s : Fs bs δ) (ns : Finset (List UInt8)) : Prop where
  listed : ∀ stack, ∃ names, doReaddir s rootPath stack = (0, [[46], [46, 46]] ++ names) ∧ names.Nodup ∧
    ∀ name, name ∈ names ↔ name ∈ ns
  found : ∀ name, IsName name → ∀ st uid gid now,
    (doGetattr s (pathOf name) st uid gid now).1 = 0 ↔ name ∈ ns

/-- When no name fills the field, the directory gives the names back. -/
private theorem Lists.roundTrips (h : Lists cs s) (hshort : ∀ name ∈ live cs, name.length < fsNameLen) :
    RoundTrips s (live cs) := by
  obtain ⟨n, free, file, h, hkeys⟩ := h
  have hkey : ∀ key, key ∈ stored cs ↔ key ∈ live cs := by
    intro key
    by_cases hlen : key.length < fsNameLen
    · exact (mem_live_iff hlen).symm
    · refine iff_of_false (fun hmem => ?_) fun hmem => hlen (hshort key hmem)
      obtain ⟨nm, hnm, hl, -⟩ := exists_long hmem (Nat.le_of_not_lt hlen)
      exact absurd (hshort nm hnm) (by omega)
  have hwhole : ∀ i, i < n → (nameKey fsNameLen (diskDir s.disk i).name).take (fsNameLen - 1) =
      nameKey fsNameLen (diskDir s.disk i).name := by
    intro i hi
    have hlt := hshort _ ((hkey _).1 ((hkeys _).1 ⟨i, hi, rfl⟩))
    exact List.take_of_length_le (by omega)
  refine ⟨fun stack => ⟨_, doReaddir_eq h stack, ?_, fun name => ?_⟩, fun name hname st uid gid now => ?_⟩
  · refine List.Nodup.map_on (fun i hi j hj he => ?_) List.nodup_range
    rw [hwhole i (List.mem_range.1 hi), hwhole j (List.mem_range.1 hj)] at he
    exact h.table.unique (List.mem_range.1 hi) (List.mem_range.1 hj) he rfl
  · rw [← hkey, ← hkeys, List.mem_map]
    constructor
    · rintro ⟨i, hi, rfl⟩
      exact ⟨i, List.mem_range.1 hi, (hwhole i (List.mem_range.1 hi)).symm⟩
    · rintro ⟨i, hi, rfl⟩
      exact ⟨i, List.mem_range.2 hi, hwhole i hi⟩
  · rw [(doGetattr_eq h hname st uid gid now).1]
    have hfound : (∃ i, i < n ∧ HasName (diskDir s.disk i) name) ↔ name.take fsNameLen ∈ stored cs := by
      rw [← hkeys, ← nameKey_of_isName hname]
      rfl
    rw [hfound, hkey]
    constructor
    · intro hmem
      have hlt := hshort _ hmem
      rwa [(take_eq_iff hlt).1 rfl]
    · intro hmem
      rwa [List.take_of_length_le (Nat.le_of_lt (hshort name hmem))]

/-- No name that `do_readdir` passes on fills the field. -/
private theorem Lists.length_lt (h : Lists cs s) (hrt : RoundTrips s (live cs)) {name : List UInt8}
    (hname : name ∈ live cs) : name.length < fsNameLen := by
  obtain ⟨n, free, file, h, -⟩ := h
  obtain ⟨names, hdir, -, hmem⟩ := hrt.listed fun _ => 0
  rw [doReaddir_eq h, Prod.mk.injEq] at hdir
  have hin := (hmem name).2 hname
  rw [← List.append_cancel_left hdir.2] at hin
  obtain ⟨i, -, rfl⟩ := List.mem_map.1 hin
  rw [List.length_take]
  simp only [fsNameLen]
  omega

/-- After a run of successful calls on a disk without files, the directory gives back exactly the names created and
not yet unlinked if and only if none of them has `FS_NAME_LEN` characters or more. -/
theorem roundTrips_iff {st : Stat} {uid gid : UInt32} {free : List Nat} {file : Nat → List Nat} {s₀ : Fs bs δ}
    {rs : List Answer} (h : WellFormedAt bs (diskMap s₀.disk) (diskDir s₀.disk) 0 free file) (hfuel : fsNblocks ≤ fuel)
    (hnames : ∀ c' ∈ cs, IsName c'.name) (hrun : run (succeed fuel st uid gid) s₀ cs = some (rs, s)) :
    RoundTrips s (live cs) ↔ ∀ name ∈ live cs, name.length < fsNameLen := by
  have hl := run_lists h hfuel hnames hrun
  exact ⟨fun hrt name hname => hl.length_lt hrt hname, hl.roundTrips⟩

end Runs

/-! ### Two runs on a fresh disk -/

/-- The attributes before `do_getattr` sets them. -/
def noStat : Stat := ⟨0, 0, 0, 0, 0, 0, 0⟩

/-- The files a and b are created, and a is unlinked. -/
def shortNames : List (Call 512) := [.create [97] 0o644 0, .create [98] 0o644 0, .unlink [97] 0]

theorem roundTrips_iff_shortNames :
    ∃ rs s, run (succeed fsNblocks noStat 0 0) mounted shortNames = some (rs, s) ∧ live shortNames = {[98]} ∧
      RoundTrips s {[98]} := by
  have hsome : (run (succeed fsNblocks noStat 0 0) mounted shortNames).isSome = true := by decide
  obtain ⟨⟨rs, s⟩, hrun⟩ := Option.isSome_iff_exists.1 hsome
  have hlive : live shortNames = {[98]} := by decide
  refine ⟨rs, s, hrun, hlive, ?_⟩
  rw [← hlive]
  exact (roundTrips_iff wellFormedAt_mounted (Nat.le_refl _) (by decide) hrun).2 (by decide)

/-- The name abcdefghijkl, which has as many characters as the field. -/
def fullName : List UInt8 := [97, 98, 99, 100, 101, 102, 103, 104, 105, 106, 107, 108]

/-- `do_readdir` passes on abcdefghijk, which `do_getattr` does not find. -/
theorem not_roundTrips : IsName fullName ∧ live ([.create fullName 0o644 0] : List (Call 512)) = {fullName} ∧
    ∃ rs s, run (succeed fsNblocks noStat 0 0) mounted [.create fullName 0o644 0] = some (rs, s) ∧
      doReaddir s rootPath (fun _ => 0) = (0, [[46], [46, 46], fullName.take 11]) ∧
      (doGetattr s (pathOf (fullName.take 11)) noStat 0 0 0).1 = -enoent ∧ ¬RoundTrips s {fullName} := by
  have hev : (run (succeed fsNblocks noStat 0 0) mounted [.create fullName 0o644 0]).map (fun x =>
      (doReaddir x.2 rootPath fun _ => 0, (doGetattr x.2 (pathOf (fullName.take 11)) noStat 0 0 0).1)) =
      some ((0, [[46], [46, 46], fullName.take 11]), -enoent) := by decide
  obtain ⟨⟨rs, s⟩, hrun, hres⟩ := Option.map_eq_some_iff.1 hev
  obtain ⟨hdir, hattr⟩ := Prod.mk.inj hres
  refine ⟨by decide, by decide, rs, s, hrun, hdir, hattr, fun hrt => ?_⟩
  obtain ⟨names, hnames, -, hmem⟩ := hrt.listed fun _ => 0
  have hin := (hmem fullName).2 (Finset.mem_singleton_self _)
  rw [hdir, Prod.mk.injEq] at hnames
  have he : [[46], [46, 46]] ++ [fullName.take 11] = [[46], [46, 46]] ++ names := hnames.2
  rw [← List.append_cancel_left he] at hin
  exact absurd hin (by decide)

end Edaf35.Ssfs
