import Edaf35.Ssfs.Atomicity
import Edaf35.Ssfs.Listing

/-!
# Modification times

`do_getattr` should report the time of the last call that changed a file.  `do_write` sets `last_mod` where it makes
the file grow: a write inside the file leaves the old time, and a write that grows the file and then runs out of blocks
leaves a new one.  `do_create` puts a second entry behind the one that a name has already.  In every run without these
calls the times are right (`mtime_follows`).
-/

namespace Edaf35.Ssfs

variable {bs : Nat} {δ : Type}

/-! ### The times that a run asks for -/

/-- The times after a call that answered `r`; files are told apart as the directory tells their names apart. -/
def Call.stamp (t : List UInt8 → UInt64) (r : Answer) : Call bs → List UInt8 → UInt64
  | .create name _ now | .write name _ _ _ now _ | .truncate name now =>
    if 0 ≤ r.ret then Function.update t (nameKey fsNameLen name) now else t
  | .unlink _ _ | .read _ _ _ _ => t

/-- The times after the calls `log`, with what they answered. -/
def stamps (t : List UInt8 → UInt64) (log : List (Call bs × Answer)) : List UInt8 → UInt64 :=
  log.foldl (fun t x => x.1.stamp t x.2) t

private theorem stamps_append (t : List UInt8 → UInt64) (log : List (Call bs × Answer)) (x : Call bs × Answer) :
    stamps t (log ++ [x]) = x.1.stamp (stamps t log) x.2 := by
  rw [stamps, List.foldl_append]
  rfl

section Stamp

variable {t : List UInt8 → UInt64} {name : List UInt8} {now : UInt64}

/-- A call that does not succeed asks for no time. -/
private theorem stamp_of_neg {r : Answer} (c' : Call bs) (hr : r.ret < 0) : c'.stamp t r = t := by
  have hneg : ¬0 ≤ r.ret := Int.not_le.2 hr
  cases c' with
  | create | write | truncate => exact if_neg hneg
  | unlink | read => rfl

/-- A write at the time that its file has. -/
private theorem stamp_write_eq {buffer : Nat → UInt8} {size : UInt64} {offset : Int64} {stack : Block bs} {r : Int}
    (h : 0 ≤ r → t (nameKey fsNameLen name) = now) :
    (Call.write name buffer size offset now stack).stamp t ⟨r, []⟩ = t := by
  by_cases hr : 0 ≤ r
  · rw [Call.stamp, if_pos hr, ← h hr, Function.update_eq_self]
  · rw [Call.stamp, if_neg hr]

/-- The time that a write asks for. -/
private theorem stamp_write {buffer : Nat → UInt8} {size : UInt64} {offset : Int64} {stack : Block bs} {r : Int} :
    (Call.write name buffer size offset now stack).stamp t ⟨r, []⟩ (nameKey fsNameLen name) =
      if 0 ≤ r then now else t (nameKey fsNameLen name) := by
  by_cases hr : 0 ≤ r
  · rw [Call.stamp, if_pos hr, if_pos hr, Function.update_self]
  · rw [Call.stamp, if_neg hr, if_neg hr]

/-- The call cannot change the time of the file: it is to another file, or a read. -/
def Call.Spares (name : List UInt8) (c' : Call bs) : Prop :=
  nameKey fsNameLen c'.name ≠ nameKey fsNameLen name ∨ ∃ size offset stack, c' = .read name size offset stack

private theorem stamp_of_spares {c' : Call bs} {r : Answer} (h : c'.Spares name) :
    c'.stamp t r (nameKey fsNameLen name) = t (nameKey fsNameLen name) := by
  rcases h with hne | ⟨size, offset, stack, rfl⟩
  · cases c' with
    | create | write | truncate =>
      rw [Call.stamp]
      split
      · exact Function.update_of_ne (Ne.symm hne) _ _
      · rfl
    | unlink | read => rfl
  · rfl

end Stamp

/-- A write that sets the time when it should: it makes the file grow and reports success, or finds the disk full
before anything is changed; or it is inside the file and comes at the time of the last change, or does not report
success. -/
structure InTime (bs : Nat) (e : DirEntry) (chain free : List Nat) (size : UInt64) (offset : Int64) (now : UInt64) :
    Prop where
  grows : e.sizeBytes < endOffset size offset →
    ¬FailsLate bs e chain free size offset ∧ (chain ++ free = [] ∨ 0 ≤ asInt size.toNat)
  inside : ¬e.sizeBytes < endOffset size offset →
    e.lastMod.toUInt64 = now ∨ asInt size.toNat < 0 ∨ chain ≠ [] ∧ (chain ++ free).length ≤ blkoffs bs offset

/-- What the directory sees of a name it sees of that again. -/
private theorem nameKey_nameKey (n : Nat) (name : List UInt8) : nameKey n (nameKey n name) = nameKey n name := by
  induction n generalizing name with
  | zero => rfl
  | succ n ih =>
    by_cases hx : name.headD 0 = 0
    · have hnil : nameKey (n + 1) name = [] := if_pos hx
      rw [hnil]
      rfl
    · have hcons : nameKey (n + 1) name = name.headD 0 :: nameKey n name.tail := if_neg hx
      rw [hcons, nameKey, List.headD_cons, if_neg hx, List.tail_cons, ih]

section Disk

variable [RawDisk bs δ]

/-- The time of the entry of a name. -/
def timeOf (d : δ) (key : List UInt8) : UInt64 :=
  match lookup d key with
  | some i => (diskDir d i).lastMod.toUInt64
  | none => 0

/-- A file is created under a new name, or in a full directory, and writes are in time. -/
def Call.Timely (s : Fs bs δ) : Call bs → Prop
  | .create name _ _ => lookup s.disk name = none ∨ firstEmptyDirEntry (diskBlock s.disk rootdirBid) = none
  | .write name _ size offset now _ => ∀ n free file i,
    WellFormedAt bs (diskMap s.disk) (diskDir s.disk) n free file → lookup s.disk name = some i →
      InTime bs (diskDir s.disk i) (file i) free size offset now
  | .truncate _ _ | .unlink _ _ | .read _ _ _ _ => True

/-- The entries hold the times `t`. -/
structure StampedAt (t : List UInt8 → UInt64) (s : Fs bs δ) (n : Nat) (free : List Nat) (file : Nat → List Nat) :
    Prop where
  wellFormed : WellFormedAt bs (diskMap s.disk) (diskDir s.disk) n free file
  time : ∀ i, i < n → (diskDir s.disk i).lastMod.toUInt64 = t (nameKey fsNameLen (diskDir s.disk i).name)

def Stamped (t : List UInt8 → UInt64) (s : Fs bs δ) : Prop := ∃ n free file, StampedAt t s n free file

variable [LawfulRawDisk bs δ] {t : List UInt8 → UInt64} {s s' : Fs bs δ} {n i : Nat} {free : List Nat}
  {file : Nat → List Nat} {name : List UInt8} {now : UInt64}

/-! ### What one call keeps -/

omit [LawfulRawDisk bs δ] in
/-- Calls that change no entry. -/
private theorem StampedAt.keep {free' : List Nat} {file' : Nat → List Nat} (h : StampedAt t s n free file)
    (h' : WellFormedAt bs (diskMap s'.disk) (diskDir s'.disk) n free' file')
    (hdir : diskDir s'.disk = diskDir s.disk) : StampedAt t s' n free' file' := by
  refine ⟨h', ?_⟩
  rw [hdir]
  exact h.time

omit [LawfulRawDisk bs δ] in
private theorem StampedAt.of_same (h : StampedAt t s n free file)
    (hsame : ∀ id, id < fsNblocks → diskBlock s'.disk id = diskBlock s.disk id) : StampedAt t s' n free file := by
  have hmap : diskMap s'.disk = diskMap s.disk := congrArg Block.ids (hsame blkmapBid (by decide))
  have hdir : diskDir s'.disk = diskDir s.disk := congrArg Block.entry (hsame rootdirBid (by decide))
  refine h.keep ?_ hdir
  rw [hmap, hdir]
  exact h.wellFormed

omit [LawfulRawDisk bs δ] in
private theorem StampedAt.load (h : StampedAt t s n free file) : Stamped t (loadDirectory s) :=
  ⟨n, free, file, h.of_same fun _ _ => rfl⟩

omit [LawfulRawDisk bs δ] in
/-- Calls that set the time of the entry that they change. -/
private theorem StampedAt.set {free' : List Nat} {file' : Nat → List Nat} {e : DirEntry} (h : StampedAt t s n free file)
    (hi : i < n) (hname : HasName (diskDir s.disk i) name)
    (h' : WellFormedAt bs (diskMap s'.disk) (diskDir s'.disk) n free' file')
    (hdir : diskDir s'.disk = Function.update (diskDir s.disk) i e) (hkey : e.name = (diskDir s.disk i).name)
    (htime : e.lastMod.toUInt64 = now) :
    StampedAt (Function.update t (nameKey fsNameLen name) now) s' n free' file' := by
  refine ⟨h', fun j hj => ?_⟩
  rw [hdir]
  by_cases hji : j = i
  · have hsame : nameKey fsNameLen e.name = nameKey fsNameLen name := by
      rw [hkey]
      exact hname
    rw [hji, Function.update_self, hsame, Function.update_self, htime]
  · have hother : nameKey fsNameLen (diskDir s.disk j).name ≠ nameKey fsNameLen name := by
      intro heq
      exact hji (h.wellFormed.table.unique hj hi heq hname)
    rw [Function.update_of_ne hji, Function.update_of_ne hother]
    exact h.time j hj

private theorem Stamped.create {m : UInt32} {r : Int} (h : Stamped t s) (hname : IsName name)
    (htimely : (Call.create name m now : Call bs).Timely s)
    (hd : doCreate s (pathOf name) m now = some (r, s')) :
    Stamped ((Call.create name m now : Call bs).stamp t ⟨r, []⟩) s' := by
  obtain ⟨n, free, file, h⟩ := h
  have hwf := h.wellFormed
  by_cases hn : n < dirEntriesPerBlock bs
  · have hempty : firstEmptyDirEntry (diskBlock s.disk rootdirBid) = some n := by
      rw [firstEmptyDirEntry_eq (n := n) hwf.table.slots, if_pos hn]
    have hnone : lookup s.disk name = none := by
      rcases htimely with hl | hfull
      · exact hl
      · rw [hempty] at hfull
        cases hfull
    have habsent := hwf.lookup_eq_none.1 hnone
    have hnil : nameKey fsNameLen (pathOf name).tail ≠ [] := nameKey_ne_nil hname
    obtain ⟨s₁, hs₁, hdir, -, h', -⟩ := doCreate_spec m now hwf hn hnil habsent
    obtain ⟨rfl, rfl⟩ := result_eq hd hs₁
    rw [tail_pathOf] at hdir
    refine ⟨n + 1, _, _, h', fun j hj => ?_⟩
    rw [hdir, Call.stamp, if_pos (Int.le_refl 0)]
    by_cases hjn : j = n
    · have hkey : nameKey fsNameLen (newEntry name m now).name = nameKey fsNameLen name := newEntry_hasName name m now
      rw [hjn, Function.update_self, hkey, Function.update_self]
      exact UInt64.ofNat_toNat
    · have hj : j < n := by omega
      have hother : nameKey fsNameLen (diskDir s.disk j).name ≠ nameKey fsNameLen name := habsent j hj
      rw [Function.update_of_ne hjn, Function.update_of_ne hother]
      exact h.time j hj
  · obtain ⟨rfl, rfl⟩ := result_eq hd (doCreate_full hwf.sound hn)
    rw [stamp_of_neg _ (by decide)]
    exact h.load

private theorem Stamped.truncate {fuel : Nat} {r : Int} (h : Stamped t s) (hfuel : fsNblocks ≤ fuel)
    (hd : doTruncate fuel s (pathOf name) now = some (r, s')) :
    Stamped ((Call.truncate name now : Call bs).stamp t ⟨r, []⟩) s' := by
  obtain ⟨n, free, file, h⟩ := h
  have hwf := h.wellFormed
  cases hl : lookup s.disk name with
  | none =>
    obtain ⟨rfl, rfl⟩ := result_eq hd (doTruncate_absent fuel hwf (hwf.lookup_eq_none.1 hl))
    rw [stamp_of_neg _ (by decide)]
    exact h.load
  | some i =>
    obtain ⟨hi, hn⟩ := hwf.lookup_eq_some.1 hl
    have hpath : HasName (diskDir s.disk i) (pathOf name).tail := hn
    obtain ⟨s₁, hs₁, ht⟩ := doTruncate_spec now hwf hi hpath hfuel
    obtain ⟨rfl, rfl⟩ := result_eq hd hs₁
    rw [Call.stamp, if_pos (Int.le_refl 0)]
    exact ⟨n, _, _, h.set hi hn ht.wellFormed ht.dir rfl UInt64.ofNat_toNat⟩

/-- `do_unlink` moves entries; their times move with them. -/
private theorem Stamped.unlink {fuel : Nat} {r : Int} (h : Stamped t s) (hfuel : fsNblocks ≤ fuel)
    (hd : doUnlink fuel s (pathOf name) now = some (r, s')) : Stamped t s' := by
  obtain ⟨n, free, file, h⟩ := h
  have hwf := h.wellFormed
  cases hl : lookup s.disk name with
  | none =>
    obtain ⟨-, rfl⟩ := result_eq hd (doUnlink_absent fuel hwf (hwf.lookup_eq_none.1 hl))
    exact h.load
  | some i =>
    obtain ⟨hi, hn⟩ := hwf.lookup_eq_some.1 hl
    have hpath : HasName (diskDir s.disk i) (pathOf name).tail := hn
    obtain ⟨s₁, hs₁, hrem⟩ := doUnlink_spec now hwf hi hpath hfuel
    obtain ⟨-, rfl⟩ := result_eq hd hs₁
    refine ⟨n - 1, _, _, hrem.wellFormed, fun j hj => ?_⟩
    rw [hrem.dir j (by omega)]
    exact h.time _ (skip_lt (by omega))

private theorem Stamped.write {buffer : Nat → UInt8} {size : UInt64} {offset : Int64} {stack : Block bs} {r : Int}
    (h : Stamped t s) (htimely : (Call.write name buffer size offset now stack).Timely s)
    (hd : doWrite s (pathOf name) buffer size offset now stack = some (r, s')) :
    Stamped ((Call.write name buffer size offset now stack).stamp t ⟨r, []⟩) s' := by
  obtain ⟨n, free, file, h⟩ := h
  have hwf := h.wellFormed
  cases hl : lookup s.disk name with
  | none =>
    obtain ⟨rfl, rfl⟩ := result_eq hd (doWrite_absent hwf (hwf.lookup_eq_none.1 hl))
    rw [stamp_of_neg _ (by decide)]
    exact h.load
  | some i =>
    obtain ⟨hi, hn⟩ := hwf.lookup_eq_some.1 hl
    have hin := htimely n free file i hwf hl
    have htime : (diskDir s.disk i).lastMod.toUInt64 = t (nameKey fsNameLen name) := by
      rw [h.time i hi]
      exact congrArg t hn
    have hpath : HasName (diskDir s.disk i) (pathOf name).tail := hn
    rcases doWrite_cases hwf hi hpath hd with ⟨hnil, hgrow, hr, hsame⟩ |
      ⟨-, -, hr, hdisk⟩ | ⟨-, hne, hk, hr, -, -, hsame⟩ | ⟨-, blk, hk, -, hr, hw, hroot⟩
    · -- nothing to write in an empty file
      rw [stamp_write_eq fun hpos => ?_]
      · exact ⟨n, free, file, h.of_same hsame⟩
      · rcases hin.inside hgrow with hnow | hneg | ⟨hne, -⟩
        · exact htime.symm.trans hnow
        · omega
        · exact absurd hnil hne
    · rw [hr, stamp_of_neg _ (by decide)]
      exact ⟨n, free, file, h.of_same fun _ _ => by rw [hdisk]⟩
    · -- out of blocks: in time only if the file did not grow
      have hgrow : ¬(diskDir s.disk i).sizeBytes < endOffset size offset := by
        intro hgrow
        exact (hin.grows hgrow).1 ⟨hgrow, hne, hk⟩
      rw [hr, stamp_of_neg _ (by decide)]
      exact ⟨n, free, file, h.of_same fun _ _ => by rw [hsame hgrow]⟩
    · by_cases hgrow : (diskDir s.disk i).sizeBytes < endOffset size offset
      · have hpos : 0 ≤ asInt size.toNat := by
          rcases (hin.grows hgrow).2 with hnil | hpos
          · rw [hnil] at hk
            cases hk
          · exact hpos
        rw [hr, Call.stamp, if_pos hpos]
        refine ⟨n, _, _, h.set hi hn hw.wellFormed hw.dir (DirEntry.written_name ..) ?_⟩
        rw [DirEntry.written, if_pos hgrow]
        exact UInt64.ofNat_toNat
      · rw [stamp_write_eq fun hpos => ?_]
        · exact ⟨n, _, _, h.keep hw.wellFormed (congrArg Block.entry (hroot hgrow))⟩
        · rcases hin.inside hgrow with hnow | hneg | ⟨-, hle⟩
          · exact htime.symm.trans hnow
          · omega
          · rw [List.getElem?_eq_none hle] at hk
            cases hk

omit [LawfulRawDisk bs δ] in
private theorem timeOf_eq {d : δ} (h : Table bs (diskDir d) n) (hi : i < n) (hname : HasName (diskDir d i) name) :
    timeOf d name = (diskDir d i).lastMod.toUInt64 := by
  have hl : lookup d name = some i := (findDirEntry_eq_some h).2 ⟨hi, hname⟩
  rw [timeOf, hl]

/-- Writes that are not in time show: when the clock has moved on since the file was changed, a write that leaves the
time it should is in time. -/
theorem StampedAt.inTime {buffer : Nat → UInt8} {size : UInt64} {offset : Int64} {stack : Block bs} {r : Int}
    (h : StampedAt t s n free file) (hl : lookup s.disk name = some i) (hnow : t (nameKey fsNameLen name) ≠ now)
    (hd : doWrite s (pathOf name) buffer size offset now stack = some (r, s'))
    (hright : timeOf s'.disk name =
      (Call.write name buffer size offset now stack).stamp t ⟨r, []⟩ (nameKey fsNameLen name)) :
    InTime bs (diskDir s.disk i) (file i) free size offset now := by
  have hwf := h.wellFormed
  obtain ⟨hi, hn⟩ := hwf.lookup_eq_some.1 hl
  have hold : (diskDir s.disk i).lastMod.toUInt64 = t (nameKey fsNameLen name) := by
    rw [h.time i hi]
    exact congrArg t hn
  -- the time after the write, by what became of the entry
  have hkept : diskDir s'.disk = diskDir s.disk → timeOf s'.disk name = t (nameKey fsNameLen name) := by
    intro hdir
    have htable : Table bs (diskDir s'.disk) n := hdir ▸ hwf.table
    have hname : HasName (diskDir s'.disk i) name := by rwa [hdir]
    rw [timeOf_eq htable hi hname, hdir, hold]
  have hset : ∀ first, (diskDir s.disk i).sizeBytes < endOffset size offset →
      diskDir s'.disk = Function.update (diskDir s.disk) i
        ((diskDir s.disk i).written (endOffset size offset) first now) → timeOf s'.disk name = now := by
    intro first hgrow hdir
    have htable : Table bs (diskDir s'.disk) n := by
      rw [hdir]
      exact hwf.table.setEntry (DirEntry.written_name ..)
    have hself : diskDir s'.disk i = (diskDir s.disk i).written (endOffset size offset) first now := by
      rw [hdir, Function.update_self]
    have hname : HasName (diskDir s'.disk i) name := by
      rw [HasName, hself, DirEntry.written_name]
      exact hn
    rw [timeOf_eq htable hi hname, hself, DirEntry.written, if_pos hgrow]
    exact UInt64.ofNat_toNat
  rw [stamp_write] at hright
  have hpath : HasName (diskDir s.disk i) (pathOf name).tail := hn
  rcases doWrite_cases hwf hi hpath hd with ⟨-, hgrow, hr, hsame⟩ | ⟨hnil, hgrow, -, -⟩ |
    ⟨hc, -, hk, hr, hdir, -, hsame⟩ | ⟨-, blk, hk, -, hr, hw, hroot⟩
  · have hdir : diskDir s'.disk = diskDir s.disk := congrArg Block.entry (hsame rootdirBid (by decide))
    rw [hkept hdir] at hright
    refine ⟨fun hin => absurd hin hgrow, fun _ => Or.inr (Or.inl ?_)⟩
    by_contra hpos
    rw [if_pos (by omega)] at hright
    exact hnow hright
  · exact ⟨fun _ => ⟨fun hlate => hlate.2.1 hnil, Or.inl hnil⟩, fun hin => absurd hgrow hin⟩
  · have hneg : ¬0 ≤ r := by
      rw [hr]
      decide
    rw [if_neg hneg] at hright
    have hgrow : ¬(diskDir s.disk i).sizeBytes < endOffset size offset := by
      intro hgrow
      rw [hset _ hgrow hdir] at hright
      exact hnow hright.symm
    exact ⟨fun hin => absurd hin hgrow, fun _ => Or.inr (Or.inr ⟨hc.resolve_right hgrow, hk⟩)⟩
  · by_cases hgrow : (diskDir s.disk i).sizeBytes < endOffset size offset
    · rw [hset _ hgrow hw.dir] at hright
      refine ⟨fun _ => ⟨fun hlate => ?_, Or.inr ?_⟩, fun hin => absurd hgrow hin⟩
      · rw [List.getElem?_eq_none hlate.2.2] at hk
        cases hk
      · by_contra hneg
        rw [if_neg (by omega)] at hright
        exact hnow hright.symm
    · rw [hkept (congrArg Block.entry (hroot hgrow))] at hright
      refine ⟨fun hin => absurd hin hgrow, fun _ => Or.inr (Or.inl ?_)⟩
      by_contra hpos
      rw [if_pos (by omega)] at hright
      exact hnow hright

private theorem Stamped.perform {c' : Call bs} {fuel : Nat} {r : Answer} (h : Stamped t s) (hfuel : fsNblocks ≤ fuel)
    (hname : IsName c'.name) (htimely : c'.Timely s) (hs : Ssfs.perform fuel s c' = some (r, s')) :
    Stamped (c'.stamp t r) s' := by
  cases c' with
  | create name m now =>
    obtain ⟨x, hd, he⟩ := Option.map_eq_some_iff.1 hs
    cases he
    exact h.create hname htimely hd
  | write name buffer size offset now stack =>
    obtain ⟨x, hd, he⟩ := Option.map_eq_some_iff.1 hs
    cases he
    exact h.write htimely hd
  | truncate name now =>
    obtain ⟨x, hd, he⟩ := Option.map_eq_some_iff.1 hs
    cases he
    exact h.truncate hfuel hd
  | unlink name now =>
    obtain ⟨x, hd, he⟩ := Option.map_eq_some_iff.1 hs
    cases he
    exact h.unlink hfuel hd
  | read name size offset stack =>
    obtain ⟨x, hd, he⟩ := Option.map_eq_some_iff.1 hs
    cases he
    obtain ⟨n, free, file, h⟩ := h
    rw [doRead_state hd]
    exact h.load

/-! ### Whole runs -/

omit [LawfulRawDisk bs δ] in
/-- What the directory holds at the start. -/
private theorem stamped_start (h : WellFormed s.disk) : Stamped (timeOf s.disk) s := by
  obtain ⟨n, free, file, h⟩ := h
  refine ⟨n, free, file, h, fun i hi => ?_⟩
  have hl : lookup s.disk (nameKey fsNameLen (diskDir s.disk i).name) = some i :=
    h.lookup_eq_some.2 ⟨hi, (nameKey_nameKey ..).symm⟩
  rw [timeOf, hl]

/-- What `do_getattr` reports of an existing file. -/
private theorem Stamped.mtime_eq (h : Stamped t s) (hname : IsName name) (st : Stat) (uid gid : UInt32) (clock : UInt64)
    (hfound : (doGetattr s (pathOf name) st uid gid clock).1 = 0) :
    (doGetattr s (pathOf name) st uid gid clock).2.1.mtime = t (nameKey fsNameLen name) := by
  obtain ⟨n, free, file, h⟩ := h
  unfold doGetattr at hfound ⊢
  rw [isRoot_pathOf hname, tail_pathOf] at hfound ⊢
  simp only [Bool.false_eq_true, if_false] at hfound ⊢
  cases hfind : findDirEntry (loadDirectory s).bdir name with
  | none =>
    rw [hfind] at hfound
    have hno : (-enoent : Int) = 0 := hfound
    exact absurd hno (by decide)
  | some i =>
    obtain ⟨hi, hn⟩ := (h.wellFormed.findDirEntry_iff s rfl).1 hfind
    simp only [loadDirectory_entry]
    rw [h.time i hi, hn]

/-- In every run of timely calls, `do_getattr` of an existing file reports the time of the most recent successful
`do_create`, `do_write` or `do_truncate` on it (the time it had at the start, if there was none), and a further call
that is a read or to another file leaves the time alone. -/
theorem mtime_follows {s₀ : Fs bs δ} {cs : List (Call bs)} {rs : List Answer} {fuel : Nat} (h : WellFormed s₀.disk)
    (hfuel : fsNblocks ≤ fuel) (htimely : Along (perform fuel) s₀ cs fun s c' => IsName c'.name ∧ c'.Timely s)
    (hrun : run (perform fuel) s₀ cs = some (rs, s)) (hname : IsName name) (st : Stat) (uid gid : UInt32)
    (clock : UInt64) (hfound : (doGetattr s (pathOf name) st uid gid clock).1 = 0) :
    (doGetattr s (pathOf name) st uid gid clock).2.1.mtime =
        stamps (timeOf s₀.disk) (cs.zip rs) (nameKey fsNameLen name) ∧
      ∀ c' r s', IsName c'.name → c'.Timely s → c'.Spares name → perform fuel s c' = some (r, s') →
        (doGetattr s' (pathOf name) st uid gid clock).1 = 0 →
          (doGetattr s' (pathOf name) st uid gid clock).2.1.mtime =
            (doGetattr s (pathOf name) st uid gid clock).2.1.mtime := by
  have hstamped : Stamped (stamps (timeOf s₀.disk) (cs.zip rs)) s := by
    refine run_along (I := fun log s => Stamped (stamps (timeOf s₀.disk) log) s) (stamped_start h) ?_ htimely hrun
    intro log s c' r s' hi hc hs
    rw [stamps_append]
    exact hi.perform hfuel hc.1 hc.2 hs
  refine ⟨hstamped.mtime_eq hname st uid gid clock hfound, ?_⟩
  intro c' r s' hname' htimely' hspares hs hfound'
  have hnext := hstamped.perform hfuel hname' htimely' hs
  rw [hstamped.mtime_eq hname st uid gid clock hfound, hnext.mtime_eq hname st uid gid clock hfound',
    stamp_of_spares hspares]

end Disk

/-! ### A write inside the file -/

section Disk

variable [RawDisk bs δ]

/-- A write at the start of a file that it makes larger. -/
private theorem timely_of_start {s : Fs bs δ} {name : List UInt8} {buffer : Nat → UInt8} {size now : UInt64}
    {stack : Block bs} (hgrow : ∀ i, lookup s.disk name = some i → (diskDir s.disk i).sizeBytes < endOffset size 0)
    (hpos : 0 ≤ asInt size.toNat) : (Call.write name buffer size 0 now stack).Timely s := by
  intro n free file i _ hl
  have hzero : blkoffs bs 0 = 0 := by
    rw [blkoffs_eq (by decide)]
    simp
  refine ⟨fun _ => ⟨?_, Or.inr hpos⟩, fun hin => absurd (hgrow i hl) hin⟩
  rintro ⟨-, hne, hle⟩
  rw [hzero] at hle
  exact hne (List.eq_nil_of_length_eq_zero (Nat.le_zero.1 hle))

end Disk

/-- What a call reads from the clock. -/
def Call.clock? : Call bs → Option UInt64
  | .create _ _ now | .write _ _ _ _ now _ | .truncate _ now | .unlink _ now => some now
  | .read _ _ _ _ => none

/-- The times of the calls do not decrease. -/
def Chronological (cs : List (Call bs)) : Prop := (cs.filterMap Call.clock?).Pairwise (· ≤ ·)

/-- The file a is created at time 1 and its first byte written at time 2. -/
def writtenOnce : List (Call 512) := [.create [97] 0o644 1, .write [97] (fun _ => 7) 1 0 2 fun _ => 0]

/-- The first byte is written once more, at time 3. -/
def writtenTwice : List (Call 512) := writtenOnce ++ [.write [97] (fun _ => 8) 1 0 3 fun _ => 0]

theorem mtime_follows_writtenOnce : ∃ rs s, run (perform fsNblocks) mounted writtenOnce = some (rs, s) ∧
    (doGetattr s (pathOf [97]) noStat 0 0 4).1 = 0 ∧ (doGetattr s (pathOf [97]) noStat 0 0 4).2.1.mtime = 2 := by
  have hev : (run (perform fsNblocks) mounted writtenOnce).map (fun x =>
      (x.1, (doGetattr x.2 (pathOf [97]) noStat 0 0 4).1)) = some ([⟨0, []⟩, ⟨1, []⟩], 0) := by decide
  obtain ⟨⟨rs, s⟩, hrun, hev⟩ := Option.map_eq_some_iff.1 hev
  simp only [Prod.mk.injEq] at hev
  obtain ⟨rfl, hfound⟩ := hev
  have htimely : Along (perform fsNblocks) mounted writtenOnce fun s c' => IsName c'.name ∧ c'.Timely s := by
    refine along_snoc.2 ⟨along_singleton.2 ⟨by decide, Or.inl (by decide)⟩, fun ws s₁ hfirst => ⟨by decide, ?_⟩⟩
    have hempty : (run (perform fsNblocks) mounted [.create [97] 0o644 1]).map (fun x =>
        (lookup x.2.disk [97], (diskDir x.2.disk 0).sizeBytes)) = some (some 0, 0) := by decide
    rw [hfirst] at hempty
    simp only [Option.map_some, Option.some.injEq, Prod.mk.injEq] at hempty
    refine timely_of_start (fun i hl => ?_) (by decide)
    rw [hempty.1, Option.some.injEq] at hl
    rw [← hl, hempty.2]
    decide
  have hname : IsName [97] := by decide
  obtain ⟨htime, -⟩ := mtime_follows ⟨_, _, _, wellFormedAt_mounted⟩ (Nat.le_refl _) htimely hrun hname noStat 0 0 4
    hfound
  refine ⟨_, s, hrun, hfound, htime.trans ?_⟩
  decide

/-- After the second write, which succeeds, the time is still that of the first. -/
theorem not_mtime_follows : ¬∀ (cs : List (Call 512)) (rs : List Answer) (s : Fs 512 (RamDisk 512)),
    (∀ c' ∈ cs, IsName c'.name) → Chronological cs → run (perform fsNblocks) mounted cs = some (rs, s) →
      ∀ name, IsName name → (doGetattr s (pathOf name) noStat 0 0 4).1 = 0 →
        (doGetattr s (pathOf name) noStat 0 0 4).2.1.mtime =
          stamps (timeOf mounted.disk) (cs.zip rs) (nameKey fsNameLen name) := by
  intro h
  have hev : (run (perform fsNblocks) mounted writtenTwice).map (fun x =>
      (x.1, (doGetattr x.2 (pathOf [97]) noStat 0 0 4).1, (doGetattr x.2 (pathOf [97]) noStat 0 0 4).2.1.mtime)) =
      some ([⟨0, []⟩, ⟨1, []⟩, ⟨1, []⟩], 0, 2) := by decide
  obtain ⟨⟨rs, s⟩, hrun, hev⟩ := Option.map_eq_some_iff.1 hev
  simp only [Prod.mk.injEq] at hev
  obtain ⟨rfl, hfound, hold⟩ := hev
  have htimes : Chronological writtenTwice := by
    unfold Chronological
    decide
  have hnew := h writtenTwice _ s (by decide) htimes hrun [97] (by decide) hfound
  rw [hold] at hnew
  exact absurd hnew (by decide)

end Edaf35.Ssfs
