import Edaf35.Ssfs.Isolation
import Edaf35.Ssfs.Listing
import Edaf35.Ssfs.Rename
import Edaf35.Ssfs.Store

/-!
# The program is a file system

A disk represents a list of files with their data (`Represents`): the entries of the directory are the files, the chain
of a file leads through its data, and the free list leads through the free blocks.  Every request that the list of
files answers is answered by the program in the same way, whatever the caches hold, and leaves a disk that represents
the files after the request (`handle_refines`); so are all runs of requests (`refines`), also when the program is
started again between two requests.
-/

namespace Edaf35.Ssfs

variable {bs : Nat} {δ : Type}

/-! ### Disks and files -/

/-- The file of an entry with its data. -/
def DirEntry.file (e : DirEntry) (blocks : List (Block bs)) : File bs :=
  ⟨nameKey fsNameLen e.name, e.lastMod.toUInt64, e.mode, e.sizeBytes, blocks⟩

@[simp] theorem DirEntry.file_blocks (e : DirEntry) (blocks : List (Block bs)) : (e.file blocks).blocks = blocks := rfl

@[simp] theorem DirEntry.file_size (e : DirEntry) (blocks : List (Block bs)) : (e.file blocks).size = e.sizeBytes := rfl

section Represents

variable [RawDisk bs δ]

/-- The disk holds the files: `file i` is the chain of the file `i`, `free` the free list. -/
structure Represents (d : δ) (σ : Store bs) (n : Nat) (free : List Nat) (file : Nat → List Nat) : Prop where
  sound : SoundAt bs (diskMap d) (diskDir d) n free file
  files : σ.files = (List.range n).map fun i => (diskDir d i).file ((file i).map (diskBlock d))
  free : σ.free = free.map (diskBlock d)

/-- The disk holds the files. -/
def HoldsFiles (d : δ) (σ : Store bs) : Prop := ∃ n free file, Represents d σ n free file

variable {d d' : δ} {σ : Store bs} {n i : Nat} {free free' : List Nat} {file : Nat → List Nat} {name : List UInt8}

private theorem Represents.length (h : Represents d σ n free file) : σ.files.length = n := by
  rw [h.files, List.length_map, List.length_range]

private theorem Represents.getElem? (h : Represents d σ n free file) (hi : i < n) :
    σ.files[i]? = some ((diskDir d i).file ((file i).map (diskBlock d))) := by
  rw [h.files, List.getElem?_map, List.getElem?_range hi, Option.map_some]

/-- A list of files that agrees with the disk in each place. -/
private theorem Represents.of_getElem? (hs : SoundAt bs (diskMap d) (diskDir d) n free file) (hlen : σ.files.length = n)
    (hfiles : ∀ i, i < n → σ.files[i]? = some ((diskDir d i).file ((file i).map (diskBlock d))))
    (hfree : σ.free = free.map (diskBlock d)) : Represents d σ n free file := by
  refine ⟨hs, List.ext_getElem? fun i => ?_, hfree⟩
  by_cases hi : i < n
  · rw [hfiles i hi, List.getElem?_map, List.getElem?_range hi, Option.map_some]
  · rw [List.getElem?_eq_none (by omega), List.getElem?_eq_none (by rw [List.length_map, List.length_range]; omega)]

/-- One file changes, and with it perhaps the free blocks. -/
private theorem Represents.setFile {e : DirEntry} {c : List Nat} (h : Represents d σ n free file)
    (hs : SoundAt bs (diskMap d') (diskDir d') n free' (Function.update file i c))
    (hdir : diskDir d' = Function.update (diskDir d) i e)
    (hother : ∀ j, j < n → j ≠ i → ∀ id ∈ file j, diskBlock d' id = diskBlock d id) :
    Represents d' ⟨σ.files.set i (e.file (c.map (diskBlock d'))), free'.map (diskBlock d')⟩ n free'
      (Function.update file i c) := by
  refine .of_getElem? hs ((List.length_set ..).trans h.length) (fun j hj => ?_) rfl
  by_cases hji : j = i
  · rw [hji, hdir, Function.update_self, Function.update_self]
    exact List.getElem?_set_self (by rw [h.length, ← hji]; exact hj)
  · rw [hdir, Function.update_of_ne hji, Function.update_of_ne hji]
    refine (List.getElem?_set_ne (Ne.symm hji)).trans ((h.getElem? hj).trans ?_)
    rw [List.map_congr_left fun id hid => (hother j hj hji id hid)]

/-- The blocks of a file on top of the free list, on a disk with the same data. -/
private theorem Represents.freed (h : Represents d σ n free file) (hi : i < n)
    (hdata : ∀ id, DataBlock id → diskBlock d' id = diskBlock d id) :
    ((file i).reverse ++ free).map (diskBlock d') = ((file i).map (diskBlock d)).reverse ++ σ.free := by
  rw [h.free, ← List.map_reverse, ← List.map_append]
  refine List.map_congr_left fun id hid => hdata id ?_
  rcases List.mem_append.1 hid with hid | hid
  · exact h.sound.partition.file_data i hi id (List.mem_reverse.1 hid)
  · exact h.sound.partition.free_data id hid

end Represents

/-! ### The entry of a name -/

section Find

variable {b : Block bs} {n : Nat} {path : List UInt8}

/-- `find_dir_entry` returns the first entry with the name. -/
private theorem findLoop_eq (h : Slots bs b.entry n) {k di : Nat} (hdi : di ≤ n)
    (hk : di + k = dirEntriesPerBlock bs) :
    findLoop b path k di =
      ((List.range' di (n - di)).findIdx? fun j => HasName (b.entry j) path).map fun j => di + j := by
  induction k generalizing di with
  | zero =>
    have hcount := h.count_le
    rw [findLoop, show n - di = 0 by omega]
    rfl
  | succ k ih =>
    rw [findLoop]
    by_cases hn : di < n
    · rw [if_neg (by rw [h.used di hn]; decide), show n - di = n - (di + 1) + 1 by omega, List.range'_succ,
        List.findIdx?_cons, ih (by omega) (by omega)]
      by_cases hname : HasName (b.entry di) path
      · rw [if_pos (strncmp_path_iff.2 hname), if_pos (by simpa using hname)]
        rfl
      · rw [if_neg (fun hc => hname (strncmp_path_iff.1 hc)), if_neg (by simpa using hname), Option.map_map]
        congr 1
        funext j
        simp only [Function.comp_apply]
        omega
    · rw [if_pos (h.unused di (by omega) (by omega)), show n - di = 0 by omega]
      rfl

private theorem findDirEntry_eq (h : Slots bs b.entry n) :
    findDirEntry b path = (List.range n).findIdx? fun j => HasName (b.entry j) path := by
  rw [findDirEntry, findLoop_eq h (Nat.zero_le n) (Nat.zero_add _), Nat.sub_zero, ← List.range_eq_range']
  simp

end Find

/-! ### The requests -/

section Requests

variable [RawDisk bs δ] {s : Fs bs δ} {σ : Store bs} {n : Nat} {free : List Nat} {file : Nat → List Nat}
  {name : List UInt8} {now : UInt64} {size : UInt64} {offset : Int64}

/-- The program finds the file that the list of files has under the name. -/
theorem Represents.find {d : δ} (h : Represents d σ n free file) (hname : IsName name) :
    (findDirEntry (diskBlock d rootdirBid) name = none ∧ σ.find name = none) ∨
      ∃ i, i < n ∧ findDirEntry (diskBlock d rootdirBid) name = some i ∧
        σ.find name = some (i, (diskDir d i).file ((file i).map (diskBlock d))) := by
  have hslots : Slots bs (diskBlock d rootdirBid).entry n := h.sound.slots
  have hidx : σ.files.findIdx? (fun f => f.name = name.take fsNameLen) =
      findDirEntry (diskBlock d rootdirBid) name := by
    rw [findDirEntry_eq hslots, h.files, List.findIdx?_map]
    congr 1
    funext i
    simp only [Function.comp_apply, DirEntry.file, HasName, nameKey_of_isName hname]
    rfl
  cases hf : findDirEntry (diskBlock d rootdirBid) name with
  | none => exact Or.inl ⟨rfl, Store.find_eq_none.2 (hidx.trans hf)⟩
  | some i =>
    have hi := (hslots.of_findDirEntry hf).1
    exact Or.inr ⟨i, hi, rfl, Store.find_eq_some.2 ⟨hidx.trans hf, h.getElem? hi⟩⟩

/-- The entry of a name is the entry of its path. -/
theorem found_pathOf {b : Block bs} {i : Nat} (h : findDirEntry b name = some i) :
    findDirEntry b (pathOf name).tail = some i := h

variable [LawfulRawDisk bs δ]

theorem Represents.getattr (h : Represents s.disk σ n free file) (hname : name = [] ∨ IsName name) (st : Stat)
    (uid gid : UInt32) (now : UInt64) :
    ∃ r st' s', doGetattr s (pathOf name) st uid gid now = (r, st', s') ∧
      σ.getattr name st uid gid now = .attr r st' ∧ s'.disk = s.disk := by
  rcases hname with rfl | hname
  · exact ⟨_, _, s, rfl, rfl, rfl⟩
  · have hroot : isRoot (pathOf name) = false := isRoot_pathOf hname
    unfold doGetattr Store.getattr
    simp only [hroot, tail_pathOf, loadDirectory_bdir, Bool.false_eq_true, if_false, if_neg hname.1]
    rcases h.find hname with ⟨hf, hσ⟩ | ⟨i, -, hf, hσ⟩
    · simp only [hf, hσ]
      exact ⟨_, _, _, rfl, rfl, rfl⟩
    · simp only [hf, hσ]
      exact ⟨_, _, _, rfl, rfl, rfl⟩

private theorem Represents.readdir (h : Represents s.disk σ n free file) (stack : Block bs) :
    ∃ l, doReaddir s rootPath stack = (0, l) ∧ σ.readdir = .names 0 l := by
  refine ⟨_, doReaddir_sound h.sound.slots stack, ?_⟩
  rw [Store.readdir, h.files, List.map_map]
  rfl

private theorem Represents.read {expected : Response} (h : Represents s.disk σ n free file) (hname : IsName name)
    (stack : Block bs) (hread : σ.read name size offset = some expected) :
    ∃ r bytes s', doRead s (pathOf name) size offset stack = some (r, bytes, s') ∧
      expected.Meets (.data r (some bytes)) ∧ s'.disk = s.disk := by
  have hbs : bs < 65536 := LawfulRawDisk.blockSize_lt (δ := δ)
  have hpos : 0 < bs := LawfulRawDisk.blockSize_pos (δ := δ)
  unfold Store.read at hread
  split at hread
  · cases hread
  · rename_i hoff
    have hfit := fits_of_nonneg size hbs hpos (not_lt.1 hoff)
    unfold doRead
    simp only [tail_pathOf, loadDirectory_bdir]
    rcases h.find hname with ⟨hf, hσ⟩ | ⟨i, hi, hf, hσ⟩
    · simp only [hf]
      simp only [hσ] at hread
      cases hread
      exact ⟨_, _, _, rfl, rfl, rfl⟩
    · simp only [hf, if_pos hfit]
      simp only [hσ, DirEntry.file] at hread
      cases hread
      refine ⟨_, _, _, rfl, ?_, rfl⟩
      have hchain := h.sound.partition.fileChain i hi
      cases hc : file i with
      | nil => rfl
      | cons a l =>
        rw [hc] at hchain
        have ha : a < fsNblocks := (h.sound.partition.file_data i hi a (by rw [hc]; exact List.mem_cons_self)).2
        have hblock : readBlock (loadDirectory s).disk ((diskBlock s.disk rootdirBid).entry i).firstBlock stack =
            diskBlock s.disk a :=
          (congrArg (fun id => readBlock s.disk id stack) hchain.head_eq).trans (readBlock_eq s.disk ha stack)
        rw [hblock]
        rfl

private theorem Represents.create (h : Represents s.disk σ n free file) (hname : IsName name) (m : UInt32)
    (now : UInt64) :
    ∃ s', doCreate s (pathOf name) m now = some ((σ.create name m now).1, s') ∧
      HoldsFiles s'.disk (σ.create name m now).2 := by
  unfold Store.create
  rw [h.length]
  by_cases hn : n < dirEntriesPerBlock bs
  · have hkey : nameKey fsNameLen (pathOf name).tail ≠ [] := nameKey_ne_nil hname
    obtain ⟨s', hs', hdir, -, hsound, hdata⟩ := doCreate_sound m now h.sound hn hkey
    rw [if_pos hn]
    refine ⟨s', hs', n + 1, free, _, hsound, ?_, h.free.trans (List.map_congr_left fun id hid => ?_)⟩
    · have hnew : (newEntry name m now).file (([] : List Nat).map (diskBlock s'.disk)) =
          ⟨name.take fsNameLen, now, m.toNat, 0, []⟩ := by
        simp only [DirEntry.file, newEntry, nameKey_padName, nameKey_of_isName hname, List.map_nil]
        simp
      rw [List.range_succ, List.map_append, List.map_singleton, hdir, tail_pathOf, Function.update_self,
        Function.update_self, hnew, h.files]
      refine congrArg (· ++ _) (List.map_congr_left fun j hj => ?_)
      have hjn := List.mem_range.1 hj
      rw [Function.update_of_ne (by omega), Function.update_of_ne (by omega)]
      exact congrArg _ (List.map_congr_left fun id hid => (hdata id (h.sound.partition.file_data j hjn id hid)).symm)
    · exact (hdata id (h.sound.partition.free_data id hid)).symm
  · rw [if_neg hn]
    exact ⟨loadDirectory s, doCreate_full h.sound hn, n, free, file, h⟩

private theorem Represents.truncate {fuel : Nat} (h : Represents s.disk σ n free file) (hfuel : fsNblocks ≤ fuel)
    (hname : IsName name) (now : UInt64) :
    ∃ s', doTruncate fuel s (pathOf name) now = some ((σ.truncate name now).1, s') ∧
      HoldsFiles s'.disk (σ.truncate name now).2 := by
  unfold Store.truncate
  rcases h.find hname with ⟨hf, hσ⟩ | ⟨i, hi, hf, hσ⟩
  · simp only [hσ]
    exact ⟨_, doTruncate_none fuel hf, n, free, file, h⟩
  · obtain ⟨s', hs', ht⟩ := doTruncate_sound now h.sound (found_pathOf hf) hfuel
    have hrep := h.setFile ht.sound ht.dir fun j hj _ id hid => ht.data id (h.sound.partition.file_data j hj id hid)
    have hfile : ((diskDir s.disk i).truncated now).file (([] : List Nat).map (diskBlock s'.disk)) =
        { (diskDir s.disk i).file ((file i).map (diskBlock s.disk)) with size := 0, lastMod := now, blocks := [] } := by
      simp [DirEntry.file, DirEntry.truncated]
    rw [h.freed hi ht.data, hfile] at hrep
    simp only [hσ]
    exact ⟨s', hs', n, _, _, hrep⟩

omit [LawfulRawDisk bs δ] in
/-- What remains when the file in place `i` is removed. -/
private theorem Represents.removed {s' : Fs bs δ} {i : Nat} (h : Represents s.disk σ n free file) (hi : i < n)
    (hr : RemovedAt s n free file i now s') :
    Represents s'.disk ⟨σ.files.eraseIdx i, ((file i).map (diskBlock s.disk)).reverse ++ σ.free⟩ (n - 1)
      ((file i).reverse ++ free) fun j => file (skip i j) := by
  refine .of_getElem? hr.sound ?_ (fun j hj => ?_) (h.freed hi hr.data).symm
  · rw [List.length_eraseIdx_of_lt (by rw [h.length]; exact hi), h.length]
  · have hskip := skip_lt (i := i) (show j + 1 < n by omega)
    have hget : (σ.files.eraseIdx i)[j]? = σ.files[skip i j]? := by
      rw [List.getElem?_eraseIdx, skip]
      split <;> rfl
    rw [hr.dir j (by omega)]
    refine hget.trans ((h.getElem? hskip).trans ?_)
    rw [List.map_congr_left fun id hid => (hr.data id (h.sound.partition.file_data _ hskip id hid)).symm]

private theorem Represents.unlink {fuel : Nat} (h : Represents s.disk σ n free file) (hfuel : fsNblocks ≤ fuel)
    (hname : IsName name) (now : UInt64) :
    ∃ s', doUnlink fuel s (pathOf name) now = some ((σ.unlink name).1, s') ∧ HoldsFiles s'.disk (σ.unlink name).2 := by
  unfold Store.unlink
  rcases h.find hname with ⟨hf, hσ⟩ | ⟨i, hi, hf, hσ⟩
  · simp only [hσ]
    exact ⟨_, doUnlink_none fuel hf, n, free, file, h⟩
  · obtain ⟨s', hs', hr⟩ := doUnlink_sound now h.sound (found_pathOf hf) hfuel
    simp only [hσ]
    exact ⟨s', hs', n - 1, _, _, h.removed hi hr⟩

/-- A removal of a file behind place `i` leaves the file in place `i` where it is. -/
private theorem Represents.unlink_behind {fuel i : Nat} {nm : List UInt8} (h : Represents s.disk σ n free file)
    (hfuel : fsNblocks ≤ fuel) (hname : IsName nm) (hi : i < n) (hafter : ∀ x, σ.find nm = some x → i < x.1)
    (now : UInt64) :
    ∃ r s₁ n₁ free₁ file₁, doUnlink fuel (loadDirectory s) (pathOf nm) now = some (r, s₁) ∧
      s₁.bdir.entry = diskDir s₁.disk ∧ Represents s₁.disk (σ.unlink nm).2 n₁ free₁ file₁ ∧ i < n₁ ∧
      (σ.unlink nm).2.files[i]? = σ.files[i]? := by
  unfold Store.unlink
  have hload : Represents (loadDirectory s).disk σ n free file := h
  rcases hload.find hname with ⟨hf, hσ⟩ | ⟨j, hj, hf, hσ⟩
  · simp only [hσ]
    exact ⟨_, _, n, free, file, doUnlink_none fuel hf, loadDirectory_entry _, h, hi, trivial⟩
  · obtain ⟨s₁, hs₁, hr⟩ := doUnlink_sound now hload.sound (found_pathOf hf) hfuel
    have hij : i < j := hafter _ hσ
    simp only [hσ]
    exact ⟨0, s₁, n - 1, _, _, hs₁, hr.cached, hload.removed hj hr, by omega, List.getElem?_eraseIdx_of_lt hij⟩

private theorem Slots.rename {dir : Nat → DirEntry} {nm : List UInt8} {i : Nat} (h : Slots bs dir n)
    (hne : nameKey fsNameLen nm ≠ []) (hi : i < n) (now : UInt64) :
    Slots bs (Function.update dir i ((dir i).named nm now)) n := by
  refine ⟨h.count_le, fun j hj => ?_, fun j hj hjN => ?_⟩
  · by_cases hji : j = i
    · rw [hji, Function.update_self, Bool.eq_false_iff, ne_eq, isEmpty_iff, DirEntry.named_hasName]
      exact hne
    · rw [Function.update_of_ne hji]
      exact h.used j hj
  · rw [Function.update_of_ne (by omega)]
    exact h.unused j hj hjN

/-- The end of `do_rename`. -/
private theorem Represents.setName {nm : List UInt8} {i : Nat} {f : File bs} (h : Represents s.disk σ n free file)
    (hcached : s.bdir.entry = diskDir s.disk) (hname : IsName nm) (hi : i < n) (hf : σ.files[i]? = some f)
    (now : UInt64) :
    HoldsFiles (saveDirectory { s with bdir := setLastMod (setName s.bdir i (cstr nm)) i now.toNat }).disk
      { σ with files := σ.files.set i { f with name := nm.take fsNameLen, lastMod := now } } := by
  obtain ⟨s', hs', hdir, hmap⟩ :=
    saveNamed_spec hcached (Nat.lt_of_lt_of_le hi h.sound.slots.count_le) nm now
  rw [hs']
  have hdata : ∀ id, DataBlock id → diskBlock s'.disk id = diskBlock s.disk id := by
    intro id hid
    rw [← hs']
    exact diskBlock_write_other _ hid.2 hid.ne_rootdir _
  have hfirst : ∀ j, (diskDir s'.disk j).firstBlock = (diskDir s.disk j).firstBlock := by
    intro j
    rw [hdir]
    by_cases hj : j = i
    · rw [hj, Function.update_self]
      rfl
    · rw [Function.update_of_ne hj]
  have hsound : SoundAt bs (diskMap s'.disk) (diskDir s'.disk) n free (Function.update file i (file i)) := by
    rw [Function.update_eq_self]
    refine ⟨h.sound.mapHolds, ?_, ?_, fun j hj hpos => ?_⟩
    · rw [hdir]
      exact h.sound.slots.rename (nameKey_ne_nil hname) hi now
    · rw [hmap]
      exact h.sound.partition.congr_first fun j _ => hfirst j
    · rw [hfirst]
      refine h.sound.hasBlock j hj ?_
      rw [hdir] at hpos
      by_cases hji : j = i
      · rw [hji, Function.update_self] at hpos
        rw [hji]
        exact hpos
      · rwa [Function.update_of_ne hji] at hpos
  have hrep := h.setFile hsound hdir fun j hj _ id hid => hdata id (h.sound.partition.file_data j hj id hid)
  have hfile : ((diskDir s.disk i).named nm now).file ((file i).map (diskBlock s'.disk)) =
      { f with name := nm.take fsNameLen, lastMod := now } := by
    obtain rfl := Option.some.inj ((h.getElem? hi).symm.trans hf)
    rw [List.map_congr_left fun id hid => hdata id (h.sound.partition.file_data i hi id hid)]
    simp [DirEntry.file, DirEntry.named, nameKey_padName, nameKey_of_isName hname]
  have hfree : free.map (diskBlock s'.disk) = σ.free := by
    rw [h.free]
    exact List.map_congr_left fun id hid => hdata id (h.sound.partition.free_data id hid)
  rw [hfile, hfree] at hrep
  exact ⟨n, free, _, hrep⟩

private theorem Represents.rename {fuel : Nat} {o nm : List UInt8} {now' : UInt64} {r : Int} {σ' : Store bs}
    (h : Represents s.disk σ n free file) (hfuel : fsNblocks ≤ fuel) (ho : IsName o) (hnm : IsName nm) (now : UInt64)
    (hren : σ.rename o nm now' = some (r, σ')) :
    ∃ s', doRename fuel s (pathOf o) (pathOf nm) now now' = some (r, s') ∧ HoldsFiles s'.disk σ' := by
  unfold Store.rename at hren
  unfold doRename
  simp only [tail_pathOf, loadDirectory_bdir]
  rcases h.find ho with ⟨hf, hσ⟩ | ⟨i, hi, hf, hσ⟩
  · simp only [hσ] at hren
    cases hren
    simp only [hf]
    exact ⟨_, rfl, n, free, file, h⟩
  · simp only [hσ] at hren
    split at hren
    · rename_i hafter
      cases hren
      obtain ⟨r, s₁, n₁, free₁, file₁, hs₁, hcached, hrep, hi₁, hsame⟩ := h.unlink_behind hfuel hnm hi
        (fun x hx => by simpa [hx] using hafter) now
      simp only [hf, hs₁, Option.bind_eq_bind, Option.bind_some]
      exact ⟨_, rfl, hrep.setName hcached hnm hi₁ (hsame.trans (h.getElem? hi)) now'⟩
    · cases hren

/-! ### Writes -/

/-- A function that changes at one element of a list without repetitions. -/
private theorem map_eq_modify {α β : Type*} {f f' : α → β} {g : β → β} {l : List α} {k : Nat} {a : α} (hnd : l.Nodup)
    (hk : l[k]? = some a) (ha : f' a = g (f a)) (hother : ∀ x ∈ l, x ≠ a → f' x = f x) :
    l.map f' = (l.map f).modify k g := by
  refine List.ext_getElem? fun j => ?_
  rw [List.getElem?_modify, List.getElem?_map, List.getElem?_map]
  cases hj : l[j]? with
  | none => rfl
  | some x =>
    by_cases hkj : k = j
    · subst hkj
      obtain rfl := Option.some.inj (hk.symm.trans hj)
      simp [ha]
    · have hne : x ≠ a := by
        rintro rfl
        obtain ⟨hlt, -⟩ := List.getElem?_eq_some_iff.1 hk
        exact hkj ((List.getElem?_inj hlt hnd).1 (hk.trans hj.symm))
      simp [hother x (List.mem_of_getElem? hj) hne, hkj]

omit [LawfulRawDisk bs δ] in
/-- A disk with the same blocks holds the same files. -/
private theorem Represents.congr {d d' : δ} (h : Represents d σ n free file)
    (hblocks : ∀ id, id < fsNblocks → diskBlock d' id = diskBlock d id) : Represents d' σ n free file := by
  have hmap : diskMap d' = diskMap d := congrArg Block.ids (hblocks _ (by decide))
  have hdir : diskDir d' = diskDir d := congrArg Block.entry (hblocks _ (by decide))
  refine ⟨?_, h.files.trans (List.map_congr_left fun i hi => ?_), h.free.trans (List.map_congr_left fun id hid => ?_)⟩
  · rw [hmap, hdir]
    exact h.sound
  · rw [hdir, List.map_congr_left fun id hid =>
      hblocks id (h.sound.partition.file_data i (List.mem_range.1 hi) id hid).2]
  · exact (hblocks id (h.sound.partition.free_data id hid).2).symm

variable {buffer : Nat → UInt8} {stack : Block bs}

/-- A write to a file without blocks that does not grow: at block offset 0 it goes past the disk. -/
theorem doWrite_empty_returns {path : List UInt8} {i : Nat} (buffer : Nat → UInt8) (now : UInt64) (stack : Block bs)
    (hfind : findDirEntry (diskBlock s.disk rootdirBid) path.tail = some i)
    (hfirst : (diskDir s.disk i).firstBlock = eofBlock)
    (hgrow : ¬(diskDir s.disk i).sizeBytes < endOffset size offset) (hk : blkoffs bs offset = 0)
    (hfit : byteoffs bs offset + crtsize bs size offset ≤ bs) :
    ∃ r s', doWrite s path buffer size offset now stack = some (r, s') ∧
      ∃ b map, s'.disk = writeBlock (writeBlock s.disk eofBlock b) blkmapBid map := by
  have hent : (loadBlockmap (loadDirectory s)).bdir.entry = diskDir s.disk := loadDirectory_entry s
  rw [← loadDirectory_bdir] at hfind
  unfold doWrite
  simp only [hfind, growFile, hent, if_neg hgrow, hk, hfirst, navigate, memcpyBlock, if_pos hfit, Option.bind_eq_bind,
    Option.bind_some, Bool.not_true, Bool.false_eq_true, if_false]
  exact ⟨_, _, rfl, _, _, rfl⟩

omit [RawDisk bs δ] [LawfulRawDisk bs δ] in
private theorem file_written (e : DirEntry) (newSize first : Nat) (c c' : List (Block bs)) :
    (e.written newSize first now).file c' = { (e.file c).grow newSize now with blocks := c' } := by
  unfold DirEntry.written File.grow
  by_cases h : e.sizeBytes < newSize
  · rw [if_pos h, if_pos (show (e.file c).size < newSize from h)]
    simp [DirEntry.file]
  · rw [if_neg h, if_neg (show ¬(e.file c).size < newSize from h)]
    rfl

omit [LawfulRawDisk bs δ] in
/-- The file after a write that reaches block `k`, with the blocks that were taken from the free list. -/
private theorem Represents.written {s' : Fs bs δ} {i k blk first newSize : Nat} {g : Block bs → Block bs}
    (h : Represents s.disk σ n free file) (hi : i < n) (hk : (file i ++ free)[k]? = some blk)
    (hw : WrittenAt s n i free file k ((diskDir s.disk i).written newSize first now) blk (g (diskBlock s.disk blk))
      s') :
    HoldsFiles s'.disk
      ⟨σ.files.set i { ((diskDir s.disk i).file ((file i).map (diskBlock s.disk))).grow newSize now with
          blocks := ((file i).map (diskBlock s.disk) ++ σ.free.take (k + 1 - (file i).length)).modify k g },
        σ.free.drop (k + 1 - (file i).length)⟩ := by
  obtain ⟨taken, htaken⟩ : ∃ taken, taken = k + 1 - (file i).length := ⟨_, rfl⟩
  have hp := h.sound.partition
  have hnd : (file i ++ free.take taken ++ free.drop taken).Nodup := by
    rw [List.append_assoc, List.take_append_drop]
    exact hp.nodup_append hi
  have hblk : (file i ++ free.take taken)[k]? = some blk := by
    rw [take_append_getElem? _ _ (by omega)]
    exact hk
  have hmem : blk ∈ file i ++ free.take taken := List.mem_of_getElem? hblk
  have hne : ∀ id ∈ free.drop taken, id ≠ blk := by
    rintro id hid rfl
    exact List.disjoint_of_nodup_append hnd hmem hid
  have hdata : ∀ id ∈ file i ++ free.take taken, DataBlock id := by
    intro id hid
    apply hp.data_of_mem hi
    rw [List.mem_append] at hid ⊢
    exact hid.imp_right List.mem_of_mem_take
  have hother : ∀ j, j < n → j ≠ i → ∀ id ∈ file j, diskBlock s'.disk id = diskBlock s.disk id := by
    intro j hj hji id hid
    refine hw.data id (hp.file_data j hj id hid) ?_
    rintro rfl
    rcases List.mem_append.1 hmem with hm | hm
    · exact hp.file_file j i hj hi hji id hid hm
    · exact hp.file_free j hj id hid (List.mem_of_mem_take hm)
  have hsound := hw.sound
  rw [← htaken] at hsound
  have hrep := h.setFile hsound hw.dir hother
  rw [file_written (c := (file i).map (diskBlock s.disk)), map_eq_modify (List.nodup_append.1 hnd).1 hblk hw.block
    fun id hid hne => hw.data id (hdata id hid) hne, List.map_append, List.map_take, ← h.free] at hrep
  have hfree : (free.drop taken).map (diskBlock s'.disk) = σ.free.drop taken := by
    rw [h.free, ← List.map_drop]
    exact List.map_congr_left fun id hid =>
      hw.data id (hp.free_data id (List.mem_of_mem_drop hid)) (hne id hid)
  rw [hfree] at hrep
  rw [← htaken]
  exact ⟨n, _, _, hrep⟩

omit [LawfulRawDisk bs δ] in
/-- The file after a write that ran out of blocks. -/
private theorem Represents.grown {s' : Fs bs δ} {i newSize : Nat} (h : Represents s.disk σ n free file) (hi : i < n)
    (hne : file i ≠ [])
    (hdir : diskDir s'.disk = Function.update (diskDir s.disk) i
      ((diskDir s.disk i).written newSize ((file i ++ free).headD eofBlock) now))
    (hblocks : ∀ id, id < fsNblocks → id ≠ rootdirBid → diskBlock s'.disk id = diskBlock s.disk id) :
    HoldsFiles s'.disk
      { σ with
        files := σ.files.set i (((diskDir s.disk i).file ((file i).map (diskBlock s.disk))).grow newSize now) } := by
  obtain ⟨a, l, hal⟩ := List.exists_cons_of_ne_nil hne
  have hmap : diskMap s'.disk = diskMap s.disk := congrArg Block.ids (hblocks _ (by decide) (by decide))
  have hdata : ∀ id, DataBlock id → diskBlock s'.disk id = diskBlock s.disk id :=
    fun id hid => hblocks id hid.2 hid.ne_rootdir
  rw [hal, List.cons_append, List.headD_cons] at hdir
  have hsound := h.sound.resized hi hal hdir hmap
  rw [← Function.update_eq_self i file] at hsound
  have hrep := h.setFile hsound hdir fun j hj _ id hid => hdata id (h.sound.partition.file_data j hj id hid)
  have hfile : ((diskDir s.disk i).written newSize a now).file ((file i).map (diskBlock s.disk)) =
      ((diskDir s.disk i).file ((file i).map (diskBlock s.disk))).grow newSize now := by
    rw [file_written (c := (file i).map (diskBlock s.disk))]
    unfold File.grow
    split <;> rfl
  rw [List.map_congr_left fun id hid => hdata id (h.sound.partition.file_data i hi id hid),
    List.map_congr_left fun id hid => hdata id (h.sound.partition.free_data id hid), ← h.free, hfile] at hrep
  exact ⟨n, free, _, hrep⟩

theorem Represents.write {r : Int} {σ' : Store bs} (h : Represents s.disk σ n free file) (hname : IsName name)
    (stack : Block bs) (hw : σ.write name buffer size offset now = some (r, σ')) :
    ∃ s', doWrite s (pathOf name) buffer size offset now stack = some (r, s') ∧ HoldsFiles s'.disk σ' := by
  have hbs : bs < 65536 := LawfulRawDisk.blockSize_lt (δ := δ)
  have hpos : 0 < bs := LawfulRawDisk.blockSize_pos (δ := δ)
  unfold Store.write at hw
  by_cases hoff : offset.toInt < 0
  · rw [if_pos hoff] at hw
    cases hw
  · have hfit := fits_of_nonneg size hbs hpos (not_lt.1 hoff)
    rw [if_neg hoff] at hw
    rcases h.find hname with ⟨hf, hσ⟩ | ⟨i, hi, hf, hσ⟩
    · simp only [hσ, Option.some.injEq, Prod.mk.injEq] at hw
      obtain ⟨rfl, rfl⟩ := hw
      exact ⟨_, doWrite_none hf, n, free, file, h⟩
    · have hlen : ((file i).map (diskBlock s.disk) ++ σ.free).length = (file i ++ free).length := by
        rw [h.free, ← List.map_append, List.length_map]
      have hnil : (file i).map (diskBlock s.disk) ++ σ.free = [] ↔ file i ++ free = [] := by
        rw [h.free, ← List.map_append, List.map_eq_nil_iff]
      simp only [hσ, DirEntry.file_blocks, DirEntry.file_size, hlen, hnil, List.map_eq_nil_iff, List.length_map] at hw
      rcases write_cases (file i) free ((diskDir s.disk i).sizeBytes < endOffset size offset) (blkoffs bs offset) with
        ⟨hcf, hgrow⟩ | ⟨hnone, hgrow⟩ | ⟨hc, hne, hk⟩ | ⟨hc, blk, hk⟩
      · -- a file without blocks that does not grow
        rw [if_pos ⟨hcf, hgrow⟩] at hw
        by_cases hk : blkoffs bs offset = 0
        · simp only [if_pos hk, Option.some.injEq, Prod.mk.injEq] at hw
          obtain ⟨rfl, rfl⟩ := hw
          have hfirst : (diskDir s.disk i).firstBlock = eofBlock := by
            have hchain := h.sound.partition.fileChain i hi
            rwa [hcf] at hchain
          obtain ⟨r, s', hs', -⟩ := doWrite_empty_returns buffer now stack (found_pathOf hf) hfirst hgrow hk hfit
          obtain ⟨hr, hblocks⟩ := doWrite_empty_sound h.sound (found_pathOf hf) hcf hgrow hs'
          rw [hr] at hs'
          exact ⟨s', hs', n, free, file, h.congr hblocks⟩
        · rw [if_neg hk] at hw
          cases hw
      · obtain ⟨s', hs', hdisk⟩ : ∃ s', doWrite s (pathOf name) buffer size offset now stack = some (-enospc, s') ∧
            s'.disk = s.disk := doWrite_noBlock_sound buffer now stack h.sound hf hnone hgrow
        have hno : ¬(file i = [] ∧ ¬(diskDir s.disk i).sizeBytes < endOffset size offset) := fun hc => hc.2 hgrow
        simp only [if_neg hno, if_pos hnone, Option.some.injEq, Prod.mk.injEq] at hw
        obtain ⟨rfl, rfl⟩ := hw
        exact ⟨s', hs', n, free, file, hdisk ▸ h⟩
      · rw [if_neg (fun hno => hc.elim (fun h => h hno.1) hno.2), if_neg hne, if_pos hk] at hw
        by_cases hcf : file i = []
        · rw [if_pos hcf] at hw
          cases hw
        · obtain ⟨s', hs', hdir, hblocks, -⟩ :=
            doWrite_full_sound buffer now stack h.sound (found_pathOf hf) hc hne hk
          simp only [if_neg hcf, Option.some.injEq, Prod.mk.injEq] at hw
          obtain ⟨rfl, rfl⟩ := hw
          exact ⟨s', hs', h.grown hi hcf hdir hblocks⟩
      · have hlt := (List.getElem?_eq_some_iff.1 hk).1
        have hne : file i ++ free ≠ [] := by
          intro hno
          rw [hno] at hlt
          exact Nat.not_lt_zero _ hlt
        obtain ⟨s', hs', hwr, -⟩ := doWrite_done_sound buffer now stack h.sound (found_pathOf hf) hc hk hfit
        have hno : ¬(file i = [] ∧ ¬(diskDir s.disk i).sizeBytes < endOffset size offset) :=
          fun hno => hc.elim (fun h => h hno.1) hno.2
        simp only [if_neg hno, if_neg hne, if_neg (not_le.2 hlt), Option.some.injEq, Prod.mk.injEq] at hw
        obtain ⟨rfl, rfl⟩ := hw
        exact ⟨s', hs', h.written hi hk hwr⟩

/-! ### Runs -/

/-- The program answers a request as the list of files does. -/
theorem handle_refines {fuel : Nat} {req : Request bs} {expected : Response} {σ' : Store bs} (h : HoldsFiles s.disk σ)
    (hfuel : fsNblocks ≤ fuel) (hnamed : req.Named) (hreq : σ.handle req = some (expected, σ')) :
    ∃ actual s', handle fuel s req = some (actual, s') ∧ expected.Meets actual ∧ HoldsFiles s'.disk σ' := by
  obtain ⟨n, free, file, h⟩ := h
  cases req with
  | getattr name st uid gid now =>
    cases hreq
    obtain ⟨r, st', s', hs', hσ, hdisk⟩ := h.getattr hnamed st uid gid now
    refine ⟨.attr r st', s', by simp only [handle, hs'], ?_, n, free, file, hdisk ▸ h⟩
    rw [hσ]
    exact .refl _
  | readdir stack =>
    cases hreq
    obtain ⟨l, hs', hσ⟩ := h.readdir stack
    refine ⟨.names 0 l, s, by simp only [handle, hs'], ?_, n, free, file, h⟩
    rw [hσ]
    exact .refl _
  | rename o nm now now' =>
    obtain ⟨⟨r, σ₁⟩, hren, hans⟩ := Option.map_eq_some_iff.1 hreq
    cases hans
    obtain ⟨s', hs', h'⟩ := h.rename hfuel hnamed.1 hnamed.2 now hren
    exact ⟨.status r, s', by simp only [handle, hs', Option.map_some], .refl _, h'⟩
  | remount bdir bmap =>
    cases hreq
    exact ⟨.status 0, _, rfl, .refl _, n, free, file, h⟩
  | call c =>
    have hname : IsName c.name := hnamed
    cases c with
    | read name size offset stack =>
      obtain ⟨a, hread, hans⟩ := Option.map_eq_some_iff.1 hreq
      cases hans
      obtain ⟨r, bytes, s', hs', hmeets, hdisk⟩ := h.read hname stack hread
      refine ⟨.data r (some bytes), s', ?_, hmeets, n, free, file, hdisk ▸ h⟩
      simp only [Call.name] at hs'
      simp only [handle, perform, hs', Option.map_some, Call.response]
    | write name buffer size offset now stack =>
      obtain ⟨⟨r, σ₁⟩, hw, hans⟩ := Option.map_eq_some_iff.1 hreq
      cases hans
      obtain ⟨s', hs', h'⟩ := h.write hname stack hw
      refine ⟨.status r, s', ?_, .refl _, h'⟩
      simp only [Call.name] at hs'
      simp only [handle, perform, hs', Option.map_some, Call.response]
    | create name m now =>
      obtain ⟨s', hs', h'⟩ := h.create hname m now
      simp only [Call.name] at hs' h'
      cases hreq
      refine ⟨_, s', ?_, .refl _, h'⟩
      simp only [handle, perform, hs', Option.map_some, Call.response]
    | truncate name now =>
      obtain ⟨s', hs', h'⟩ := h.truncate hfuel hname now
      simp only [Call.name] at hs' h'
      cases hreq
      refine ⟨_, s', ?_, .refl _, h'⟩
      simp only [handle, perform, hs', Option.map_some, Call.response]
    | unlink name now =>
      obtain ⟨s', hs', h'⟩ := h.unlink hfuel hname now
      simp only [Call.name] at hs' h'
      cases hreq
      refine ⟨_, s', ?_, .refl _, h'⟩
      simp only [handle, perform, hs', Option.map_some, Call.response]

/-- On a disk that holds files, the program answers every run of requests that the list of files answers, in the same
way, whatever its caches hold and wherever in the run it is started again, and leaves a disk that holds the files
after the run. -/
theorem refines {fuel : Nat} {reqs : List (Request bs)} {expected : List Response} {σ' : Store bs}
    (h : HoldsFiles s.disk σ) (hfuel : fsNblocks ≤ fuel) (hnamed : ∀ req ∈ reqs, req.Named)
    (hrun : run Store.handle σ reqs = some (expected, σ')) :
    ∃ actual s', run (handle fuel) s reqs = some (actual, s') ∧ List.Forall₂ Response.Meets expected actual ∧
      HoldsFiles s'.disk σ' := by
  have hstep : ∀ (s : Fs bs δ) (σ : Store bs) req expected σ', HoldsFiles s.disk σ → req.Named →
      σ.handle req = some (expected, σ') →
      ∃ actual s', handle fuel s req = some (actual, s') ∧ expected.Meets actual ∧ HoldsFiles s'.disk σ' :=
    fun s σ req expected σ' h hnamed hreq => handle_refines h hfuel hnamed hreq
  exact run_simulates hstep h hnamed hrun

end Requests

/-! ### A run on a formatted disk -/

/-- No files, and eight free blocks of zeros. -/
def emptyStore : Store 512 := ⟨[], List.replicate 8 fun _ => 0⟩

theorem mounted_holdsFiles : HoldsFiles mounted.disk emptyStore := by
  refine ⟨0, List.range' 2 8, fun _ => [], wellFormedAt_mounted.sound, rfl, ?_⟩
  rfl

/-- A file is written in two blocks, the program is started again and the file is renamed and read. -/
def twoBlocks : List (Request 512) :=
  [.call (.create [97] 0o644 1), .call (.write [97] (fun _ => 5) 3 0 2 fun _ => 0),
    .call (.write [97] (fun _ => 6) 1 600 3 fun _ => 0), .remount (fun _ => 9) (fun _ => 9), .rename [97] [98] 4 5,
    .call (.read [98] 2 1 fun _ => 0), .readdir fun _ => 0]

theorem refines_twoBlocks : ∃ expected σ', run Store.handle emptyStore twoBlocks = some (expected, σ') ∧
    expected[5]? = some (.data 2 (some [5, 5])) ∧ expected[6]? = some (.names 0 [[46], [46, 46], [98]]) ∧
    ∃ actual s', run (handle fsNblocks) mounted twoBlocks = some (actual, s') ∧
      List.Forall₂ Response.Meets expected actual ∧ HoldsFiles s'.disk σ' := by
  have hnamed : ∀ req ∈ twoBlocks, req.Named := by
    simp [twoBlocks, Request.Named, Call.name, IsName]
  exact ⟨_, _, rfl, rfl, rfl, refines mounted_holdsFiles (Nat.le_refl _) hnamed rfl⟩

end Edaf35.Ssfs
