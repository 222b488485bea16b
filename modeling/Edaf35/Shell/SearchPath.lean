import Edaf35.Shell.CircularList
import Edaf35.Shell.RunProgram

/-!
# The directories of `PATH`

`init_search_path` copies `PATH`, ends each part of the copy with a null character in place of the colon, and puts
pointers to the parts into the circular list `path_dir_list`.  The child in `run_program` goes along this list, as
many nodes as `length` says.  The list holds the parts of `PATH` in order (`initSearchPath_eq`), so the child runs the
program in the first of the directories that has it (`lookup_order`), up to the number of directories that the
`unsigned` of `length` can count.
-/

namespace Edaf35.Shell

def colon : UInt8 := 58

/-! ### `init_search_path` -/

/-- The datum of a node: a pointer into the copy of `PATH`, or the string "" where there is none. -/
abbrev DirPtr := Option Nat

/-- The inner loop: from `s` to the end of the directory. -/
def scanDir (copy : List UInt8) : (fuel s : Nat) → Option Nat
  | 0, _ => none
  | fuel + 1, s =>
    match copy[s]? with
    | none => none
    | some ch => if ch ≠ colon ∧ ch ≠ 0 then scanDir copy fuel (s + 1) else some s

/-- The outer loop, with `malloc count` the address of the next node. -/
def splitLoop (malloc : Nat → Nat) : (fuel : Nat) → (copy : List UInt8) → (dirStart : Nat) → Handle DirPtr →
    (count : Nat) → Option (List UInt8 × Handle DirPtr)
  | 0, _, _, _, _ => none
  | fuel + 1, copy, dirStart, pathDirList, count =>
    match scanDir copy (copy.length + 1) dirStart with
    | none => none
    | some s =>
      let proceed := copy[s]? = some colon
      let copy := if proceed then copy.set s 0 else copy
      match pathDirList.nodes.insertLast pathDirList.list (malloc count) (some dirStart) with
      | none => none
      | some (list, nodes) =>
        if proceed then splitLoop malloc fuel copy (s + 1) ⟨list, nodes⟩ (count + 1) else some (copy, ⟨list, nodes⟩)

/-- `init_search_path`: the copy of `PATH` and `path_dir_list`.  `strlen` fails when `PATH` is not set. -/
def initSearchPath (nodes : Nodes DirPtr) (malloc : Nat → Nat) :
    (path : Option (List UInt8)) → Option (List UInt8 × Handle DirPtr)
  | none => none
  | some path =>
    let copy := path ++ [0]
    if path = [] then some (copy, ⟨malloc 0, nodes.newList (malloc 0) none⟩)
    else splitLoop malloc copy.length copy 0 ⟨0, nodes⟩ 0

/-! ### The loop in `run_program` -/

/-- The string that a datum points to. -/
def dirString (copy : List UInt8) : DirPtr → Option (List UInt8)
  | none => some []
  | some start => if 0 ∈ copy.drop start then some ((copy.drop start).takeWhile (· ≠ 0)) else none

/-- The strings of `k` nodes, along `succ` from `list` on. -/
def readDirs (copy : List UInt8) (nodes : Nodes DirPtr) : (k list : Nat) → Option (List (List UInt8))
  | 0, _ => some []
  | k + 1, list => do
    let dir ← dirString copy (← nodes.getData list)
    let dirs ← readDirs copy nodes k (← nodes.getSucc list)
    return dir :: dirs

/-- The loop over `path_dir_list`, with `list_len` directories to come. -/
def searchLoop (copy : List UInt8) (nodes : Nodes DirPtr) (name : List UInt8) (next : List UInt8 → Run) :
    (listLen list : Nat) → (buf : List UInt8) → Option Run
  | 0, _, buf => some (next buf)
  | listLen + 1, list, _ => do
    let dir ← dirString copy (← nodes.getData list)
    let rest ← searchLoop copy nodes name next listLen (← nodes.getSucc list) (pathIn dir name)
    return .access (pathIn dir name) fun found => if found then next (pathIn dir name) else rest

/-- `run_program`, with `path_dir_list` in memory. -/
def runProgramAt (copy : List UInt8) (pathDirList : Handle DirPtr) (fuel : Nat) (home : Option (List UInt8))
    (call : Call) (inputFd outputFd : Int) (oldDir : Option (List UInt8)) (oldDirTmp buf : List UInt8) : Option Run :=
  let name := call.argv.headD []
  if name = exitName ∨ name = cdName then
    -- the list is not used
    some (runProgram [] home call inputFd outputFd oldDir oldDirTmp buf)
  else do
    let listLen ← pathDirList.nodes.length pathDirList.list fuel
    let inChild ← searchLoop copy pathDirList.nodes name
      (fun path => dup2Unless inputFd stdinFileno <| dup2Unless outputFd stdoutFileno <|
        .execv path call.argv (.ret oldDir)) listLen.toNat pathDirList.list buf
    return .fork inChild fun child =>
      if call.foreground && !call.doingPipe then .waitpid (child.elim (-1) (↑)) (.ret oldDir)
      else if child = none then .error "Fork failed" (.exit 1)
      else .ret oldDir

/-- The path that `execv` gets in the child, with `found` the answers of `access`. -/
def Run.execPath (found : List UInt8 → Bool) : Run → Option (List UInt8)
  | .fork inChild _ => inChild.execPath found
  | .access path next => (next (found path)).execPath found
  | .dup2 _ _ next => next.execPath found
  | .execv path _ _ => some path
  | _ => none

/-- The loop over the nodes is the loop over the strings that they point to. -/
private theorem searchLoop_eq (copy : List UInt8) (nodes : Nodes DirPtr) (name : List UInt8) (next : List UInt8 → Run)
    {dirs : List (List UInt8)} {k list : Nat} {buf : List UInt8} (h : readDirs copy nodes k list = some dirs) :
    searchLoop copy nodes name next k list buf = some (searchPath name dirs buf next) := by
  induction k generalizing list buf dirs with
  | zero =>
    cases h
    rfl
  | succ k ih =>
    simp only [readDirs, Option.bind_eq_bind, Option.bind_eq_some_iff] at h
    obtain ⟨data, hdata, dir, hdir, succ, hsucc, rest, hrest, hdirs⟩ := h
    cases hdirs
    simp [searchLoop, hdata, hdir, hsucc, ih hrest, searchPath]

/-! ### What the list holds -/

/-- What the loop makes of the characters that are left. -/
def zeroed (rest : List UInt8) : List UInt8 := rest.map fun ch => if ch = colon then 0 else ch

private theorem zeroed_of_notMem {seg : List UInt8} (h : colon ∉ seg) : zeroed seg = seg := by
  have hkeep : ∀ ch ∈ seg, (if ch = colon then 0 else ch) = id ch := by
    intro ch hch
    apply if_neg
    rintro rfl
    exact h hch
  rw [zeroed, List.map_congr_left hkeep, List.map_id]

private theorem zeroed_append {seg rest : List UInt8} (h : colon ∉ seg) :
    zeroed (seg ++ colon :: rest) = seg ++ 0 :: zeroed rest := by
  have hseg := zeroed_of_notMem h
  simp only [zeroed] at hseg ⊢
  rw [List.map_append, hseg]
  rfl

/-- The inner loop stops at the first colon or null character. -/
private theorem scanDir_eq {seg rest : List UInt8} {ch : UInt8} (hseg : ∀ x ∈ seg, x ≠ colon ∧ x ≠ 0)
    (hch : ch = colon ∨ ch = 0) {done : List UInt8} {fuel : Nat} (hfuel : seg.length < fuel) :
    scanDir (done ++ (seg ++ ch :: rest)) fuel done.length = some (done.length + seg.length) := by
  induction seg generalizing done fuel with
  | nil =>
    obtain ⟨fuel, rfl⟩ : ∃ k, fuel = k + 1 := ⟨fuel - 1, by omega⟩
    have hstop : ¬(ch ≠ colon ∧ ch ≠ 0) := by
      intro h
      exact hch.elim h.1 h.2
    simp only [scanDir, List.nil_append, List.getElem?_append_right (Nat.le_refl _),
      Nat.sub_self, List.getElem?_cons_zero, if_neg hstop, List.length_nil, Nat.add_zero]
  | cons x seg ih =>
    obtain ⟨fuel, rfl⟩ : ∃ k, fuel = k + 1 := ⟨fuel - 1, by omega⟩
    have hrest : scanDir ((done ++ [x]) ++ (seg ++ ch :: rest)) fuel (done ++ [x]).length = _ :=
      ih (fun y hy => hseg y (List.mem_cons_of_mem x hy)) (by simpa using hfuel)
    rw [List.append_assoc, List.singleton_append, List.length_append, List.length_singleton] at hrest
    simp only [scanDir, List.cons_append, List.getElem?_append_right (Nat.le_refl _), Nat.sub_self,
      List.getElem?_cons_zero, if_pos (hseg x List.mem_cons_self), hrest, List.length_cons]
    congr 1
    omega

/-- The string that starts after `done`. -/
private theorem dirString_eq {done seg rest : List UInt8} (hseg : (0 : UInt8) ∉ seg) :
    dirString (done ++ (seg ++ 0 :: rest)) (some done.length) = some seg := by
  have hall : ∀ x ∈ seg, decide (x ≠ 0) = true := by
    intro x hx
    exact decide_eq_true fun he => hseg (he ▸ hx)
  simp only [dirString, List.drop_left]
  rw [if_pos (by simp), List.takeWhile_append_of_pos hall]
  simp

/-- The loop from a point of the copy on: `done` is behind it, and `rest` is what is left of `PATH`. -/
private theorem splitLoop_eq {malloc : Nat → Nat} (hinj : Function.Injective malloc) (hne : ∀ i, malloc i ≠ 0)
    {fuel : Nat} {done rest : List UInt8} (hfuel : rest.length < fuel) (hrest : (0 : UInt8) ∉ rest)
    {h : Handle DirPtr} {xs : List (Nat × DirPtr)} (hs : Stands h xs)
    (hxs : addresses xs = (List.range xs.length).map malloc) :
    ∃ h' ys, splitLoop malloc fuel (done ++ (rest ++ [0])) done.length h xs.length =
        some (done ++ (zeroed rest ++ [0]), h') ∧ Stands h' (xs ++ ys) ∧
      ys.map (fun y => dirString (done ++ (zeroed rest ++ [0])) y.2) = (rest.splitOn colon).map some := by
  induction fuel generalizing done rest h xs with
  | zero => omega
  | succ fuel ih =>
    have hfresh : Fresh h (malloc xs.length) := by
      refine ⟨hne _, ?_⟩
      rw [← Bool.not_eq_true, hs.allocated, hxs, List.mem_map]
      rintro ⟨i, hi, he⟩
      rw [hinj he, List.mem_range] at hi
      omega
    obtain ⟨list, nodes, hcall, hs'⟩ := hs.insertLast (d := some done.length) hfresh
    have hxs' : addresses (xs ++ [(malloc xs.length, some done.length)]) =
        (List.range (xs ++ [(malloc xs.length, some done.length)]).length).map malloc := by
      simp [hxs, List.range_succ]
    by_cases hmem : colon ∈ rest
    · -- the directory ends at a colon
      obtain ⟨seg, rest, rfl, hseg⟩ := List.eq_append_cons_of_mem hmem
      simp only [List.mem_append, List.mem_cons, not_or] at hrest
      have hchars : ∀ x ∈ seg, x ≠ colon ∧ x ≠ 0 := by
        intro x hx
        exact ⟨fun he => hseg (he ▸ hx), fun he => hrest.1 (he ▸ hx)⟩
      have hscan : scanDir (done ++ (seg ++ colon :: (rest ++ [0])))
          ((done ++ (seg ++ colon :: (rest ++ [0]))).length + 1) done.length = some (done.length + seg.length) :=
        scanDir_eq hchars (Or.inl rfl) (by simp; omega)
      have hcolon : (done ++ (seg ++ colon :: (rest ++ [0])))[done.length + seg.length]? = some colon := by simp
      have hset : (done ++ (seg ++ colon :: (rest ++ [0]))).set (done.length + seg.length) 0 =
          done ++ (seg ++ [0]) ++ (rest ++ [0]) := by
        simp [List.set_append_right]
      have hstart : done.length + seg.length + 1 = (done ++ (seg ++ [0])).length := by
        simp
        omega
      have hshorter : rest.length < fuel := by
        simp at hfuel
        omega
      obtain ⟨h', ys, hloop, hst, hys⟩ := @ih (done ++ (seg ++ [0])) rest hshorter hrest.2.2 _ _ hs' hxs'
      have hcopy : done ++ (zeroed (seg ++ colon :: rest) ++ [0]) =
          done ++ (seg ++ [0]) ++ (zeroed rest ++ [0]) := by
        rw [zeroed_append hseg]
        simp
      have hdir : dirString (done ++ (zeroed (seg ++ colon :: rest) ++ [0])) (some done.length) = some seg := by
        rw [zeroed_append hseg, List.append_assoc, List.cons_append]
        exact dirString_eq hrest.1
      refine ⟨h', (malloc xs.length, some done.length) :: ys, ?_, by simpa using hst, ?_⟩
      · have hcount : (xs ++ [(malloc xs.length, some done.length)]).length = xs.length + 1 := List.length_append
        have happ : done ++ (seg ++ colon :: rest ++ [0]) = done ++ (seg ++ colon :: (rest ++ [0])) := by simp
        rw [hcopy, ← hloop, hcount, happ]
        simp only [splitLoop, hscan, if_pos hcolon, hset, hcall, hstart]
      · rw [List.map_cons, hdir, hcopy, hys, List.splitOn_append_cons_self_of_not_mem hseg, List.map_cons]
    · -- the last directory ends at the null character
      have hchars : ∀ x ∈ rest, x ≠ colon ∧ x ≠ 0 := by
        intro x hx
        exact ⟨fun he => hmem (he ▸ hx), fun he => hrest (he ▸ hx)⟩
      have hscan : scanDir (done ++ (rest ++ [0])) ((done ++ (rest ++ [0])).length + 1) done.length =
          some (done.length + rest.length) := scanDir_eq hchars (Or.inr rfl) (by simp; omega)
      have hend : (done ++ (rest ++ [0]))[done.length + rest.length]? ≠ some colon := by simp [colon]
      refine ⟨⟨list, nodes⟩, [(malloc xs.length, some done.length)], ?_, hs', ?_⟩
      · rw [zeroed_of_notMem hmem]
        simp only [splitLoop, hscan, if_neg hend, hcall]
      · rw [zeroed_of_notMem hmem, List.map_singleton, dirString_eq hrest, List.splitOn_eq_singleton hmem,
          List.map_singleton]

/-- `init_search_path` on a `PATH` that is not empty: the list has a node for each part, with the parts in order. -/
private theorem initSearchPath_eq {malloc : Nat → Nat} (hinj : Function.Injective malloc) (hne : ∀ i, malloc i ≠ 0)
    {path : List UInt8} (hpath : path ≠ []) (hzero : (0 : UInt8) ∉ path) (succ pred : Nat → Nat)
    (data : Nat → DirPtr) :
    ∃ copy h xs, initSearchPath (Handle.null succ pred data).nodes malloc (some path) = some (copy, h) ∧ Stands h xs ∧
      xs.map (fun x => dirString copy x.2) = (path.splitOn colon).map some := by
  have hlen : path.length < (path ++ [0]).length := by simp
  obtain ⟨h, xs, hloop, hs, hxs⟩ := @splitLoop_eq malloc hinj hne _ [] path hlen hzero _ [] (stands_null succ pred data)
    rfl
  refine ⟨_, h, xs, ?_, hs, hxs⟩
  rw [initSearchPath, if_neg hpath]
  exact hloop

/-- The strings of the nodes, read along `succ` from any of them. -/
private theorem readDirs_eq {copy : List UInt8} {h : Handle DirPtr} {xs : List (Nat × DirPtr)}
    {dirs : List (List UInt8)} (hs : Stands h xs) (hdirs : xs.map (fun x => dirString copy x.2) = dirs.map some)
    {k i : Nat} (hk : i + k ≤ xs.length) :
    readDirs copy h.nodes k (h.nodes.succ^[i] h.list) = some ((dirs.drop i).take k) := by
  have hlength : xs.length = dirs.length := by simpa using congrArg List.length hdirs
  induction k generalizing i with
  | zero => simp [readDirs]
  | succ k ih =>
    have hi : i < xs.length := by omega
    have hi' : i < dirs.length := by omega
    have hrest := ih (i := i + 1) (by omega)
    rw [Function.iterate_succ_apply', hs.iterate_eq hi] at hrest
    have hmem : h.nodes.allocated xs[i].1 = true := (hs.allocated _).2 (List.mem_map_of_mem (List.getElem_mem hi))
    have hdata : h.nodes.data xs[i].1 = xs[i].2 := hs.data _ (List.getElem_mem hi)
    have hdir : dirString copy xs[i].2 = some dirs[i] := by
      have hget := congrArg (fun l => l[i]?) hdirs
      simpa [hi, hi'] using hget
    rw [hs.iterate_eq hi, List.drop_eq_getElem_cons hi', List.take_succ_cons]
    simp [readDirs, Nodes.getData, Nodes.getSucc, hmem, hdata, hdir, hrest]

/-- `run_program` with the list in memory does what it does with the directories that `length` counts. -/
private theorem runProgramAt_eq {copy : List UInt8} {h : Handle DirPtr} {xs : List (Nat × DirPtr)}
    {dirs : List (List UInt8)} (hs : Stands h xs) (hdirs : xs.map (fun x => dirString copy x.2) = dirs.map some)
    {fuel : Nat} (hfuel : xs.length ≤ fuel) (home : Option (List UInt8)) (call : Call) (inputFd outputFd : Int)
    (oldDir : Option (List UInt8)) (oldDirTmp buf : List UInt8) :
    runProgramAt copy h fuel home call inputFd outputFd oldDir oldDirTmp buf =
      some (runProgram (dirs.take (dirs.length % 2 ^ 32)) home call inputFd outputFd oldDir oldDirTmp buf) := by
  have hlength : xs.length = dirs.length := by simpa using congrArg List.length hdirs
  unfold runProgramAt runProgram
  dsimp only
  by_cases hexit : call.argv.headD [] = exitName
  · rw [if_pos (Or.inl hexit), if_pos hexit, if_pos hexit]
  · by_cases hcd : call.argv.headD [] = cdName
    · rw [if_pos (Or.inr hcd), if_neg hexit, if_neg hexit, if_pos hcd, if_pos hcd]
    · have hcount : (UInt32.ofNat xs.length).toNat = dirs.length % 2 ^ 32 := by rw [UInt32.toNat_ofNat', hlength]
      have hle := Nat.mod_le dirs.length (2 ^ 32)
      have hread : readDirs copy h.nodes (dirs.length % 2 ^ 32) h.list = some (dirs.take (dirs.length % 2 ^ 32)) :=
        readDirs_eq hs hdirs (i := 0) (by omega)
      rw [if_neg (not_or.2 ⟨hexit, hcd⟩), if_neg hexit, if_neg hcd, hs.length hfuel]
      simp only [Option.bind_eq_bind, Option.bind_some, hcount]
      rw [searchLoop_eq copy h.nodes _ _ hread]
      rfl

/-! ### The program that is run -/

/-- `access` answers for the first of the directories that has the program. -/
private theorem searchPath_first {name : List UInt8} {pre post : List (List UInt8)} {dir buf : List UInt8}
    {next : List UInt8 → Run} {found : List UInt8 → Bool} (hpre : ∀ d ∈ pre, found (pathIn d name) = false)
    (hdir : found (pathIn dir name) = true) :
    (searchPath name (pre ++ dir :: post) buf next).execPath found = (next (pathIn dir name)).execPath found := by
  induction pre generalizing buf with
  | nil => simp [searchPath, Run.execPath, hdir]
  | cons d pre ih =>
    simp only [List.cons_append, searchPath, Run.execPath, hpre d List.mem_cons_self]
    exact ih fun d' hd' => hpre d' (List.mem_cons_of_mem d hd')

private theorem dup2Unless_execPath {fd fileno : Int} {next : Run} {found : List UInt8 → Bool} :
    (dup2Unless fd fileno next).execPath found = next.execPath found := by
  unfold dup2Unless
  split <;> rfl

/-- The program runs in the first of the directories that has it, when that is one of those that `length` counts. -/
private theorem runProgramAt_execPath {copy : List UInt8} {h : Handle DirPtr} {xs : List (Nat × DirPtr)}
    {dirs pre post : List (List UInt8)} {dir : List UInt8} (hs : Stands h xs)
    (hdirs : xs.map (fun x => dirString copy x.2) = dirs.map some) {fuel : Nat} (hfuel : xs.length ≤ fuel)
    {home : Option (List UInt8)} {call : Call} {inputFd outputFd : Int} {oldDir : Option (List UInt8)}
    {oldDirTmp buf : List UInt8} {found : List UInt8 → Bool} (hexit : call.argv.headD [] ≠ exitName)
    (hcd : call.argv.headD [] ≠ cdName) (hsplit : dirs = pre ++ dir :: post)
    (hcount : pre.length < dirs.length % 2 ^ 32) (hpre : ∀ d ∈ pre, found (pathIn d (call.argv.headD [])) = false)
    (hdir : found (pathIn dir (call.argv.headD [])) = true) :
    ∃ r, runProgramAt copy h fuel home call inputFd outputFd oldDir oldDirTmp buf = some r ∧
      r.execPath found = some (pathIn dir (call.argv.headD [])) := by
  refine ⟨_, runProgramAt_eq hs hdirs hfuel home call inputFd outputFd oldDir oldDirTmp buf, ?_⟩
  obtain ⟨k, hk⟩ : ∃ k, dirs.length % 2 ^ 32 = pre.length + (k + 1) := ⟨dirs.length % 2 ^ 32 - pre.length - 1, by omega⟩
  have htake : dirs.take (dirs.length % 2 ^ 32) = pre ++ dir :: post.take k := by
    rw [hk, hsplit, List.take_length_add_append, List.take_succ_cons]
  rw [htake]
  simp only [runProgram, if_neg hexit, if_neg hcd, Run.execPath]
  rw [searchPath_first hpre hdir, dup2Unless_execPath, dup2Unless_execPath]
  rfl

/-- On every `PATH` that is not empty, `path_dir_list` holds its parts in order, round and back at the first one, and
a program that is neither `exit` nor `cd` is run in the first of the directories that has it.  `length` counts in an
`unsigned`, so only as many directories are looked at as there are, modulo `2 ^ 32`. -/
theorem lookup_order {malloc : Nat → Nat} (hinj : Function.Injective malloc) (hne : ∀ i, malloc i ≠ 0)
    {path : List UInt8} (hpath : path ≠ []) (hzero : (0 : UInt8) ∉ path) (succ pred : Nat → Nat)
    (data : Nat → DirPtr) :
    ∃ copy h, initSearchPath (Handle.null succ pred data).nodes malloc (some path) = some (copy, h) ∧
      readDirs copy h.nodes (path.splitOn colon).length h.list = some (path.splitOn colon) ∧
      (∀ i, 0 < i → i < (path.splitOn colon).length → h.nodes.succ^[i] h.list ≠ h.list) ∧
      h.nodes.succ^[(path.splitOn colon).length] h.list = h.list ∧
      [colon].intercalate (path.splitOn colon) = path ∧
      ∀ (home : Option (List UInt8)) (call : Call) (inputFd outputFd : Int) (oldDir : Option (List UInt8))
        (oldDirTmp buf : List UInt8) (found : List UInt8 → Bool) (pre : List (List UInt8)) (dir : List UInt8)
        (post : List (List UInt8)) (fuel : Nat),
        call.argv.headD [] ≠ exitName → call.argv.headD [] ≠ cdName → path.splitOn colon = pre ++ dir :: post →
        pre.length < (path.splitOn colon).length % 2 ^ 32 →
        (∀ d ∈ pre, found (d ++ slash :: call.argv.headD []) = false) →
        found (dir ++ slash :: call.argv.headD []) = true →
        (∀ d ∈ pre ++ [dir], (d ++ slash :: call.argv.headD []).length < 4096) →
        (path.splitOn colon).length ≤ fuel →
        ∃ r, runProgramAt copy h fuel home call inputFd outputFd oldDir oldDirTmp buf = some r ∧
          r.execPath found = some (dir ++ slash :: call.argv.headD []) := by
  obtain ⟨copy, h, xs, hinit, hs, hdirs⟩ := initSearchPath_eq hinj hne hpath hzero succ pred data
  have hlength : xs.length = (path.splitOn colon).length := by simpa using congrArg List.length hdirs
  refine ⟨copy, h, hinit, ?_, ?_, ?_, List.intercalate_splitOn colon, ?_⟩
  · have hread := readDirs_eq hs hdirs (k := (path.splitOn colon).length) (i := 0) (by omega)
    rwa [List.drop_zero, List.take_length] at hread
  · intro i hpos hi
    exact hs.not_back hpos (by omega)
  · rw [← hlength]
    exact hs.back
  · intro home call inputFd outputFd oldDir oldDirTmp buf found pre dir post fuel hexit hcd hsplit hcount hpre hdir
      hshort hfuel
    have hpathIn : ∀ d ∈ pre ++ [dir], pathIn d (call.argv.headD []) = d ++ slash :: call.argv.headD [] := by
      intro d hd
      exact List.take_of_length_le (by have := hshort d hd; omega)
    have hlast := hpathIn dir (by simp)
    rw [← hlast] at hdir ⊢
    apply runProgramAt_execPath hs hdirs (by omega) hexit hcd hsplit hcount ?_ hdir
    intro d hd
    rw [hpathIn d (by simp [hd])]
    exact hpre d hd

/-- An allocator: the nodes are at 1, 2, 3 and so on. -/
private theorem succ_injective : Function.Injective fun i : Nat => i + 1 := fun _ _ => Nat.succ.inj

private theorem succ_ne_zero (i : Nat) : i + 1 ≠ 0 := Nat.succ_ne_zero i

/-- The command `ls`, in the foreground. -/
def lsCall : Call := ⟨[[108, 115]], true, false⟩

/-- `/b:` is the directory `/b` and the empty one, and the program is in the second. -/
theorem lookup_order_second : ∃ copy h, initSearchPath (Handle.null id id fun _ => none).nodes (· + 1)
      (some [47, 98, 58]) = some (copy, h) ∧
    ∃ r, runProgramAt copy h 2 none lsCall 0 1 none [] [] = some r ∧
      r.execPath (fun path => path = [47, 108, 115]) = some [47, 108, 115] := by
  have hpath : ([47, 98, 58] : List UInt8) ≠ [] := by decide
  obtain ⟨copy, h, hinit, -, -, -, -, hlookup⟩ := lookup_order succ_injective succ_ne_zero hpath (by decide) id id
    fun _ => none
  refine ⟨copy, h, hinit, ?_⟩
  exact hlookup none lsCall 0 1 none [] [] (fun path => path = [47, 108, 115]) [[47, 98]] [] [] 2 (by decide)
    (by decide) (by decide) (by decide) (by decide) (by decide) (by decide) (by decide)

/-! ### More directories than `length` can count -/

private theorem splitOn_replicate (n : Nat) : (List.replicate n colon).splitOn colon = List.replicate (n + 1) [] := by
  induction n with
  | zero => rfl
  | succ n ih =>
    have hsplit := List.splitOn_append_cons_self_of_not_mem (List.not_mem_nil (a := colon)) (List.replicate n colon)
    rw [List.nil_append] at hsplit
    rw [List.replicate_succ, hsplit, ih]
    rfl

/-- With `n` directories, all of them empty, of which `length` counts none, the child looks at no directory. -/
private theorem runProgramAt_none {n : Nat} (hn : n ≠ 0) (hmod : (n + 1) % 2 ^ 32 = 0) :
    ∃ copy h, initSearchPath (Handle.null id id fun _ => none).nodes (· + 1) (some (List.replicate n colon)) =
        some (copy, h) ∧
      ∀ fuel, n + 1 ≤ fuel → ∃ r, runProgramAt copy h fuel none lsCall 0 1 none [] [] = some r ∧
        r.execPath (fun _ => true) = some [] := by
  have hpath : List.replicate n colon ≠ [] := by
    rw [Ne, List.replicate_eq_nil_iff]
    exact hn
  have hzero : (0 : UInt8) ∉ List.replicate n colon := by simp [colon]
  obtain ⟨copy, h, xs, hinit, hs, hdirs⟩ := initSearchPath_eq succ_injective succ_ne_zero hpath hzero id id
    fun _ => none
  rw [splitOn_replicate] at hdirs
  have hlength : xs.length = n + 1 := by simpa using congrArg List.length hdirs
  refine ⟨copy, h, hinit, fun fuel hfuel => ⟨_, runProgramAt_eq hs hdirs (by omega) none lsCall 0 1 none [] [], ?_⟩⟩
  rw [List.length_replicate, hmod]
  rfl

/-- `PATH` is `2 ^ 32 - 1` colons, and every file exists: the child passes what is in `buf` to `execv`, and not `/ls`
from the first directory. -/
theorem not_lookup_order : ∃ copy h, initSearchPath (Handle.null id id fun _ => none).nodes (· + 1)
      (some (List.replicate (2 ^ 32 - 1) colon)) = some (copy, h) ∧
    (List.replicate (2 ^ 32 - 1) colon).splitOn colon = List.replicate (2 ^ 32 - 1 + 1) [] ∧
    ∀ fuel, 2 ^ 32 - 1 + 1 ≤ fuel → ∃ r, runProgramAt copy h fuel none lsCall 0 1 none [] [] = some r ∧
      r.execPath (fun _ => true) ≠ some ([] ++ slash :: lsCall.argv.headD []) := by
  obtain ⟨copy, h, hinit, hrun⟩ := runProgramAt_none (n := 2 ^ 32 - 1) (by decide) (by decide)
  refine ⟨copy, h, hinit, splitOn_replicate _, fun fuel hfuel => ?_⟩
  obtain ⟨r, hr, hexec⟩ := hrun fuel hfuel
  exact ⟨r, hr, by rw [hexec]; simp⟩

end Edaf35.Shell
