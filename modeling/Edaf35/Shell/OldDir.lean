import Mathlib.Data.Set.CoeSort
import Edaf35.Shell.RunProgram

/-!
# `cd` and `old_dir`

`cd -` goes back to the directory before the last successful `cd` as long as no `cd` without an argument has changed
the directory since, which leaves `old_dir` as it was, and no `cd` with an argument has failed, which does not
(`law_iff_meets`).  Directories are known by the names that `getcwd` answers.
-/

namespace Edaf35.Shell

/-- What the shell relies on: the names that `getcwd` can answer, and the directory that a path leads to from another
one.  The name of a directory leads there from everywhere, and there is more than one directory. -/
structure FileSystem where
  names : Set (List UInt8)
  resolve : (cwd path : List UInt8) → List UInt8
  resolve_mem : ∀ cwd path, cwd ∈ names → resolve cwd path ∈ names
  resolve_name : ∀ cwd d, d ∈ names → resolve cwd d = d
  exists_other : ∀ d, ∃ d' ∈ names, d' ≠ d

/-! ### One `cd` -/

inductive Form
  | home
  | path (dir : List UInt8) (h : dir.head? ≠ some dash)
  | back

/-- The arguments, with the name of the command before them. -/
def Form.argv : Form → List (List UInt8)
  | .home => [cdName]
  | .path dir _ => [cdName, dir]
  | .back => [cdName, [dash]]

/-- A `cd`: its form, how it is run, whether `chdir` and `getcwd` succeed, and the contents of the uninitialised
arrays. -/
structure Cd where
  form : Form
  foreground : Bool
  doingPipe : Bool
  inputFd : Int
  outputFd : Int
  chdirOk : Bool
  getcwdOk : Bool
  oldDirTmp : List UInt8
  buf : List UInt8

/-- The working directory and `old_dir`. -/
structure World where
  cwd : List UInt8
  oldDir : Option (List UInt8)
  deriving DecidableEq, Repr

/-- `chdir`, which fails for a null pointer. -/
def World.chdir (fs : FileSystem) (w : World) (ok : Bool) : Option (List UInt8) → World
  | some dir => if ok then { w with cwd := fs.resolve w.cwd dir } else w
  | none => w

/-- What the calls of `run_program` do to the working directory and `old_dir`, if it makes no others than these. -/
def Run.perform (fs : FileSystem) (cd : Cd) : Run → World → Option World
  | .getcwd next, w => (next (if cd.getcwdOk then some w.cwd else none)).perform fs cd w
  | .chdir dir next, w => next.perform fs cd (w.chdir fs cd.chdirOk dir)
  | .ret oldDir, w => some { w with oldDir }
  | _, _ => none

variable (fs : FileSystem) (pathDirList : List (List UInt8)) (home : Option (List UInt8))

def World.step (w : World) (cd : Cd) : Option World :=
  (runProgram pathDirList home ⟨cd.form.argv, cd.foreground, cd.doingPipe⟩ cd.inputFd cd.outputFd w.oldDir cd.oldDirTmp
    cd.buf).perform fs cd w

/-- The directory is changed. -/
def Cd.succeeds (cd : Cd) : Bool :=
  match cd.form with
  | .home => cd.chdirOk && home.isSome
  | _ => cd.chdirOk

/-! ### A sequence of them -/

/-- The shell, and the directory that was current just before the last successful `cd`. -/
structure History where
  world : World
  previous : Option (List UInt8)

def History.next (h : History) (cd : Cd) : Option History :=
  (h.world.step fs pathDirList home cd).map fun w =>
    ⟨w, if cd.succeeds home then some h.world.cwd else h.previous⟩

/-- A successful `cd -` would lead to the directory before the last successful `cd`. -/
def History.GoesBack (h : History) : Prop :=
  ∀ d, h.previous = some d → ∀ cd : Cd, cd.form = .back → cd.succeeds home = true →
    ∃ h', h.next fs pathDirList home cd = some h' ∧ h'.world.cwd = d

/-- After each `cd` of the list `cd -` goes back, and each one that fails changes nothing. -/
def History.Law (h : History) : List Cd → Prop
  | [] => h.GoesBack fs pathDirList home
  | cd :: cds =>
    h.GoesBack fs pathDirList home ∧ ∃ h', h.next fs pathDirList home cd = some h' ∧
      (cd.succeeds home = false → h'.world = h.world) ∧ h'.Law cds

/-- A `cd` without an argument fails unless `old_dir` is the working directory already.  One with an argument succeeds
and finds out where it was, or fails where `old_dir` is already what `getcwd` answers. -/
def Cd.Ok (cd : Cd) (w : World) : Prop :=
  match cd.form with
  | .home => cd.succeeds home = true → w.oldDir = some w.cwd
  | _ => if cd.chdirOk then cd.getcwdOk = true else w.oldDir = if cd.getcwdOk then some w.cwd else none

/-- Each `cd` of the list meets the condition where it is run. -/
def History.Meets (h : History) : List Cd → Prop
  | [] => True
  | cd :: cds => cd.Ok home h.world ∧ ∀ h', h.next fs pathDirList home cd = some h' → h'.Meets cds

/-! ### What one `cd` does -/

variable {fs pathDirList home} {h h' : History} {cd : Cd} {w : World}

private theorem cdName_ne_exitName : cdName ≠ exitName := by decide

private theorem step_home (w : World) (hform : cd.form = .home) :
    w.step fs pathDirList home cd = some (w.chdir fs cd.chdirOk home) := by
  unfold World.step runProgram
  rw [hform, Form.argv]
  simp only [List.headD_cons, List.tail_cons, if_neg cdName_ne_exitName, if_true, Run.perform]
  unfold World.chdir
  cases home with
  | none => rfl
  | some dir => cases cd.chdirOk <;> rfl

/-- Without an argument, `old_dir` stays what it is, and the directory unless the call succeeds. -/
private theorem chdir_home (w : World) (hform : cd.form = .home) :
    (w.chdir fs cd.chdirOk home).oldDir = w.oldDir ∧
      (cd.succeeds home = false → w.chdir fs cd.chdirOk home = w) := by
  unfold Cd.succeeds World.chdir
  rw [hform]
  cases home with
  | none => exact ⟨rfl, fun _ => rfl⟩
  | some dir =>
    cases cd.chdirOk with
    | false => exact ⟨rfl, fun _ => rfl⟩
    | true => exact ⟨rfl, fun h => (by cases h)⟩

/-- With an argument. -/
private theorem step_arg (w : World) {dir : List UInt8} (hargv : cd.form.argv = [cdName, dir]) :
    w.step fs pathDirList home cd = some
      ⟨if cd.chdirOk then fs.resolve w.cwd (if dir.head? = some dash then w.oldDir.getD cd.oldDirTmp else dir)
        else w.cwd, if cd.getcwdOk then some w.cwd else none⟩ := by
  unfold World.step runProgram
  rw [hargv]
  simp only [List.headD_cons, List.tail_cons, if_neg cdName_ne_exitName, if_true, Run.perform]
  unfold World.chdir
  cases cd.chdirOk <;> rfl

private theorem Form.argv_eq (form : Form) : form = .home ∨ ∃ dir, form.argv = [cdName, dir] := by
  cases form with
  | home => exact Or.inl rfl
  | path dir hdir => exact Or.inr ⟨dir, rfl⟩
  | back => exact Or.inr ⟨[dash], rfl⟩

private theorem succeeds_arg {dir : List UInt8} (hargv : cd.form.argv = [cdName, dir]) :
    cd.succeeds home = cd.chdirOk := by
  unfold Cd.succeeds
  cases hform : cd.form with
  | home =>
    rw [hform] at hargv
    cases hargv
  | path | back => rfl

private theorem ok_home (hform : cd.form = .home) :
    cd.Ok home w ↔ (cd.succeeds home = true → w.oldDir = some w.cwd) := by
  unfold Cd.Ok
  rw [hform]

private theorem ok_arg {dir : List UInt8} (hargv : cd.form.argv = [cdName, dir]) : cd.Ok home w ↔
    if cd.chdirOk then cd.getcwdOk = true else w.oldDir = if cd.getcwdOk then some w.cwd else none := by
  unfold Cd.Ok
  cases hform : cd.form with
  | home =>
    rw [hform] at hargv
    cases hargv
  | path | back => exact Iff.rfl

/-- The names of the working directory and in `old_dir` are among those that `getcwd` can answer. -/
structure World.Named (fs : FileSystem) (w : World) : Prop where
  cwd : w.cwd ∈ fs.names
  oldDir : ∀ d, w.oldDir = some d → d ∈ fs.names

variable (pathDirList home) in
/-- Every `cd` returns. -/
private theorem World.Named.step (hw : w.Named fs) (cd : Cd) :
    ∃ w', w.step fs pathDirList home cd = some w' ∧ w'.Named fs := by
  rcases cd.form.argv_eq with hform | ⟨dir, hargv⟩
  · refine ⟨_, step_home w hform, ?_⟩
    unfold World.chdir
    cases home with
    | none => exact hw
    | some dir =>
      dsimp only
      split
      · exact ⟨fs.resolve_mem _ _ hw.cwd, hw.oldDir⟩
      · exact hw
  · refine ⟨_, step_arg w hargv, ?_, ?_⟩
    · dsimp only
      split
      · exact fs.resolve_mem _ _ hw.cwd
      · exact hw.cwd
    · intro d hd
      dsimp only at hd
      split at hd
      · cases hd
        exact hw.cwd
      · cases hd

/-- Where a successful `cd -` leads. -/
private theorem next_back (h : History) (cd : Cd) (hback : cd.form = .back) (hok : cd.succeeds home = true) :
    ∃ h', h.next fs pathDirList home cd = some h' ∧
      h'.world.cwd = fs.resolve h.world.cwd (h.world.oldDir.getD cd.oldDirTmp) := by
  have hargv : cd.form.argv = [cdName, [dash]] := by rw [hback]; rfl
  have hchdir : cd.chdirOk = true := (succeeds_arg hargv).symm.trans hok
  unfold History.next
  rw [step_arg _ hargv, hchdir]
  exact ⟨_, rfl, rfl⟩

/-- A successful `cd -`, with these contents of the array on the stack. -/
def cdBack (oldDirTmp : List UInt8) : Cd := ⟨.back, true, false, stdinFileno, stdoutFileno, true, true, oldDirTmp, []⟩

/-- `cd -` goes back exactly when `old_dir` is the directory before the last successful `cd`: any other name leads
elsewhere, and as long as `old_dir` is not set the array on the stack can hold any path. -/
private theorem goesBack_iff (hw : h.world.Named fs) :
    h.GoesBack fs pathDirList home ↔ ∀ d, h.previous = some d → h.world.oldDir = some d := by
  constructor
  · intro hback d hd
    cases hold : h.world.oldDir with
    | some p =>
      obtain ⟨h₁, hnext, hcwd⟩ := hback d hd (cdBack []) rfl rfl
      obtain ⟨h₂, hnext₂, hcwd₂⟩ := next_back h (cdBack []) rfl rfl
      rw [hnext] at hnext₂
      cases hnext₂
      rw [hold, Option.getD_some, fs.resolve_name _ _ (hw.oldDir p hold), hcwd] at hcwd₂
      rw [hcwd₂]
    | none =>
      obtain ⟨d', hd', hne⟩ := fs.exists_other d
      obtain ⟨h₁, hnext, hcwd⟩ := hback d hd (cdBack d') rfl rfl
      obtain ⟨h₂, hnext₂, hcwd₂⟩ := next_back h (cdBack d') rfl rfl
      rw [hnext] at hnext₂
      cases hnext₂
      have htmp : (cdBack d').oldDirTmp = d' := rfl
      rw [hold, Option.getD_none, htmp, fs.resolve_name _ _ hd', hcwd] at hcwd₂
      exact absurd hcwd₂.symm hne
  · intro hold d hd cd hform hok
    obtain ⟨h', hnext, hcwd⟩ := next_back h cd hform hok
    refine ⟨h', hnext, ?_⟩
    rw [hcwd, hold d hd, Option.getD_some]
    exact fs.resolve_name _ _ (hw.oldDir d (hold d hd))

/-- From a state where `cd -` goes back, a `cd` keeps the law exactly when it meets the condition. -/
private theorem next_lawful_iff (hw : h.world.Named fs) (hback : ∀ d, h.previous = some d → h.world.oldDir = some d)
    (cd : Cd) : ∃ h', h.next fs pathDirList home cd = some h' ∧ h'.world.Named fs ∧
      (((cd.succeeds home = false → h'.world = h.world) ∧ ∀ d, h'.previous = some d → h'.world.oldDir = some d) ↔
        cd.Ok home h.world) := by
  obtain ⟨w', hstep, hnamed⟩ := hw.step pathDirList home cd
  refine ⟨⟨w', if cd.succeeds home then some h.world.cwd else h.previous⟩, ?_, hnamed, ?_⟩
  · unfold History.next
    rw [hstep]
    rfl
  · rcases cd.form.argv_eq with hform | ⟨dir, hargv⟩
    · rw [step_home _ hform] at hstep
      cases hstep
      have hold : (h.world.chdir fs cd.chdirOk home).oldDir = h.world.oldDir := (chdir_home h.world hform).1
      have hsame : cd.succeeds home = false → h.world.chdir fs cd.chdirOk home = h.world := (chdir_home h.world hform).2
      rw [ok_home hform]
      cases hsucc : cd.succeeds home with
      | false =>
        exact ⟨fun _ hs => absurd hs (by simp), fun _ => ⟨fun _ => hsame hsucc, fun d hd => hold.trans (hback d hd)⟩⟩
      | true =>
        rw [hold]
        exact ⟨fun hlaw _ => hlaw.2 _ rfl, fun hok => ⟨fun hs => absurd hs (by simp), fun d hd => hd ▸ hok rfl⟩⟩
    · rw [step_arg _ hargv] at hstep
      cases hstep
      rw [succeeds_arg hargv, ok_arg hargv]
      cases hchdir : cd.chdirOk with
      | false =>
        -- the directory stays, and `old_dir` is what `getcwd` answers
        simp only [Bool.false_eq_true, if_false]
        constructor
        · intro hlaw
          exact (congrArg World.oldDir (hlaw.1 trivial)).symm
        · intro hok
          refine ⟨fun _ => ?_, fun d hd => ?_⟩
          · rw [← hok]
          · rw [← hok]
            exact hback d hd
      | true =>
        simp only [if_true]
        cases hgetcwd : cd.getcwdOk with
        | false => exact ⟨fun hlaw => (by cases hlaw.2 _ rfl), fun hok => (by cases hok)⟩
        | true => exact ⟨fun _ => rfl, fun _ => ⟨fun hs => (by cases hs), fun d hd => hd⟩⟩

private theorem History.Law.goesBack {cds : List Cd} (hlaw : h.Law fs pathDirList home cds) :
    h.GoesBack fs pathDirList home := by
  cases cds with
  | nil => exact hlaw
  | cons cd cds => exact hlaw.1

/-- A list of `cd` keeps the law exactly when each of them meets the condition where it is run. -/
private theorem law_iff_meets_of (hw : h.world.Named fs) (hback : ∀ d, h.previous = some d → h.world.oldDir = some d)
    (cds : List Cd) : h.Law fs pathDirList home cds ↔ h.Meets fs pathDirList home cds := by
  induction cds generalizing h with
  | nil => exact ⟨fun _ => trivial, fun _ => (goesBack_iff hw).2 hback⟩
  | cons cd cds ih =>
    obtain ⟨h', hnext, hw', hiff⟩ := next_lawful_iff hw hback cd
    constructor
    · intro hlaw
      obtain ⟨-, h₁, hnext₁, hsame, hlaw₁⟩ := hlaw
      obtain rfl : h' = h₁ := Option.some.inj (hnext.symm.trans hnext₁)
      have hback' := (goesBack_iff hw').1 hlaw₁.goesBack
      refine ⟨hiff.1 ⟨hsame, hback'⟩, fun h₂ hnext₂ => ?_⟩
      obtain rfl : h' = h₂ := Option.some.inj (hnext.symm.trans hnext₂)
      exact (ih hw' hback').1 hlaw₁
    · rintro ⟨hok, hmeets⟩
      obtain ⟨hsame, hback'⟩ := hiff.2 hok
      exact ⟨(goesBack_iff hw).2 hback, h', hnext, hsame, (ih hw' hback').2 (hmeets h' hnext)⟩

/-- From the start of the shell in the directory `cwd`: `cd -` goes back after each `cd` of a list, and each one that
fails changes nothing, exactly when each of them meets the condition where it is run. -/
theorem law_iff_meets (cwd : fs.names) (cds : List Cd) :
    History.Law fs pathDirList home ⟨⟨cwd, none⟩, none⟩ cds ↔
      History.Meets fs pathDirList home ⟨⟨cwd, none⟩, none⟩ cds :=
  law_iff_meets_of ⟨cwd.2, fun d hd => (by cases hd)⟩ (fun d hd => (by cases hd)) cds

/-! ### Paths from `/` -/

/-- The names are the paths from `/`, and a path that does not start there is one below the working directory. -/
def absolutePaths : FileSystem where
  names := { d | d.head? = some slash }
  resolve cwd path :=
    if path.head? = some slash then path else if cwd = [slash] then slash :: path else cwd ++ slash :: path
  resolve_mem cwd path hcwd := by
    split
    · assumption
    · split
      · rfl
      · cases cwd with
        | nil => cases hcwd
        | cons ch cwd => exact hcwd
  resolve_name cwd d hd := if_pos hd
  exists_other d := by
    by_cases hd : d = [slash]
    · exact ⟨[slash, 97], rfl, by rw [hd]; decide⟩
    · exact ⟨[slash], rfl, fun h => hd h.symm⟩

/-- `cd a`, `cd b` and `cd -`, all successful. -/
def cdBelow : List Cd :=
  [⟨.path [97] (by decide), true, false, stdinFileno, stdoutFileno, true, true, [], []⟩,
    ⟨.path [98] (by decide), true, false, stdinFileno, stdoutFileno, true, true, [], []⟩, cdBack []]

/-- In `/` with `HOME` `/h`: `cd -` goes back at any time, and leads from `/a/b` to `/a`. -/
theorem law_iff_meets_below :
    History.Law absolutePaths [] (some [slash, 104]) ⟨⟨[slash], none⟩, none⟩ cdBelow ∧
      cdBelow.foldlM (History.next absolutePaths [] (some [slash, 104])) ⟨⟨[slash], none⟩, none⟩ =
        some ⟨⟨[slash, 97], some [slash, 97, slash, 98]⟩, some [slash, 97, slash, 98]⟩ := by
  have hroot : [slash] ∈ absolutePaths.names := rfl
  refine ⟨(law_iff_meets ⟨[slash], hroot⟩ cdBelow).2 ⟨rfl, fun h₁ hnext₁ => ?_⟩, rfl⟩
  cases hnext₁
  refine ⟨rfl, fun h₂ hnext₂ => ?_⟩
  cases hnext₂
  exact ⟨rfl, fun h₃ _ => trivial⟩

/-! ### A `cd` without an argument -/

/-- `cd a` and `cd`, both successful. -/
def cdTwice : List Cd :=
  [⟨.path [97] (by decide), true, false, stdinFileno, stdoutFileno, true, true, [], []⟩,
    ⟨.home, true, false, stdinFileno, stdoutFileno, true, true, [], []⟩]

/-- In `/` with `HOME` `/h`: after `cd a` and `cd`, `cd -` leads to `/` and not to `/a`. -/
theorem not_law : ¬History.Law absolutePaths [] (some [slash, 104]) ⟨⟨[slash], none⟩, none⟩ cdTwice := by
  have hnamed : World.Named absolutePaths ⟨[slash], none⟩ := ⟨rfl, fun d hd => (by cases hd)⟩
  intro hlaw
  have hmeets := (law_iff_meets_of hnamed (fun d hd => (by cases hd)) cdTwice).1 hlaw
  have hhome := (hmeets.2 _ rfl).1 rfl
  exact absurd hhome (by decide)

end Edaf35.Shell
