import Edaf35.Lib.DescriptorTable
import Edaf35.Shell.Processes

/-!
# The descriptors of a session

Every process of a session has a table of descriptors, which a `fork` copies and an `execv` keeps.  `parse_line` goes
through the stages of a command with `input_fd` and `output_fd`, and a child of `run_program` puts the two in place
of its standard input and output before the `execv`.
-/

namespace Edaf35.Shell

/-- What a descriptor leads to: what the shell was started with, a file, or an end of a pipe. -/
inductive End
  | inherited (fd : Int)
  | file (path : List UInt8) (mode : OpenMode)
  | reading (pipe : Nat)
  | writing (pipe : Nat)
  deriving DecidableEq, Repr

abbrev Files := DescriptorTable End

/-- What an `execv` hands on: the arguments of the program, and the descriptors. -/
structure Image where
  argv : List (List UInt8)
  files : Files

structure Task where
  process : Process
  image : Image

abbrev Task.files (task : Task) : Files := task.image.files

/-- The descriptors are closed when a process ends. -/
def Task.of (process : Process) (image : Image) : Task where
  process := process
  image := match process.control with
    | .ended => ⟨image.argv, fun _ => none⟩
    | _ => image

/-- The processes under their numbers, and the number of pipes made so far. -/
structure Kernel where
  tasks : List Task
  pipes : Nat

def Kernel.system (k : Kernel) : System := k.tasks.map Task.process

/-- What a call does with the image of its process; `none` where it cannot return the descriptors it does. -/
def effect (pipes : Nat) (image : Image) : Control → Outcome → Option (Image × Nat)
  | .parsing (.openFile path mode _), .opened (some fd) =>
    if image.files fd = none then some (⟨image.argv, image.files.assign fd (.file path mode)⟩, pipes) else none
  | .parsing (.pipe _), .piped (some (consumer, producer)) =>
    if image.files consumer = none ∧ image.files producer = none ∧ consumer ≠ producer then
      some (⟨image.argv, (image.files.assign consumer (.reading pipes)).assign producer (.writing pipes)⟩, pipes + 1)
    else none
  | .parsing (.close fd _), .done => some (⟨image.argv, image.files.close fd⟩, pipes)
  | .running (.dup2 oldFd newFd _) _, .done => some (⟨image.argv, image.files.dup2 oldFd newFd⟩, pipes)
  | .running (.execv _ argv _) _, .execed true => some (⟨argv, image.files⟩, pipes)
  | _, _ => some (image, pipes)

variable (pathDirList : List (List UInt8)) (home : Option (List UInt8))

def Kernel.step (k : Kernel) (act : Act) : Option (Unit × Kernel) :=
  match k.tasks[act.pid]? with
  | none => none
  | some task =>
    match task.process.step pathDirList home k.tasks.length act.outcome with
    | none => none
    | some (self, child) =>
      match effect k.pipes task.image task.process.control act.outcome with
      | none => none
      | some (image, pipes) =>
        some ((), ⟨k.tasks.set act.pid (.of self image) ++ (child.map (Task.of · image)).toList, pipes⟩)

/-- The shell as it is started. -/
def boot (image : Image) : Kernel := ⟨[⟨⟨.reading, none⟩, image⟩], 0⟩

/-- What the shell was started with, `own`, is still its standard input and output; a descriptor is not negative. -/
structure Owns (own : Int × Int) (files : Files) : Prop where
  nonneg : ∀ fd e, files fd = some e → 0 ≤ fd
  stdin : files stdinFileno = some (.inherited own.1)
  stdout : files stdoutFileno = some (.inherited own.2)

section Owns

variable {own : Int × Int} {files : Files}

theorem Owns.assign {fd : Nat} {e : End} (h : Owns own files) (hfree : files fd = none) :
    Owns own (files.assign fd e) := by
  have hne : ∀ {fd' : Int} {e' : End}, files fd' = some e' → fd' ≠ fd := by
    rintro fd' e' hopen rfl
    rw [hfree] at hopen
    cases hopen
  refine ⟨fun fd' e' he => ?_, ?_, ?_⟩
  · rcases DescriptorTable.assign_eq_some he with ⟨rfl, -⟩ | hsame
    · exact Int.natCast_nonneg fd
    · exact h.nonneg fd' e' hsame
  · rw [DescriptorTable.assign_ne (hne h.stdin), h.stdin]
  · rw [DescriptorTable.assign_ne (hne h.stdout), h.stdout]

theorem Owns.close {fd : Int} (h : Owns own files) (hfd : ∀ n, files fd ≠ some (.inherited n)) :
    Owns own (files.close fd) := by
  have hne : ∀ {fd' n}, files fd' = some (.inherited n) → fd' ≠ fd := by
    rintro fd' n hopen rfl
    exact hfd n hopen
  refine ⟨fun fd' e he => h.nonneg fd' e (DescriptorTable.close_eq_some he).2, ?_, ?_⟩
  · rw [DescriptorTable.close_ne (hne h.stdin), h.stdin]
  · rw [DescriptorTable.close_ne (hne h.stdout), h.stdout]

/-- The number -1 after an `open` that fails leads nowhere. -/
theorem Owns.closed (h : Owns own files) : files (-1) = none := by
  by_contra hopen
  obtain ⟨e, he⟩ := Option.ne_none_iff_exists'.1 hopen
  exact absurd (h.nonneg _ _ he) (by decide)

end Owns

def Kernel.Holds (k : Kernel) (pid : Nat) (e : End) : Prop :=
  ∃ task, k.tasks[pid]? = some task ∧ task.files.Holds e

/-! ### What `parse_line` does next -/

/-- The globals `input_fd` and `output_fd`: between two commands, after the `pipe` of a command, and after its
`run_program`. -/
inductive Stage
  | command (inputFd outputFd : Int)
  | piping (inputFd consumer producer : Int)
  | closing (consumer producer : Int)

/-- The descriptors of the next call of `run_program`, and what follows it. -/
def Stage.call : Stage → Option (Int × Int × Stage)
  | .command inputFd outputFd => some (inputFd, outputFd, .command stdinFileno stdoutFileno)
  | .piping inputFd consumer producer => some (inputFd, producer, .closing consumer producer)
  | .closing _ _ => none

/-- The globals after an `open`. -/
def Stage.opened : Stage → OpenMode → Option Nat → Stage
  | .command _ outputFd, .rdonly, fd => .command (fd.elim (-1) (↑)) outputFd
  | .command inputFd _, .creatWronly _, fd => .command inputFd (fd.elim (-1) (↑))
  | stage, _, _ => stage

/-- The calls to come are those of `parse_line` in this stage, as long as no `pipe` fails. -/
def Parse.Follows : Stage → Parse → Prop
  | stage, .openFile _ mode next =>
    (∃ inputFd outputFd, stage = .command inputFd outputFd) ∧ ∀ fd, (next fd).Follows (stage.opened mode fd)
  | stage, .pipe next => ∃ inputFd outputFd, stage = .command inputFd outputFd ∧
    ∀ consumer producer : Nat, (next (some (consumer, producer))).Follows (.piping inputFd consumer producer)
  | stage, .runProgram _ inputFd outputFd next =>
    ∃ stage', stage.call = some (inputFd, outputFd, stage') ∧ next.Follows stage'
  | stage, .close fd next =>
    ∃ consumer, stage = .closing consumer fd ∧ next.Follows (.command consumer stdoutFileno)
  | stage, .error _ _ next => next.Follows stage
  | _, .ret => True
  | _, .fault => True

/-- The end of a command that is not before a `|`. -/
private theorem endCommand_follows {type : TokenType} {argv : List (List UInt8)} {foreground : Bool}
    {inputFd outputFd : Int} {pipeFd : Int × Int} {next : Int → Parse}
    (h : ∀ fd, (next fd).Follows (.command fd stdoutFileno)) :
    (endCommand type ⟨argv, foreground, false⟩ inputFd outputFd pipeFd next).Follows
      (.command inputFd outputFd) := by
  unfold endCommand
  split
  · trivial
  · refine ⟨_, rfl, ?_⟩
    dsimp only
    rw [if_neg Bool.false_ne_true]
    split
    · trivial
    · exact h _

/-- The end of a command before a `|`, which gives the next one the reading end. -/
private theorem endCommand_pipe_follows {argv : List (List UInt8)} {foreground : Bool} {inputFd : Int}
    {consumer producer : Int} {next : Int → Parse} (h : ∀ fd, (next fd).Follows (.command fd stdoutFileno)) :
    (endCommand .pipe ⟨argv, foreground, true⟩ inputFd producer (consumer, producer) next).Follows
      (.piping inputFd consumer producer) := by
  unfold endCommand
  split
  · trivial
  · exact ⟨_, rfl, _, rfl, h consumer⟩

private theorem redirect_follows {file : Token} {mode : OpenMode} {fmt : String} {inputFd outputFd : Int}
    {next : Int → Parse}
    (h : ∀ fd : Option Nat, (next (fd.elim (-1) (↑))).Follows ((Stage.command inputFd outputFd).opened mode fd)) :
    (redirect file mode fmt next).Follows (.command inputFd outputFd) := by
  unfold redirect
  split
  · trivial
  · refine ⟨⟨_, _, rfl⟩, fun fd => ?_⟩
    cases fd with
    | none => exact h none
    | some fd => exact h (some fd)

theorem parseLoop_follows (tokens : List Token) (argv : List (List UInt8)) (inputFd outputFd : Int)
    (pipeFd : Int × Int) :
    (parseLoop tokens argv inputFd outputFd pipeFd).Follows (.command inputFd outputFd) := by
  fun_induction parseLoop tokens argv inputFd outputFd pipeFd with
  | case1 | case2 | case4 | case6 => trivial
  | case3 text tokens argv inputFd outputFd pipeFd _ ih => exact ih
  | case5 text argv inputFd outputFd pipeFd _ file tokens ih => exact redirect_follows fun fd => ih _
  | case7 text argv inputFd outputFd pipeFd _ file tokens ih => exact redirect_follows fun fd => ih _
  | case8 text tokens argv inputFd outputFd pipeFd _ ih _ =>
    exact ⟨_, _, rfl, fun consumer producer => endCommand_pipe_follows fun fd => ih consumer producer fd⟩
  | case9 text tokens argv inputFd outputFd pipeFd _ ih => exact endCommand_follows ih
  | case10 text tokens argv inputFd outputFd pipeFd _ ih => exact endCommand_follows ih
  | case11 text tokens argv inputFd outputFd pipeFd _ ih => exact endCommand_follows ih

/-! ### What `run_program` does next -/

/-- A child with the descriptors `files` may come to an `execv` that hands on `image`. -/
def Run.Reaches (image : Image) : Run → Files → Prop
  | .access _ next, files => ∃ found, (next found).Reaches image files
  | .dup2 oldFd newFd next, files => next.Reaches image (files.dup2 oldFd newFd)
  | .execv _ argv _, files => image = ⟨argv, files⟩
  | _, _ => False

/-- Nothing to do with descriptors is left to be done. -/
def Run.Quiet : Run → Prop
  | .getcwd next => ∀ dir, (next dir).Quiet
  | .chdir _ next => next.Quiet
  | .waitpid _ next => next.Quiet
  | .error _ next => next.Quiet
  | .exit _ => True
  | .ret _ => True
  | _ => False

/-- The next call is the `fork` of a child that runs `argv` with `inputFd` and `outputFd` for its standard input and
output. -/
def Run.Forks (argv : List (List UInt8)) (inputFd outputFd : Int) : Run → Prop
  | .fork inChild inParent =>
    (∀ files image, inChild.Reaches image files →
      image = ⟨argv, (files.dup2 inputFd stdinFileno).dup2 outputFd stdoutFileno⟩) ∧
    ∀ child, (inParent child).Quiet
  | _ => False

private theorem searchPath_reaches {name : List UInt8} {dirs : List (List UInt8)} {buf : List UInt8}
    {next : List UInt8 → Run} {image : Image} {files : Files}
    (h : (searchPath name dirs buf next).Reaches image files) : ∃ path, (next path).Reaches image files := by
  induction dirs generalizing buf with
  | nil => exact ⟨buf, h⟩
  | cons dir dirs ih =>
    obtain ⟨found, h⟩ := h
    cases found with
    | false => exact ih h
    | true => exact ⟨_, h⟩

private theorem dup2Unless_reaches {fd fileno : Int} {next : Run} {image : Image} {files : Files}
    (h : (dup2Unless fd fileno next).Reaches image files) : next.Reaches image (files.dup2 fd fileno) := by
  unfold dup2Unless at h
  split at h
  · exact h
  · rename_i hfd
    obtain rfl : fd = fileno := not_not.1 hfd
    rwa [DescriptorTable.dup2_self]

/-- The shell ends, changes its directory, or starts a process. -/
theorem runProgram_cases {call : Call} {inputFd outputFd : Int} {oldDir : Option (List UInt8)}
    {oldDirTmp buf : List UInt8} :
    runProgram pathDirList home call inputFd outputFd oldDir oldDirTmp buf = .exit 0 ∨
      call.argv.headD [] = cdName ∧ (runProgram pathDirList home call inputFd outputFd oldDir oldDirTmp buf).Quiet ∨
      call.argv.headD [] ≠ cdName ∧
        (runProgram pathDirList home call inputFd outputFd oldDir oldDirTmp buf).Forks call.argv inputFd outputFd := by
  unfold runProgram
  dsimp only
  split
  · exact .inl rfl
  split
  · rename_i hcd
    split
    · exact .inr (.inl ⟨hcd, trivial⟩)
    · exact .inr (.inl ⟨hcd, fun cwd => trivial⟩)
  rename_i hcd
  refine .inr (.inr ⟨hcd, fun files image h => ?_, fun child => ?_⟩)
  · obtain ⟨path, h⟩ := searchPath_reaches h
    exact dup2Unless_reaches (dup2Unless_reaches h)
  · split
    · trivial
    · dsimp only
      split
      · trivial
      · trivial

/-! ### Steps -/

variable {pathDirList home}

theorem Task.of_eq {process : Process} {image : Image} (h : process.control ≠ .ended) :
    Task.of process image = ⟨process, image⟩ := by
  obtain ⟨control, oldDir⟩ := process
  cases control with
  | ended => exact absurd rfl h
  | reading | parsing | running | replaced => rfl

theorem Task.holds_of {process : Process} {image : Image} {e : End}
    (h : (Task.of process image).files.Holds e) : image.files.Holds e := by
  obtain ⟨control, oldDir⟩ := process
  cases control with
  | ended =>
    obtain ⟨fd, hfd⟩ := h
    cases hfd
  | reading | parsing | running | replaced => exact h

theorem Kernel.step_cases {k k' : Kernel} {act : Act} {u : Unit}
    (h : k.step pathDirList home act = some (u, k')) :
    ∃ task self child image pipes, k.tasks[act.pid]? = some task ∧
      task.process.step pathDirList home k.tasks.length act.outcome = some (self, child) ∧
      effect k.pipes task.image task.process.control act.outcome = some (image, pipes) ∧
      k' = ⟨k.tasks.set act.pid (.of self image) ++ (child.map (Task.of · image)).toList, pipes⟩ := by
  unfold Kernel.step at h
  split at h
  · cases h
  · rename_i task htask
    split at h
    · cases h
    · rename_i self child hstep
      split at h
      · cases h
      · rename_i image pipes heffect
        cases h
        exact ⟨task, self, child, image, pipes, htask, hstep, heffect, rfl⟩

/-- The processes take the same steps without their descriptors. -/
theorem Kernel.step_system {k k' : Kernel} {act : Act} {u : Unit}
    (h : k.step pathDirList home act = some (u, k')) :
    Edaf35.Shell.step pathDirList home k.system act = some (u, k'.system) := by
  obtain ⟨task, self, child, image, pipes, htask, hstep, -, rfl⟩ := Kernel.step_cases h
  have hself : k.system[act.pid]? = some task.process := by
    rw [Kernel.system, List.getElem?_map, htask]
    rfl
  have hlength : k.system.length = k.tasks.length := List.length_map ..
  unfold Edaf35.Shell.step
  rw [hself]
  dsimp only
  rw [hlength, hstep]
  cases child with
  | none => simp [Kernel.system, List.map_set, Task.of]
  | some child => simp [Kernel.system, List.map_set, Task.of]

theorem Process.not_ended {n : Nat} {self self' : Process} {child : Option Process} {outcome : Outcome}
    (h : self.step pathDirList home n outcome = some (self', child)) : self.control ≠ .ended := by
  intro hended
  obtain ⟨control, oldDir⟩ := self
  cases hended
  cases h

/-- The steps of the shell, from `control` with `image` after `pipes` pipes. -/
inductive Move (pathDirList : List (List UInt8)) (home : Option (List UInt8)) (n : Nat) (oldDir : Option (List UInt8))
    (image : Image) (pipes : Nat) : Control → Outcome → Process → Option Process → Image → Nat → Prop
  | typed {input line rest pipeFd} : fetchLine input = some (line, rest) →
      Move pathDirList home n oldDir image pipes .reading (.typed input pipeFd)
        ⟨resume (parseLine line pipeFd), oldDir⟩ none image pipes
  | noLine {input pipeFd} : fetchLine input = none →
      Move pathDirList home n oldDir image pipes .reading (.typed input pipeFd) ⟨.ended, oldDir⟩ none image pipes
  | openFailed {path mode next} :
      Move pathDirList home n oldDir image pipes (.parsing (.openFile path mode next)) (.opened none)
        ⟨resume (next none), oldDir⟩ none image pipes
  | opened {path mode next} {fd : Nat} : image.files fd = none →
      Move pathDirList home n oldDir image pipes (.parsing (.openFile path mode next)) (.opened (some fd))
        ⟨resume (next (some fd)), oldDir⟩ none ⟨image.argv, image.files.assign fd (.file path mode)⟩ pipes
  | pipeFailed {next} :
      Move pathDirList home n oldDir image pipes (.parsing (.pipe next)) (.piped none) ⟨resume (next none), oldDir⟩ none
        image pipes
  | piped {next} {consumer producer : Nat} : image.files consumer = none → image.files producer = none →
      consumer ≠ producer →
      Move pathDirList home n oldDir image pipes (.parsing (.pipe next)) (.piped (some (consumer, producer)))
        ⟨resume (next (some (consumer, producer))), oldDir⟩ none
        ⟨image.argv, (image.files.assign consumer (.reading pipes)).assign producer (.writing pipes)⟩ (pipes + 1)
  | called {call inputFd outputFd next oldDirTmp buf} :
      Move pathDirList home n oldDir image pipes (.parsing (.runProgram call inputFd outputFd next))
        (.called oldDirTmp buf)
        (enter (runProgram pathDirList home call inputFd outputFd oldDir oldDirTmp buf) next oldDir) none image pipes
  | closed {fd next} :
      Move pathDirList home n oldDir image pipes (.parsing (.close fd next)) .done ⟨resume next, oldDir⟩ none
        ⟨image.argv, image.files.close fd⟩ pipes
  | error {fmt arg next} :
      Move pathDirList home n oldDir image pipes (.parsing (.error fmt arg next)) .done ⟨resume next, oldDir⟩ none image
        pipes
  | ran {body next rest outcome} : (∀ argv inputFd outputFd, ¬body.Forks argv inputFd outputFd) →
      (body.Quiet → next.Quiet) → (∃ dir, outcome = .cwd dir) ∨ outcome = .done →
      Move pathDirList home n oldDir image pipes (.running body rest) outcome (enter next rest oldDir) none image pipes
  | forkFailed {inChild inParent rest} :
      Move pathDirList home n oldDir image pipes (.running (.fork inChild inParent) rest) (.forked false)
        (enter (inParent none) rest oldDir) none image pipes
  | forked {inChild inParent rest} :
      Move pathDirList home n oldDir image pipes (.running (.fork inChild inParent) rest) (.forked true)
        (enter (inParent (some n)) rest oldDir) (some (enter inChild rest oldDir)) image pipes

theorem Process.step_move {n pipes pipes' : Nat} {self self' : Process} {child : Option Process} {image image' : Image}
    {outcome : Outcome} (horiginal : self.control.Original)
    (hstep : self.step pathDirList home n outcome = some (self', child))
    (heffect : effect pipes image self.control outcome = some (image', pipes')) :
    Move pathDirList home n self.oldDir image pipes self.control outcome self' child image' pipes' := by
  obtain ⟨control, oldDir⟩ := self
  cases control with
  | reading =>
    cases outcome with
    | typed input pipeFd =>
      cases heffect
      dsimp only [Process.step] at hstep
      split at hstep
      · rename_i line rest hline
        cases hstep
        exact .typed hline
      · rename_i hline
        cases hstep
        exact .noLine hline
    | _ => cases hstep
  | parsing rest =>
    cases rest with
    | openFile path mode next =>
      cases outcome with
      | opened fd =>
        cases hstep
        cases fd with
        | none =>
          cases heffect
          exact .openFailed
        | some fd =>
          dsimp only [effect] at heffect
          split at heffect
          · rename_i hfree
            cases heffect
            exact .opened hfree
          · cases heffect
      | _ => cases hstep
    | pipe next =>
      cases outcome with
      | piped ends =>
        cases hstep
        cases ends with
        | none =>
          cases heffect
          exact .pipeFailed
        | some ends =>
          obtain ⟨consumer, producer⟩ := ends
          dsimp only [effect] at heffect
          split at heffect
          · rename_i hfree
            cases heffect
            exact .piped hfree.1 hfree.2.1 hfree.2.2
          · cases heffect
      | _ => cases hstep
    | runProgram call inputFd outputFd next =>
      cases outcome with
      | called oldDirTmp buf =>
        cases hstep
        cases heffect
        exact .called
      | _ => cases hstep
    | close fd next =>
      cases outcome with
      | done =>
        cases hstep
        cases heffect
        exact .closed
      | _ => cases hstep
    | error fmt arg next =>
      cases outcome with
      | done =>
        cases hstep
        cases heffect
        exact .error
      | _ => cases hstep
    | ret | fault => cases outcome <;> cases hstep
  | running body rest =>
    cases body with
    | getcwd next =>
      cases outcome with
      | cwd dir =>
        cases hstep
        cases heffect
        exact .ran (fun _ _ _ => id) (fun h => h dir) (.inl ⟨dir, rfl⟩)
      | _ => cases hstep
    | chdir | waitpid | error =>
      cases outcome with
      | done =>
        cases hstep
        cases heffect
        exact .ran (fun _ _ _ => id) id (.inr rfl)
      | _ => cases hstep
    | fork inChild inParent =>
      cases outcome with
      | forked ok =>
        cases ok with
        | true =>
          cases hstep
          cases heffect
          exact .forked
        | false =>
          cases hstep
          cases heffect
          exact .forkFailed
      | _ => cases hstep
    | exit | ret => cases outcome <;> cases hstep
    | access | dup2 | execv => cases horiginal
  | replaced => cases horiginal
  | ended => cases hstep

/-! ### What a process may come to run -/

/-- The process runs a program with this image, or may come to. -/
def Task.MayRun (task : Task) (image : Image) : Prop :=
  match task.process.control with
  | .running body _ => body.Reaches image task.files
  | .replaced => image = task.image
  | _ => False

def Kernel.MayRun (k : Kernel) (pid : Nat) (fd : Int) (e : End) : Prop :=
  ∃ task image, k.tasks[pid]? = some task ∧ task.MayRun image ∧ image.files fd = some e

private theorem Run.Reaches.holds {body : Run} {image : Image} {files : Files} {e : End}
    (h : body.Reaches image files) (he : image.files.Holds e) : files.Holds e := by
  induction body generalizing files with
  | access path next ih =>
    obtain ⟨found, h⟩ := h
    exact ih found h
  | dup2 oldFd newFd next ih => exact (ih h).of_dup2
  | execv path argv failed _ =>
    cases h
    exact he
  | exit | getcwd | chdir | fork | waitpid | error | ret => cases h

private theorem Task.MayRun.holds {task : Task} {image : Image} {e : End} (h : task.MayRun image)
    (he : image.files.Holds e) : task.files.Holds e := by
  unfold Task.MayRun at h
  split at h
  · exact h.holds he
  · rwa [h] at he
  · cases h

/-- A program has nothing that its process did not hold before. -/
theorem Kernel.MayRun.holds {k : Kernel} {pid : Nat} {fd : Int} {e : End} (h : k.MayRun pid fd e) :
    k.Holds pid e := by
  obtain ⟨task, image, htask, hmay, hfd⟩ := h
  exact ⟨task, htask, hmay.holds ⟨fd, hfd⟩⟩

private theorem Run.InParent.not_reaches {body : Run} {image : Image} {files : Files} (h : body.InParent) :
    ¬body.Reaches image files := by
  intro hreach
  cases body with
  | access | dup2 | execv => cases h
  | exit | getcwd | chdir | fork | waitpid | error | ret => cases hreach

theorem Task.not_mayRun {task : Task} {image : Image} (h : task.process.control.Original) :
    ¬task.MayRun image := by
  intro hmay
  unfold Task.MayRun at hmay
  split at hmay
  · rename_i body rest hcontrol
    rw [hcontrol] at h
    exact Run.InParent.not_reaches h hmay
  · rename_i hcontrol
    rw [hcontrol] at h
    exact h
  · cases hmay

theorem Task.mayRun_of {process : Process} {image image' : Image}
    (h : (Task.of process image).MayRun image') : Task.MayRun ⟨process, image⟩ image' := by
  by_cases hended : process.control = .ended
  · dsimp only [Task.MayRun, Task.of] at h
    rw [hended] at h
    exact h.elim
  · rwa [Task.of_eq hended] at h

private theorem resume_not_mayRun {rest : Parse} {oldDir : Option (List UInt8)} {image image' : Image} :
    ¬Task.MayRun ⟨⟨resume rest, oldDir⟩, image⟩ image' := by
  cases rest <;> exact id

theorem enter_mayRun {body : Run} {rest : Parse} {oldDir : Option (List UInt8)} {image image' : Image}
    (h : Task.MayRun ⟨enter body rest oldDir, image⟩ image') : body.Reaches image' image.files := by
  cases body with
  | ret oldDir' => exact absurd h resume_not_mayRun
  | exit status => cases h
  | getcwd | chdir | fork | access | dup2 | execv | waitpid | error => exact h

/-- A step of a child: it comes to have no more than it had. -/
theorem Task.child_step {task : Task} {self : Process} {child : Option Process} {image : Image}
    {n pipes pipes' : Nat} {outcome : Outcome} (htask : task.process.control.Child)
    (hstep : task.process.step pathDirList home n outcome = some (self, child))
    (heffect : effect pipes task.image task.process.control outcome = some (image, pipes')) :
    pipes' = pipes ∧ (∀ e, image.files.Holds e → task.files.Holds e) ∧
      ∀ image', (Task.of self image).MayRun image' → task.MayRun image' := by
  obtain ⟨⟨control, oldDir⟩, held⟩ := task
  cases control with
  | reading | parsing => cases htask
  | ended | replaced => cases hstep
  | running body rest =>
    cases body with
    | access path next =>
      cases outcome with
      | accessed found =>
        cases hstep
        cases heffect
        exact ⟨rfl, fun e he => he, fun image' h => ⟨found, enter_mayRun (Task.mayRun_of h)⟩⟩
      | _ => cases hstep
    | dup2 oldFd newFd next =>
      cases outcome with
      | done =>
        cases hstep
        cases heffect
        refine ⟨rfl, fun e he => he.of_dup2, fun image' h => ?_⟩
        have hnext : next.Reaches image' (held.files.dup2 oldFd newFd) := enter_mayRun (Task.mayRun_of h)
        exact hnext
      | _ => cases hstep
    | execv path argv failed =>
      cases outcome with
      | execed ok =>
        cases ok with
        | true =>
          cases hstep
          cases heffect
          exact ⟨rfl, fun e he => he, fun image' h => h⟩
        | false =>
          cases hstep
          cases heffect
          obtain ⟨oldDir', rfl⟩ := htask
          exact ⟨rfl, fun e he => he, fun image' h => absurd (Task.mayRun_of h) resume_not_mayRun⟩
      | _ => cases hstep
    | exit | getcwd | chdir | fork | waitpid | error | ret => cases htask

end Edaf35.Shell
