import Edaf35.Shell.Kernel

/-!
# The pipes between the programs

A program that reads from a pipe gets to the end of it when nobody has the writing end open any more.  In whatever
order the processes of a session take their steps, that end is open only in the program started just before; so every
program of a pipeline waits for the one before it, and for nobody else.  The reading ends stay open in the shell.
-/

namespace Edaf35.Shell

/-- The descriptors at the start: the standard input and output are open, and no pipe of the session is. -/
structure Standard (own : Int × Int) (files : Files) : Prop where
  inherited : ∀ fd e, files fd = some e → 0 ≤ fd ∧ ∃ n, e = .inherited n
  stdin : files stdinFileno = some (.inherited own.1)
  stdout : files stdoutFileno = some (.inherited own.2)

/-- The process runs a program that has `e` under the descriptor `fd`. -/
def Kernel.Runs (k : Kernel) (pid : Nat) (fd : Int) (e : End) : Prop :=
  ∃ task, k.tasks[pid]? = some task ∧ task.process.control = .replaced ∧ task.files fd = some e

/-- How the programs are tied together. -/
structure Kernel.Wired (k : Kernel) : Prop where
  /-- Whoever can write what a program reads is the program before it. -/
  feeds : ∀ p i j, k.Runs i stdinFileno (.reading p) → k.Holds j (.writing p) → j ≠ 0 ∧ j + 1 = i
  oneReader : ∀ p i j, k.Runs i stdinFileno (.reading p) → k.Runs j stdinFileno (.reading p) → i = j
  oneWriter : ∀ p i j, k.Runs i stdoutFileno (.writing p) → k.Runs j stdoutFileno (.writing p) → i = j
  /-- No reading end is lost while the shell has not ended. -/
  kept : ∀ p < k.pipes, ∀ task, k.tasks[0]? = some task → task.process.control ≠ .ended → task.files.Holds (.reading p)

variable {pathDirList : List (List UInt8)} {home : Option (List UInt8)} {own : Int × Int}

/-! ### Pipes that are not shared -/

private theorem Kernel.Runs.mayRun {k : Kernel} {pid : Nat} {fd : Int} {e : End} (h : k.Runs pid fd e) :
    k.MayRun pid fd e := by
  obtain ⟨task, htask, hcontrol, hfd⟩ := h
  refine ⟨task, task.image, htask, ?_, hfd⟩
  unfold Task.MayRun
  rw [hcontrol]

/-- What holds of the pipes whatever the shell does at the moment. -/
structure Kernel.Tied (k : Kernel) : Prop where
  feeds : ∀ p i j, k.MayRun i stdinFileno (.reading p) → k.Holds j (.writing p) → j ≠ 0 ∧ j + 1 = i
  oneReader : ∀ p i j, k.MayRun i stdinFileno (.reading p) → k.MayRun j stdinFileno (.reading p) → i = j
  oneWriter : ∀ p i j, k.MayRun i stdoutFileno (.writing p) → k.MayRun j stdoutFileno (.writing p) → i = j
  readings : ∀ p i, k.Holds i (.reading p) → p < k.pipes
  writings : ∀ p i, k.Holds i (.writing p) → p < k.pipes

/-- What the next command reads: nothing that is read already or that is written by others than the last process. -/
structure Kernel.Feeds (k : Kernel) (files : Files) (fd : Int) : Prop where
  isOpen : fd = -1 ∨ files fd ≠ none
  unread : ∀ p, files fd = some (.reading p) → ∀ i, ¬k.MayRun i stdinFileno (.reading p)
  before : ∀ p, files fd = some (.reading p) → ∀ j, k.Holds j (.writing p) → j ≠ 0 ∧ j + 1 = k.tasks.length
  notWriting : ∀ p, files fd ≠ some (.writing p)

/-- The shell has both ends of the pipe `p`, and the writing end but once. -/
structure Kernel.Between (k : Kernel) (files : Files) (consumer producer : Int) (p : Nat) : Prop where
  reads : files consumer = some (.reading p)
  writes : files producer = some (.writing p)
  once : ∀ fd, files fd = some (.writing p) → fd = producer
  unread : ∀ i, ¬k.MayRun i stdinFileno (.reading p)

/-- The descriptors of the stage, when the shell has the table `files`. -/
def Stage.Ready (k : Kernel) (files : Files) : Stage → Prop
  | .command inputFd outputFd => k.Feeds files inputFd ∧ ∀ p, files outputFd ≠ some (.writing p)
  | .piping inputFd consumer producer => k.Feeds files inputFd ∧ ∃ p, k.Between files consumer producer p ∧
    files inputFd ≠ some (.reading p) ∧ ∀ j, k.Holds j (.writing p) → j = 0
  | .closing consumer producer => ∃ p, k.Between files consumer producer p ∧
    ∀ j, k.Holds j (.writing p) → j = 0 ∨ j + 1 = k.tasks.length

/-- What the shell does next fits to its descriptors. -/
def Control.Fits (k : Kernel) (files : Files) : Control → Prop
  | .parsing rest => ∃ stage, rest.Follows stage ∧ stage.Ready k files
  | .running body rest => ∃ stage, stage.Ready k files ∧
    (body.Quiet ∧ rest.Follows stage ∨
      ∃ argv inputFd outputFd stage', stage.call = some (inputFd, outputFd, stage') ∧
        body.Forks argv inputFd outputFd ∧ rest.Follows stage')
  | _ => True

/-- The descriptors of the shell. -/
structure Kernel.Equipped (k : Kernel) (own : Int × Int) (files : Files) : Prop extends Owns own files where
  kept : ∀ p < k.pipes, files.Holds (.reading p)

/-- The invariant of the sessions. -/
structure Kernel.Plumbed (k : Kernel) (own : Int × Int) : Prop where
  sound : Sound k.system
  tied : k.Tied
  shell : ∀ task, k.tasks[0]? = some task → task.process.control ≠ .ended →
    k.Equipped own task.files ∧ task.process.control.Fits k task.files

/-- `k'` has no process, pipe or holder of a pipe that `k` has not. -/
structure Kernel.Below (k' k : Kernel) : Prop where
  length : k'.tasks.length = k.tasks.length
  pipes : k'.pipes = k.pipes
  readings : ∀ p j, k'.Holds j (.reading p) → k.Holds j (.reading p)
  writings : ∀ p j, k'.Holds j (.writing p) → k.Holds j (.writing p)
  mayRun : ∀ j fd e, k'.MayRun j fd e → k.MayRun j fd e

private theorem Kernel.Tied.below {k k' : Kernel} (h : k.Tied) (hk : k'.Below k) : k'.Tied where
  feeds p i j hi hj := h.feeds p i j (hk.mayRun _ _ _ hi) (hk.writings _ _ hj)
  oneReader p i j hi hj := h.oneReader p i j (hk.mayRun _ _ _ hi) (hk.mayRun _ _ _ hj)
  oneWriter p i j hi hj := h.oneWriter p i j (hk.mayRun _ _ _ hi) (hk.mayRun _ _ _ hj)
  readings p i hi := by rw [hk.pipes]; exact h.readings p i (hk.readings _ _ hi)
  writings p i hi := by rw [hk.pipes]; exact h.writings p i (hk.writings _ _ hi)

private theorem Kernel.Feeds.below {k k' : Kernel} {files files' : Files} {fd : Int} (h : k.Feeds files fd)
    (hk : k'.Below k) (hfd : files' fd = files fd) : k'.Feeds files' fd where
  isOpen := by rw [hfd]; exact h.isOpen
  unread p hp i hi := h.unread p (hfd ▸ hp) i (hk.mayRun _ _ _ hi)
  before p hp j hj := by rw [hk.length]; exact h.before p (hfd ▸ hp) j (hk.writings _ _ hj)
  notWriting p := by rw [hfd]; exact h.notWriting p

private theorem Kernel.Between.below {k k' : Kernel} {files : Files} {consumer producer : Int} {p : Nat}
    (h : k.Between files consumer producer p) (hk : k'.Below k) : k'.Between files consumer producer p where
  reads := h.reads
  writes := h.writes
  once := h.once
  unread i hi := h.unread i (hk.mayRun _ _ _ hi)

private theorem Stage.Ready.below {k k' : Kernel} {files : Files} {stage : Stage} (h : stage.Ready k files)
    (hk : k'.Below k) : stage.Ready k' files := by
  cases stage with
  | command inputFd outputFd => exact ⟨h.1.below hk rfl, h.2⟩
  | piping inputFd consumer producer =>
    obtain ⟨hfeed, p, hbetween, hne, hj⟩ := h
    exact ⟨hfeed.below hk rfl, p, hbetween.below hk, hne, fun j hold => hj j (hk.writings _ _ hold)⟩
  | closing consumer producer =>
    obtain ⟨p, hbetween, hj⟩ := h
    refine ⟨p, hbetween.below hk, fun j hold => ?_⟩
    rw [hk.length]
    exact hj j (hk.writings _ _ hold)

private theorem Control.Fits.below {k k' : Kernel} {files : Files} {control : Control} (h : control.Fits k files)
    (hk : k'.Below k) : control.Fits k' files := by
  cases control with
  | parsing rest =>
    obtain ⟨stage, hfollows, hready⟩ := h
    exact ⟨stage, hfollows, hready.below hk⟩
  | running body rest =>
    obtain ⟨stage, hready, hbody⟩ := h
    exact ⟨stage, hready.below hk, hbody⟩
  | reading | replaced | ended => trivial

private theorem Kernel.Equipped.below {k k' : Kernel} {files : Files} (h : k.Equipped own files) (hk : k'.Below k) :
    k'.Equipped own files where
  toOwns := h.toOwns
  kept p hp := h.kept p (hk.pipes ▸ hp)

/-- A process that does not fork and comes to have no other ends of pipes. -/
private theorem Kernel.below_set {k : Kernel} {pid : Nat} {task : Task} {self : Process} {image : Image}
    (htask : k.tasks[pid]? = some task)
    (hreadings : ∀ p, image.files.Holds (.reading p) → task.files.Holds (.reading p))
    (hwritings : ∀ p, image.files.Holds (.writing p) → task.files.Holds (.writing p))
    (hmay : ∀ image', (Task.of self image).MayRun image' → task.MayRun image') :
    Kernel.Below ⟨k.tasks.set pid (.of self image) ++ (none : Option Task).toList, k.pipes⟩ k where
  length := by simp
  pipes := rfl
  readings p j := by
    rintro ⟨task', htask', hold⟩
    rcases getElem?_step htask' with ⟨rfl, rfl⟩ | ⟨hsame, -⟩ | hnew
    · exact ⟨task, htask, hreadings p (Task.holds_of hold)⟩
    · exact ⟨task', hsame, hold⟩
    · cases hnew
  writings p j := by
    rintro ⟨task', htask', hold⟩
    rcases getElem?_step htask' with ⟨rfl, rfl⟩ | ⟨hsame, -⟩ | hnew
    · exact ⟨task, htask, hwritings p (Task.holds_of hold)⟩
    · exact ⟨task', hsame, hold⟩
    · cases hnew
  mayRun j fd e := by
    rintro ⟨task', image', htask', hrun, hfd⟩
    rcases getElem?_step htask' with ⟨rfl, rfl⟩ | ⟨hsame, -⟩ | hnew
    · exact ⟨task, image', htask, hmay image' hrun, hfd⟩
    · exact ⟨task', image', hsame, hrun, hfd⟩
    · cases hnew

/-! ### Steps of the shell -/

section Shell

variable {k : Kernel} {files : Files} {stage stage' : Stage} {inputFd outputFd : Int}

/-- At the start of a command nothing is redirected. -/
private theorem Kernel.Equipped.ready (h : k.Equipped own files) :
    Stage.Ready k files (.command stdinFileno stdoutFileno) := by
  refine ⟨⟨.inr (by simp [h.stdin]), ?_, ?_, ?_⟩, ?_⟩
  · simp [h.stdin]
  · simp [h.stdin]
  · simp [h.stdin]
  · simp [h.stdout]

/-- A command that starts no process leaves the descriptors as they are. -/
private theorem Stage.Ready.call (h : stage.Ready k files) (hk : k.Equipped own files)
    (hcall : stage.call = some (inputFd, outputFd, stage')) : stage'.Ready k files := by
  cases stage with
  | command =>
    cases hcall
    exact hk.ready
  | piping =>
    cases hcall
    obtain ⟨-, p, hbetween, -, hj⟩ := h
    exact ⟨p, hbetween, fun j hold => .inl (hj j hold)⟩
  | closing => cases hcall

/-- What the next command gets for its standard input and output. -/
private theorem Stage.Ready.feeds (h : stage.Ready k files)
    (hcall : stage.call = some (inputFd, outputFd, stage')) :
    k.Feeds files inputFd ∧ ∀ p, files outputFd = some (.writing p) → ∀ j, k.Holds j (.writing p) → j = 0 := by
  cases stage with
  | command =>
    cases hcall
    exact ⟨h.1, fun p hp => absurd hp (h.2 p)⟩
  | piping =>
    cases hcall
    obtain ⟨hfeeds, p, hbetween, -, hj⟩ := h
    refine ⟨hfeeds, fun p' hp' => ?_⟩
    rw [hbetween.writes] at hp'
    cases hp'
    exact hj
  | closing => cases hcall

private theorem Stage.Ready.openFailed {mode : OpenMode} (h : (Stage.command inputFd outputFd).Ready k files)
    (hk : k.Equipped own files) : ((Stage.command inputFd outputFd).opened mode none).Ready k files := by
  cases mode with
  | rdonly => exact ⟨⟨.inl rfl, by simp [hk.closed], by simp [hk.closed], by simp [hk.closed]⟩, h.2⟩
  | creatWronly perm => exact ⟨h.1, by simp [hk.closed]⟩

private theorem resume_fits {rest : Parse} (hrest : rest.Follows stage) (h : stage.Ready k files) :
    (resume rest).Fits k files := by
  cases rest with
  | ret => trivial
  | openFile | pipe | runProgram | close | error | fault => exact ⟨stage, hrest, h⟩

private theorem enter_fits {body : Run} {rest : Parse} {oldDir : Option (List UInt8)} (hbody : body.Quiet)
    (hrest : rest.Follows stage) (h : stage.Ready k files) : (enter body rest oldDir).control.Fits k files := by
  cases body with
  | ret => exact resume_fits hrest h
  | exit => trivial
  | getcwd | chdir | waitpid | error => exact ⟨stage, h, .inl ⟨hbody, hrest⟩⟩
  | fork | access | dup2 | execv => cases hbody

private theorem enter_fits_forks {body : Run} {rest : Parse} {oldDir : Option (List UInt8)}
    {argv : List (List UInt8)}
    (hcall : stage.call = some (inputFd, outputFd, stage')) (hbody : body.Forks argv inputFd outputFd)
    (hrest : rest.Follows stage') (h : stage.Ready k files) : (enter body rest oldDir).control.Fits k files := by
  cases body with
  | fork => exact ⟨stage, h, .inr ⟨argv, inputFd, outputFd, stage', hcall, hbody, hrest⟩⟩
  | ret | exit | getcwd | chdir | waitpid | error | access | dup2 | execv => cases hbody

/-- What the shell leaves behind in one step: the pipes, and where it goes on also its own descriptors. -/
private structure Kernel.Continues (k : Kernel) (own : Int × Int) (self : Process) (files : Files) : Prop where
  tied : k.Tied
  shell : self.control ≠ .ended → k.Equipped own files ∧ self.control.Fits k files

variable {task : Task} {self : Process} {argv : List (List UInt8)}

/-- A step that leaves the descriptors alone. -/
private theorem continues_same (htied : k.Tied) (htask : k.tasks[0]? = some task)
    (hequipped : k.Equipped own task.files) (horiginal : self.control.Original)
    (hfits : self.control.Fits k task.files) :
    Kernel.Continues ⟨k.tasks.set 0 (.of self task.image) ++ (none : Option Task).toList, k.pipes⟩ own self
      task.files := by
  have hbelow : Kernel.Below ⟨k.tasks.set 0 (.of self task.image) ++ (none : Option Task).toList, k.pipes⟩ k :=
    k.below_set htask (fun p hp => hp) (fun p hp => hp) fun image' h => absurd h (Task.not_mayRun horiginal)
  exact ⟨htied.below hbelow, fun _ => ⟨hequipped.below hbelow, hfits.below hbelow⟩⟩

/-- An `open` that succeeds. -/
private theorem continues_opened {path : List UInt8} {mode : OpenMode} {fd : Nat} (htied : k.Tied)
    (htask : k.tasks[0]? = some task) (hequipped : k.Equipped own task.files) (horiginal : self.control.Original)
    (hfree : task.files fd = none) (hready : (Stage.command inputFd outputFd).Ready k task.files)
    (hfits : ∀ k', ((Stage.command inputFd outputFd).opened mode (some fd)).Ready k'
      (task.files.assign fd (.file path mode)) → self.control.Fits k' (task.files.assign fd (.file path mode))) :
    Kernel.Continues ⟨k.tasks.set 0 (.of self ⟨argv, task.files.assign fd (.file path mode)⟩) ++
      (none : Option Task).toList, k.pipes⟩ own self (task.files.assign fd (.file path mode)) := by
  have hbelow : Kernel.Below ⟨k.tasks.set 0 (.of self ⟨argv, task.files.assign fd (.file path mode)⟩) ++
      (none : Option Task).toList, k.pipes⟩ k :=
    k.below_set htask (fun p hp => hp.of_assign.resolve_left (by simp))
      (fun p hp => hp.of_assign.resolve_left (by simp)) fun image' h => absurd h (Task.not_mayRun horiginal)
  have hne : ∀ {fd' : Int}, task.files fd' ≠ none → fd' ≠ fd := by
    rintro fd' hopen rfl
    exact hopen hfree
  refine ⟨htied.below hbelow, fun _ => ⟨⟨hequipped.toOwns.assign hfree, fun p hp => ?_⟩, hfits _ ?_⟩⟩
  · exact (hequipped.kept p hp).assign hfree
  · obtain ⟨hfeeds, hsink⟩ := hready
    cases mode with
    | rdonly =>
      refine ⟨⟨.inr (by simp), by simp, by simp, by simp⟩, fun p hp => ?_⟩
      exact hsink p ((DescriptorTable.assign_eq_some hp).resolve_left (by simp))
    | creatWronly perm =>
      refine ⟨hfeeds.below hbelow (DescriptorTable.assign_ne ?_), by simp⟩
      rcases hfeeds.isOpen with rfl | hopen
      · omega
      · exact hne hopen

/-- The `close` of the writing end, after which the next command may read from the pipe. -/
private theorem continues_closed {consumer producer : Int} (htied : k.Tied) (htask : k.tasks[0]? = some task)
    (hequipped : k.Equipped own task.files) (horiginal : self.control.Original)
    (hready : (Stage.closing consumer producer).Ready k task.files)
    (hfits : ∀ k', (Stage.command consumer stdoutFileno).Ready k' (task.files.close producer) →
      self.control.Fits k' (task.files.close producer)) :
    Kernel.Continues ⟨k.tasks.set 0 (.of self ⟨argv, task.files.close producer⟩) ++ (none : Option Task).toList,
      k.pipes⟩ own self (task.files.close producer) := by
  have hbelow : Kernel.Below ⟨k.tasks.set 0 (.of self ⟨argv, task.files.close producer⟩) ++
      (none : Option Task).toList, k.pipes⟩ k :=
    k.below_set htask (fun p hp => hp.of_close) (fun p hp => hp.of_close)
      fun image' h => absurd h (Task.not_mayRun horiginal)
  obtain ⟨p, hbetween, hj⟩ := hready
  have hends : consumer ≠ producer := by
    rintro rfl
    have hsame := hbetween.reads.symm.trans hbetween.writes
    cases hsame
  have hreads : task.files.close producer consumer = some (.reading p) := by
    rw [DescriptorTable.close_ne hends, hbetween.reads]
  have hequipped' : k.Equipped own (task.files.close producer) := by
    refine ⟨hequipped.toOwns.close (by simp [hbetween.writes]), fun p' hp' => ?_⟩
    exact (hequipped.kept p' hp').close (by simp [hbetween.writes])
  refine ⟨htied.below hbelow, fun _ => ⟨hequipped'.below hbelow, hfits _ ⟨⟨.inr (by simp [hreads]), ?_, ?_, ?_⟩,
    hequipped'.ready.2⟩⟩⟩
  · rintro p' hp' i hi
    rw [hreads] at hp'
    cases hp'
    exact hbetween.unread i (hbelow.mayRun _ _ _ hi)
  · rintro p' hp' j hold
    rw [hreads] at hp'
    cases hp'
    have hj0 : j ≠ 0 := by
      rintro rfl
      obtain ⟨task', htask', hold⟩ := hold
      rw [getElem?_step_self htask] at htask'
      cases htask'
      obtain ⟨fd, hfd⟩ := Task.holds_of hold
      obtain ⟨hfd, hwrites⟩ := DescriptorTable.close_eq_some hfd
      exact hfd (hbetween.once fd hwrites)
    rw [hbelow.length]
    exact ⟨hj0, (hj j (hbelow.writings _ _ hold)).resolve_left hj0⟩
  · simp [hreads]

/-- A `pipe` that succeeds, before the command that is to write into it. -/
private theorem continues_piped {consumer producer : Nat} (htied : k.Tied)
    (htask : k.tasks[0]? = some task) (hequipped : k.Equipped own task.files) (horiginal : self.control.Original)
    (hconsumer : task.files consumer = none) (hproducer : task.files producer = none) (hends : consumer ≠ producer)
    (hready : (Stage.command inputFd outputFd).Ready k task.files)
    (hfits : ∀ k' files', (Stage.piping inputFd consumer producer).Ready k' files' → self.control.Fits k' files') :
    Kernel.Continues ⟨k.tasks.set 0 (.of self
        ⟨argv, (task.files.assign consumer (.reading k.pipes)).assign producer (.writing k.pipes)⟩) ++
          (none : Option Task).toList, k.pipes + 1⟩ own self
      ((task.files.assign consumer (.reading k.pipes)).assign producer (.writing k.pipes)) := by
  set files := (task.files.assign consumer (.reading k.pipes)).assign producer (.writing k.pipes) with hfiles
  set k' : Kernel := ⟨k.tasks.set 0 (.of self ⟨argv, files⟩) ++ (none : Option Task).toList, k.pipes + 1⟩
    with hk'
  have hlength : k'.tasks.length = k.tasks.length := by simp [hk']
  have hends' : (consumer : Int) ≠ producer := by omega
  have hreads : files consumer = some (.reading k.pipes) := by
    rw [hfiles, DescriptorTable.assign_ne hends', DescriptorTable.assign_self]
  have hwrites : files producer = some (.writing k.pipes) := DescriptorTable.assign_self
  have hkeep : ∀ {fd}, task.files fd ≠ none → files fd = task.files fd := by
    intro fd hfd
    rw [hfiles, DescriptorTable.assign_ne, DescriptorTable.assign_ne]
    · rintro rfl
      exact hfd hconsumer
    · rintro rfl
      exact hfd hproducer
  have hcases : ∀ {fd e}, files fd = some e →
      fd = producer ∧ e = .writing k.pipes ∨ fd = consumer ∧ e = .reading k.pipes ∨ task.files fd = some e :=
    fun h => (DescriptorTable.assign_eq_some h).imp_right DescriptorTable.assign_eq_some
  have hholds : ∀ {j e}, k'.Holds j e → k.Holds j e ∨ j = 0 ∧ (e = .writing k.pipes ∨ e = .reading k.pipes) := by
    rintro j e ⟨task', htask', hold⟩
    rcases getElem?_step htask' with ⟨rfl, rfl⟩ | ⟨hsame, -⟩ | hnew
    · obtain ⟨fd, hfd⟩ := Task.holds_of hold
      rcases hcases hfd with ⟨-, he⟩ | ⟨-, he⟩ | hfd
      · exact .inr ⟨rfl, .inl he⟩
      · exact .inr ⟨rfl, .inr he⟩
      · exact .inl ⟨task, htask, fd, hfd⟩
    · exact .inl ⟨task', hsame, hold⟩
    · cases hnew
  have hmay : ∀ {j fd e}, k'.MayRun j fd e → k.MayRun j fd e := by
    rintro j fd e ⟨task', image', htask', hrun, hfd⟩
    rcases getElem?_step htask' with ⟨rfl, -⟩ | ⟨hsame, -⟩ | hnew
    · exact absurd hrun (Task.not_mayRun horiginal)
    · exact ⟨task', image', hsame, hrun, hfd⟩
    · cases hnew
  -- the number of the pipe is a new one
  have hreading : ∀ i, ¬k.Holds i (.reading k.pipes) := fun i h => Nat.lt_irrefl _ (htied.readings _ i h)
  have hwriting : ∀ i, ¬k.Holds i (.writing k.pipes) := fun i h => Nat.lt_irrefl _ (htied.writings _ i h)
  have hwritten : ∀ {p j}, p < k.pipes → k'.Holds j (.writing p) → k.Holds j (.writing p) := by
    intro p j hp hold
    rcases hholds hold with hold | ⟨-, he | he⟩
    · exact hold
    · cases he
      exact absurd hp (Nat.lt_irrefl _)
    · cases he
  obtain ⟨hfeeds, -⟩ := hready
  have hinput : files inputFd = task.files inputFd := by
    rcases hfeeds.isOpen with rfl | hopen
    · rw [hfiles, DescriptorTable.assign_ne (by omega), DescriptorTable.assign_ne (by omega)]
    · exact hkeep hopen
  have hread : ∀ {p}, task.files inputFd = some (.reading p) → p < k.pipes :=
    fun hp => htied.readings _ 0 ⟨task, htask, inputFd, hp⟩
  have howns : Owns own files := by
    refine (hequipped.toOwns.assign hconsumer).assign ?_
    rw [DescriptorTable.assign_ne (Ne.symm hends'), hproducer]
  refine ⟨⟨?_, ?_, ?_, ?_, ?_⟩, fun _ => ⟨⟨howns, ?_⟩, hfits _ _ ⟨⟨?_, ?_, ?_, ?_⟩, k.pipes,
    ⟨hreads, hwrites, ?_, ?_⟩, ?_, ?_⟩⟩⟩
  · intro p i j hi hj
    exact htied.feeds p i j (hmay hi) (hwritten (htied.readings p i (hmay hi).holds) hj)
  · exact fun p i j hi hj => htied.oneReader p i j (hmay hi) (hmay hj)
  · exact fun p i j hi hj => htied.oneWriter p i j (hmay hi) (hmay hj)
  · intro p i hold
    rcases hholds hold with hold | ⟨-, he | he⟩
    · exact Nat.lt_succ_of_lt (htied.readings p i hold)
    · cases he
    · cases he
      exact Nat.lt_succ_self _
  · intro p i hold
    rcases hholds hold with hold | ⟨-, he | he⟩
    · exact Nat.lt_succ_of_lt (htied.writings p i hold)
    · cases he
      exact Nat.lt_succ_self _
    · cases he
  · intro p hp
    rcases Nat.lt_succ_iff_lt_or_eq.1 hp with hp | rfl
    · obtain ⟨fd, hfd⟩ := hequipped.kept p hp
      exact ⟨fd, by rw [hkeep (by simp [hfd]), hfd]⟩
    · exact ⟨consumer, hreads⟩
  · rw [hinput]
    exact hfeeds.isOpen
  · intro p hp i hi
    exact hfeeds.unread p (hinput ▸ hp) i (hmay hi)
  · intro p hp j hold
    rw [hinput] at hp
    rw [hlength]
    exact hfeeds.before p hp j (hwritten (hread hp) hold)
  · rw [hinput]
    exact hfeeds.notWriting
  · intro fd hfd
    rcases hcases hfd with ⟨hfd, -⟩ | ⟨-, he⟩ | hsame
    · exact hfd
    · cases he
    · exact absurd ⟨task, htask, fd, hsame⟩ (hwriting 0)
  · exact fun i hi => hreading i (hmay hi).holds
  · rw [hinput]
    exact fun hp => Nat.lt_irrefl _ (hread hp)
  · intro j hold
    rcases hholds hold with hold | ⟨hj, -⟩
    · exact absurd hold (hwriting j)
    · exact hj

/-- The child gets the next number. -/
theorem getElem?_forked {s : List Task} {self child task : Task} {pid j : Nat}
    (h : (s.set pid self ++ (some child).toList)[j]? = some task) :
    task = self ∧ j = pid ∨ s[j]? = some task ∧ j ≠ pid ∨ task = child ∧ j = s.length := by
  rcases getElem?_step h with hself | hother | hnew
  · exact .inl hself
  · exact .inr (.inl hother)
  · rcases Nat.lt_trichotomy j s.length with hlt | heq | hgt
    · rw [List.getElem?_append_left (by simpa using hlt)] at h
      by_cases hj : j = pid
      · subst hj
        rw [List.getElem?_set_self hlt] at h
        cases h
        exact .inl ⟨rfl, rfl⟩
      · rw [List.getElem?_set_ne (Ne.symm hj)] at h
        exact .inr (.inl ⟨h, hj⟩)
    · exact .inr (.inr ⟨(Option.mem_some.1 hnew).symm, heq⟩)
    · rw [List.getElem?_eq_none (by simpa using Nat.succ_le_of_lt hgt)] at h
      cases h

/-- The `fork` of a child. -/
private theorem continues_forked {inChild : Process} (htied : k.Tied) (htask : k.tasks[0]? = some task)
    (hequipped : k.Equipped own task.files) (hold : task.process.control.Original) (horiginal : self.control.Original)
    (hready : stage.Ready k task.files) (hcall : stage.call = some (inputFd, outputFd, stage'))
    (hchild : ∀ image, Task.MayRun ⟨inChild, task.image⟩ image →
      image = ⟨argv, (task.files.dup2 inputFd stdinFileno).dup2 outputFd stdoutFileno⟩)
    (hfits : ∀ k', stage'.Ready k' task.files → self.control.Fits k' task.files) :
    Kernel.Continues ⟨k.tasks.set 0 (.of self task.image) ++ (some (Task.of inChild task.image)).toList, k.pipes⟩ own
      self task.files := by
  set k' : Kernel := ⟨k.tasks.set 0 (.of self task.image) ++ (some (Task.of inChild task.image)).toList, k.pipes⟩
    with hk'
  have hlength : k'.tasks.length = k.tasks.length + 1 := by simp [hk']
  have hholds : ∀ {j e}, k'.Holds j e → k.Holds j e ∨ j = k.tasks.length ∧ k.Holds 0 e := by
    rintro j e ⟨task', htask', he⟩
    rcases getElem?_forked htask' with ⟨rfl, rfl⟩ | ⟨hsame, -⟩ | ⟨rfl, rfl⟩
    · exact .inl ⟨task, htask, Task.holds_of he⟩
    · exact .inl ⟨task', hsame, he⟩
    · exact .inr ⟨rfl, task, htask, Task.holds_of he⟩
  have hmay : ∀ {j fd e}, k'.MayRun j fd e → k.MayRun j fd e ∨ j = k.tasks.length ∧
      (task.files.dup2 inputFd stdinFileno).dup2 outputFd stdoutFileno fd = some e := by
    rintro j fd e ⟨task', image, htask', hrun, hfd⟩
    rcases getElem?_forked htask' with ⟨rfl, rfl⟩ | ⟨hsame, -⟩ | ⟨rfl, rfl⟩
    · exact absurd hrun (Task.not_mayRun horiginal)
    · exact .inl ⟨task', image, hsame, hrun, hfd⟩
    · rw [hchild image (Task.mayRun_of hrun)] at hfd
      exact .inr ⟨rfl, hfd⟩
  have hnobody : ∀ {fd e}, ¬k.MayRun 0 fd e := by
    rintro fd e ⟨task', image, htask', hrun, -⟩
    obtain rfl : task = task' := Option.some_inj.1 (htask.symm.trans htask')
    exact Task.not_mayRun hold hrun
  obtain ⟨hfeeds, hsink⟩ := hready.feeds hcall
  -- what the child is to read and to write are the ends that the globals name
  have hstdin : ∀ {p}, (task.files.dup2 inputFd stdinFileno).dup2 outputFd stdoutFileno stdinFileno =
      some (.reading p) → task.files inputFd = some (.reading p) := by
    intro p hp
    rcases DescriptorTable.dup2_eq_some hp with ⟨hfd, -⟩ | hp
    · cases hfd
    · rcases DescriptorTable.dup2_eq_some hp with ⟨-, hp⟩ | hp
      · exact hp
      · rw [hequipped.stdin] at hp
        cases hp
  have hstdout : ∀ {p}, (task.files.dup2 inputFd stdinFileno).dup2 outputFd stdoutFileno stdoutFileno =
      some (.writing p) → task.files outputFd = some (.writing p) := by
    intro p hp
    rcases DescriptorTable.dup2_eq_some hp with ⟨-, hp⟩ | hp
    · rcases DescriptorTable.dup2_eq_some hp with ⟨-, hp⟩ | hp
      · exact absurd hp (hfeeds.notWriting p)
      · exact hp
    · rcases DescriptorTable.dup2_eq_some hp with ⟨hfd, -⟩ | hp
      · cases hfd
      · rw [hequipped.stdout] at hp
        cases hp
  have hequipped' : k'.Equipped own task.files := ⟨hequipped.toOwns, hequipped.kept⟩
  have htied' : k'.Tied := by
    refine ⟨?_, ?_, ?_, ?_, ?_⟩
    · intro p i j hi hj
      rcases hmay hi with hi | ⟨rfl, hp⟩
      · rcases hholds hj with hj | ⟨-, hj⟩
        · exact htied.feeds p i j hi hj
        · exact absurd rfl (htied.feeds p i 0 hi hj).1
      · rcases hholds hj with hj | ⟨-, hj⟩
        · exact hfeeds.before p (hstdin hp) j hj
        · exact absurd rfl (hfeeds.before p (hstdin hp) 0 hj).1
    · intro p i j hi hj
      rcases hmay hi with hi | ⟨rfl, hpi⟩
      · rcases hmay hj with hj | ⟨-, hpj⟩
        · exact htied.oneReader p i j hi hj
        · exact absurd hi (hfeeds.unread p (hstdin hpj) i)
      · rcases hmay hj with hj | ⟨rfl, -⟩
        · exact absurd hj (hfeeds.unread p (hstdin hpi) j)
        · rfl
    · intro p i j hi hj
      rcases hmay hi with hi | ⟨rfl, hpi⟩
      · rcases hmay hj with hj | ⟨-, hpj⟩
        · exact htied.oneWriter p i j hi hj
        · obtain rfl := hsink p (hstdout hpj) i hi.holds
          exact absurd hi hnobody
      · rcases hmay hj with hj | ⟨rfl, -⟩
        · obtain rfl := hsink p (hstdout hpi) j hj.holds
          exact absurd hj hnobody
        · rfl
    · intro p i hp
      rcases hholds hp with hp | ⟨-, hp⟩
      · exact htied.readings p i hp
      · exact htied.readings p 0 hp
    · intro p i hp
      rcases hholds hp with hp | ⟨-, hp⟩
      · exact htied.writings p i hp
      · exact htied.writings p 0 hp
  refine ⟨htied', fun _ => ⟨hequipped', hfits k' ?_⟩⟩
  cases stage with
  | command =>
    cases hcall
    exact hequipped'.ready
  | piping input consumer producer =>
    cases hcall
    obtain ⟨-, p, hbetween, hne, hj⟩ := hready
    refine ⟨p, ⟨hbetween.reads, hbetween.writes, hbetween.once, fun i hi => ?_⟩, fun j hp => ?_⟩
    · rcases hmay hi with hi | ⟨-, hp⟩
      · exact hbetween.unread i hi
      · exact hne (hstdin hp)
    · rcases hholds hp with hp | ⟨rfl, -⟩
      · exact .inl (hj j hp)
      · exact .inr hlength.symm
  | closing => cases hcall

/-- A step of the shell. -/
private theorem shell_step {child : Option Process} {image : Image} {pipes : Nat} {outcome : Outcome} (htied : k.Tied)
    (htask : k.tasks[0]? = some task) (hold : task.process.control.Original) (hequipped : k.Equipped own task.files)
    (hfits : task.process.control.Fits k task.files) (hself : self.control.Original) (hpiped : outcome ≠ .piped none)
    (hmove : Move pathDirList home k.tasks.length task.process.oldDir task.image k.pipes task.process.control outcome
      self child image pipes) :
    Kernel.Continues ⟨k.tasks.set 0 (.of self image) ++ (child.map (Task.of · image)).toList, pipes⟩ own self
      image.files := by
  obtain ⟨⟨control, oldDir⟩, held⟩ := task
  cases hmove with
  | typed hline =>
    exact continues_same htied htask hequipped hself (resume_fits (parseLoop_follows ..) hequipped.ready)
  | noLine hline => exact continues_same htied htask hequipped hself trivial
  | openFailed =>
    obtain ⟨stage, ⟨⟨inputFd, outputFd, rfl⟩, hnext⟩, hready⟩ := hfits
    exact continues_same htied htask hequipped hself (resume_fits (hnext none) (hready.openFailed hequipped))
  | opened hfree =>
    obtain ⟨stage, ⟨⟨inputFd, outputFd, rfl⟩, hnext⟩, hready⟩ := hfits
    exact continues_opened htied htask hequipped hself hfree hready fun k' h => resume_fits (hnext _) h
  | pipeFailed => exact absurd rfl hpiped
  | piped hconsumer hproducer hends =>
    obtain ⟨stage, ⟨inputFd, outputFd, rfl, hnext⟩, hready⟩ := hfits
    exact continues_piped htied htask hequipped hself hconsumer hproducer hends hready fun k' files' h =>
      resume_fits (hnext _ _) h
  | called =>
    obtain ⟨stage, ⟨stage', hcall, hnext⟩, hready⟩ := hfits
    refine continues_same htied htask hequipped hself ?_
    rcases runProgram_cases pathDirList home with hexit | ⟨-, hquiet⟩ | ⟨-, hforks⟩
    · rw [hexit]
      trivial
    · exact enter_fits hquiet hnext (hready.call hequipped hcall)
    · exact enter_fits_forks hcall hforks hnext hready
  | closed =>
    obtain ⟨stage, ⟨consumer, rfl, hnext⟩, hready⟩ := hfits
    exact continues_closed htied htask hequipped hself hready fun k' h => resume_fits hnext h
  | error =>
    obtain ⟨stage, hnext, hready⟩ := hfits
    exact continues_same htied htask hequipped hself (resume_fits hnext hready)
  | ran hbody hquiet houtcome =>
    obtain ⟨stage, hready, ⟨hrun, hrest⟩ | ⟨argv, inputFd, outputFd, stage', -, hforks, -⟩⟩ := hfits
    · exact continues_same htied htask hequipped hself (enter_fits (hquiet hrun) hrest hready)
    · exact absurd hforks (hbody _ _ _)
  | forkFailed =>
    obtain ⟨stage, hready, ⟨hrun, -⟩ | ⟨argv, inputFd, outputFd, stage', hcall, hforks, hrest⟩⟩ := hfits
    · cases hrun
    · exact continues_same htied htask hequipped hself
        (enter_fits (hforks.2 none) hrest (hready.call hequipped hcall))
  | forked =>
    obtain ⟨stage, hready, ⟨hrun, -⟩ | ⟨argv, inputFd, outputFd, stage', hcall, hforks, hrest⟩⟩ := hfits
    · cases hrun
    · exact continues_forked htied htask hequipped hold hself hready hcall
        (fun image h => hforks.1 _ _ (enter_mayRun h)) fun k' h => enter_fits (hforks.2 _) hrest h

end Shell

/-! ### Whole sessions -/

private theorem Kernel.system_getElem? {k : Kernel} {pid : Nat} {task : Task} (h : k.tasks[pid]? = some task) :
    k.system[pid]? = some task.process := by
  rw [Kernel.system, List.getElem?_map, h]
  rfl

theorem Kernel.Plumbed.original {k : Kernel} {task : Task} (h : k.Plumbed own) (htask : k.tasks[0]? = some task) :
    task.process.control.Original := by
  obtain ⟨root, hroot, horiginal⟩ := h.sound.original
  obtain rfl : root = task.process := Option.some_inj.1 (hroot.symm.trans (Kernel.system_getElem? htask))
  exact horiginal

theorem Kernel.Plumbed.child {k : Kernel} {pid : Nat} {task : Task} (h : k.Plumbed own)
    (htask : k.tasks[pid]? = some task) (hpid : pid ≠ 0) : task.process.control.Child :=
  h.sound.children pid _ (Kernel.system_getElem? htask) hpid

theorem Kernel.Plumbed.step {k k' : Kernel} {act : Act} {u : Unit} (h : k.Plumbed own)
    (hact : act.outcome ≠ .execed false ∧ act.outcome ≠ .piped none)
    (hstep : k.step pathDirList home act = some (u, k')) : k'.Plumbed own := by
  have hsound : Sound k'.system := h.sound.step hact.1 (Kernel.step_system hstep)
  obtain ⟨task, self, child, image, pipes, htask, hprocess, heffect, rfl⟩ := Kernel.step_cases hstep
  by_cases hpid : act.pid = 0
  · rw [hpid] at htask hsound ⊢
    have horiginal := h.original htask
    have hself : self.control.Original := by
      obtain ⟨root', hroot', horiginal'⟩ := hsound.original
      rw [Kernel.system, List.getElem?_map, getElem?_step_self htask] at hroot'
      cases hroot'
      exact horiginal'
    have hcontrol : task.process.control ≠ .ended := Process.not_ended hprocess
    obtain ⟨hequipped, hfits⟩ := h.shell task htask hcontrol
    obtain ⟨htied, hshell⟩ := shell_step h.tied htask horiginal hequipped hfits hself hact.2
      (Process.step_move horiginal hprocess heffect)
    refine ⟨hsound, htied, fun task' htask' hgoes => ?_⟩
    rw [getElem?_step_self htask] at htask'
    cases htask'
    have hself : Task.of self image = ⟨self, image⟩ := Task.of_eq hgoes
    have himage : (Task.of self image).image = image := congrArg Task.image hself
    rw [Task.files, himage]
    exact hshell hgoes
  · have hchild := h.child htask hpid
    obtain ⟨rfl, -⟩ := Process.step_child hchild hprocess
    obtain ⟨rfl, hholds, hmay⟩ := Task.child_step hchild hprocess heffect
    have hbelow := k.below_set htask (fun p => hholds _) (fun p => hholds _) hmay
    refine ⟨hsound, h.tied.below hbelow, fun task' htask' hgoes => ?_⟩
    rcases getElem?_step htask' with ⟨-, heq⟩ | ⟨hsame, -⟩ | hnew
    · exact absurd heq.symm hpid
    · obtain ⟨hequipped, hfits⟩ := h.shell task' hsame hgoes
      exact ⟨hequipped.below hbelow, hfits.below hbelow⟩
    · cases hnew

theorem plumbed_boot {image : Image} (himage : Standard own image.files) : (boot image).Plumbed own := by
  have hpipe : ∀ {i e}, (boot image).Holds i e → ∃ n, e = .inherited n := by
    rintro i e ⟨task, htask, fd, hfd⟩
    cases i with
    | zero =>
      cases htask
      exact (himage.inherited fd e hfd).2
    | succ i => cases htask
  have hrun : ∀ {i fd e}, ¬(boot image).MayRun i fd e := by
    rintro i fd e ⟨task, image', htask, hmay, -⟩
    cases i with
    | zero =>
      cases htask
      exact hmay
    | succ i => cases htask
  refine ⟨sound_start, ⟨fun p i j h => absurd h hrun, fun p i j h => absurd h hrun, fun p i j h => absurd h hrun,
    fun p i h => ?_, fun p i h => ?_⟩, fun task htask _ => ?_⟩
  · obtain ⟨n, hn⟩ := hpipe h
    cases hn
  · obtain ⟨n, hn⟩ := hpipe h
    cases hn
  · cases htask
    exact ⟨⟨⟨fun fd e he => (himage.inherited fd e he).1, himage.stdin, himage.stdout⟩,
      fun p hp => absurd hp (Nat.not_lt_zero p)⟩, trivial⟩

private theorem plumbed_of_run {image : Image} {acts : List Act} {bs : List Unit} {k : Kernel}
    (himage : Standard own image.files)
    (hacts : ∀ act ∈ acts, act.outcome ≠ .execed false ∧ act.outcome ≠ .piped none)
    (h : run (Kernel.step pathDirList home) (boot image) acts = some (bs, k)) : k.Plumbed own := by
  have hstep : ∀ k act u k', Kernel.Plumbed k own → act.outcome ≠ .execed false ∧ act.outcome ≠ .piped none →
      k.step pathDirList home act = some (u, k') → k'.Plumbed own :=
    fun k act u k' hk hact hstep => hk.step hact hstep
  exact run_invariant hstep (plumbed_boot himage) hacts h

/-- In every session in which no `pipe` and no `execv` fails the programs are wired as their pipelines say: the end of
what a program reads comes when the program before it has ended. -/
theorem wired {image : Image} {acts : List Act} {bs : List Unit} {k : Kernel} (himage : Standard own image.files)
    (hacts : ∀ act ∈ acts, act.outcome ≠ .execed false ∧ act.outcome ≠ .piped none)
    (h : run (Kernel.step pathDirList home) (boot image) acts = some (bs, k)) : k.Wired := by
  have hplumbed : k.Plumbed own := plumbed_of_run himage hacts h
  exact {
    feeds := fun p i j hi hj => hplumbed.tied.feeds p i j hi.mayRun hj
    oneReader := fun p i j hi hj => hplumbed.tied.oneReader p i j hi.mayRun hj.mayRun
    oneWriter := fun p i j hi hj => hplumbed.tied.oneWriter p i j hi.mayRun hj.mayRun
    kept := fun p hp task htask hgoes => (hplumbed.shell task htask hgoes).1.kept p hp }

/-- The shell on a terminal. -/
def terminal : Files := fun fd => if 0 ≤ fd ∧ fd ≤ 2 then some (.inherited fd) else none

theorem standard_terminal : Standard (0, 1) terminal where
  inherited fd e h := by
    unfold terminal at h
    split at h
    · rename_i hfd
      cases h
      exact ⟨hfd.1, fd, rfl⟩
    · cases h
  stdin := rfl
  stdout := rfl

/-- The line `x|x`, whose writing end the shell closes before it starts the second program. -/
def pipeline : List Act :=
  [⟨0, .typed [120, 124, 120, 10] (0, 0)⟩, ⟨0, .piped (some (3, 4))⟩, ⟨0, .called [] []⟩, ⟨0, .forked true⟩,
    ⟨1, .accessed true⟩, ⟨0, .done⟩, ⟨0, .called [] []⟩, ⟨0, .forked true⟩, ⟨2, .accessed true⟩, ⟨1, .done⟩,
    ⟨2, .done⟩, ⟨2, .execed true⟩, ⟨1, .execed true⟩]

theorem wired_pipeline :
    ∃ bs k, run (Kernel.step [[98]] none) (boot ⟨[], terminal⟩) pipeline = some (bs, k) ∧ k.Wired ∧
      k.Runs 1 stdoutFileno (.writing 0) ∧ k.Runs 2 stdinFileno (.reading 0) := by
  have hacts : ∀ act ∈ pipeline, act.outcome ≠ .execed false ∧ act.outcome ≠ .piped none := by decide
  refine ⟨_, _, rfl, ?_, ⟨_, rfl, rfl, rfl⟩, ⟨_, rfl, rfl, rfl⟩⟩
  exact wired standard_terminal hacts (rfl : run (Kernel.step [[98]] none) (boot ⟨[], terminal⟩) pipeline = _)

end Edaf35.Shell
