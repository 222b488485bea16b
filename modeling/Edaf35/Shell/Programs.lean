import Edaf35.Shell.Redirection

/-!
# The programs of a session

The lines of a session say which programs are to run, with which arguments, and where the standard input and output
of each lead.  Whatever order the processes take their steps in, the programs that the shell has started when it is
about to read another line are those of the lines read so far, one process for each.
-/

namespace Edaf35.Shell

/-- `cd` is carried out by the shell itself; `exit` ends it. -/
def Command.startsProcess (command : Command) : Bool := command.argv.headD [] ≠ cdName

/-- The commands of one more line that start a process. -/
def spelledNext (own : Int × Int) (so : List Command × Nat) (line : List UInt8 × List Bool) : List Command × Nat :=
  let more := wiring own [] (.inherited own.1) (.inherited own.2) so.2 line.2 (joinedReading line.1)
  (so.1 ++ more.1.filter Command.startsProcess, more.2)

/-- The commands that start a process, for lines with the outcomes of their `open` calls, and the number of pipes. -/
def spelled (own : Int × Int) (lines : List (List UInt8 × List Bool)) : List Command × Nat :=
  lines.foldl (spelledNext own) ([], 0)

/-- The line that is read in a step. -/
def Act.line (act : Act) : Option (List UInt8) :=
  match act.outcome with
  | .typed input _ => (fetchLine input).map Prod.fst
  | _ => none

/-- The outcome of an `open`. -/
def Act.opening (act : Act) : Option Bool :=
  match act.outcome with
  | .opened fd => some fd.isSome
  | _ => none

/-- No `execv`, `pipe` or `fork` fails, and no line that is read holds a null byte. -/
def Outcome.works : Outcome → Bool
  | .execed ok => ok
  | .piped ends => ends.isSome
  | .forked ok => ok
  | .typed input _ => (fetchLine input).all fun line => 0 ∉ line.1
  | _ => true

/-- The process runs the program of the command, or may come to. -/
def Task.Suits (task : Task) (command : Command) : Prop :=
  ∀ image, task.MayRun image → image.argv = command.argv ∧ image.files stdinFileno = some command.stdin ∧
    image.files stdoutFileno = some command.stdout

/-- There is one process for each command of the log, besides the shell. -/
structure Kernel.Carries (k : Kernel) (log : List Command) : Prop where
  length : k.tasks.length = log.length + 1
  suits : ∀ i command task, log[i]? = some command → k.tasks[i + 1]? = some task → task.Suits command

/-- In the middle of a line, after the commands of `log` have started, those in `pending` and then those of `rest` are
what is left of the line. -/
def Amid (own : Int × Int) (acts : List Act) (log : List Command) (files : Files) (pipes : Nat) (pending : List Command)
    (rest : Parse) : Prop :=
  ∃ lines text opens emitted, lines.map Prod.fst ++ [text] = acts.filterMap Act.line ∧
    lines.flatMap Prod.snd ++ opens = acts.filterMap Act.opening ∧
    log = (spelled own lines).1 ++ emitted.filter Command.startsProcess ∧
    ∀ opens' result, rest.Wires files pipes opens' result →
      wiring own [] (.inherited own.1) (.inherited own.2) (spelled own lines).2 (opens ++ opens') (joinedReading text) =
        (emitted ++ pending ++ result.1, result.2)

/-- Before a line, after the commands of `log`. -/
def Outset (own : Int × Int) (acts : List Act) (log : List Command) (pipes : Nat) : Prop :=
  ∃ lines, lines.map Prod.fst = acts.filterMap Act.line ∧ lines.flatMap Prod.snd = acts.filterMap Act.opening ∧
    spelled own lines = (log, pipes)

/-- Where the shell is in the lines. -/
def Control.Stands (own : Int × Int) (acts : List Act) (log : List Command) (files : Files) (pipes : Nat) :
    Control → Prop
  | .reading => Outset own acts log pipes
  | .parsing rest => Amid own acts log files pipes [] rest
  | .running body rest => body.Quiet ∧ Amid own acts log files pipes [] rest ∨
    ∃ argv inputFd outputFd stdin stdout, argv.headD [] ≠ cdName ∧ body.Forks argv inputFd outputFd ∧
      (files.dup2 inputFd stdinFileno).dup2 outputFd stdoutFileno stdinFileno = some stdin ∧
      (files.dup2 inputFd stdinFileno).dup2 outputFd stdoutFileno stdoutFileno = some stdout ∧
      Amid own acts log files pipes [⟨argv, stdin, stdout⟩] rest
  | _ => True

/-- The processes of a session are those of the commands in the lines that were read, in this order.  Each of them that
has come to its program runs it with the arguments, the standard input and the standard output of its command. -/
def Kernel.RunsLines (k : Kernel) (own : Int × Int) (acts : List Act) : Prop :=
  ∃ lines, lines.map Prod.fst = acts.filterMap Act.line ∧ lines.flatMap Prod.snd = acts.filterMap Act.opening ∧
    k.tasks.length = (spelled own lines).1.length + 1 ∧
    ∀ i command task, (spelled own lines).1[i]? = some command → k.tasks[i + 1]? = some task →
      task.process.control = .replaced → task.image.argv = command.argv ∧
        task.files stdinFileno = some command.stdin ∧ task.files stdoutFileno = some command.stdout

/-! ### Along a line -/

section Line

variable {own : Int × Int} {acts : List Act} {act : Act} {log : List Command} {files : Files} {pipes : Nat}
  {pending : List Command} {rest : Parse} {command : Command}

/-- A step that neither reads a line nor opens a file. -/
private theorem Amid.snoc (h : Amid own acts log files pipes pending rest) (hline : act.line = none)
    (hopening : act.opening = none) : Amid own (acts ++ [act]) log files pipes pending rest := by
  obtain ⟨lines, text, opens, emitted, hlines, hopens, hlog, hrest⟩ := h
  refine ⟨lines, text, opens, emitted, ?_, ?_, hlog, hrest⟩
  · rw [List.filterMap_append, ← hlines]
    simp [hline]
  · rw [List.filterMap_append, ← hopens]
    simp [hopening]

private theorem Control.Stands.snoc {control : Control} (h : control.Stands own acts log files pipes)
    (hline : act.line = none) (hopening : act.opening = none) :
    control.Stands own (acts ++ [act]) log files pipes := by
  cases control with
  | reading =>
    obtain ⟨lines, hlines, hopens, hlog⟩ := h
    refine ⟨lines, ?_, ?_, hlog⟩
    · rw [List.filterMap_append, ← hlines]
      simp [hline]
    · rw [List.filterMap_append, ← hopens]
      simp [hopening]
  | parsing rest => exact Amid.snoc h hline hopening
  | running body rest =>
    rcases h with ⟨hbody, h⟩ | ⟨argv, inputFd, outputFd, stdin, stdout, hargv, hbody, hstdin, hstdout, h⟩
    · exact .inl ⟨hbody, h.snoc hline hopening⟩
    · exact .inr ⟨argv, inputFd, outputFd, stdin, stdout, hargv, hbody, hstdin, hstdout, h.snoc hline hopening⟩
  | replaced | ended => trivial

/-- The line is read. -/
private theorem Outset.typed {text : List UInt8} (h : Outset own acts log pipes) (hline : act.line = some text)
    (hopening : act.opening = none)
    (hrest : ∀ opens result, rest.Wires files pipes opens result →
      result = wiring own [] (.inherited own.1) (.inherited own.2) pipes opens (joinedReading text)) :
    Amid own (acts ++ [act]) log files pipes [] rest := by
  obtain ⟨lines, hlines, hopens, hlog⟩ := h
  refine ⟨lines, text, [], [], ?_, ?_, by simp [hlog], fun opens result hwires => ?_⟩
  · rw [List.filterMap_append, ← hlines]
    simp [hline]
  · rw [List.filterMap_append, ← hopens]
    simp [hopening]
  · rw [hlog]
    exact (hrest opens result hwires).symm

/-- The line is over. -/
private theorem Amid.ret (h : Amid own acts log files pipes [] .ret) : Outset own acts log pipes := by
  obtain ⟨lines, text, opens, emitted, hlines, hopens, hlog, hrest⟩ := h
  refine ⟨lines ++ [(text, opens)], by simpa using hlines, by simpa using hopens, ?_⟩
  have hwiring := hrest [] ([], pipes) ⟨rfl, rfl⟩
  simp only [List.append_nil] at hwiring
  rw [spelled, List.foldl_append]
  change spelledNext own (spelled own lines) (text, opens) = _
  rw [spelledNext, hwiring, hlog]

/-- The outcome of an `open`. -/
private theorem Amid.opened {path : List UInt8} {mode : OpenMode} {next : Option Nat → Parse} {fd : Option Nat}
    (h : Amid own acts log files pipes [] (.openFile path mode next)) (hline : act.line = none)
    (hopening : act.opening = some fd.isSome) {files' : Files}
    (hnext : ∀ opens result, (next fd).Wires files' pipes opens result →
      (Parse.openFile path mode next).Wires files pipes (fd.isSome :: opens) result) :
    Amid own (acts ++ [act]) log files' pipes [] (next fd) := by
  obtain ⟨lines, text, opens, emitted, hlines, hopens, hlog, hrest⟩ := h
  refine ⟨lines, text, opens ++ [fd.isSome], emitted, ?_, ?_, hlog, fun opens' result hwires => ?_⟩
  · rw [List.filterMap_append, ← hlines]
    simp [hline]
  · rw [List.filterMap_append, ← hopens]
    simp [hopening]
  · rw [List.append_assoc]
    exact hrest _ _ (hnext opens' result hwires)

/-- A call that the line says nothing about. -/
private theorem Amid.next {next : Parse} {files' : Files} {pipes' : Nat}
    (h : Amid own acts log files pipes pending rest)
    (hnext : ∀ opens result, next.Wires files' pipes' opens result → rest.Wires files pipes opens result) :
    Amid own acts log files' pipes' pending next := by
  obtain ⟨lines, text, opens, emitted, hlines, hopens, hlog, hrest⟩ := h
  exact ⟨lines, text, opens, emitted, hlines, hopens, hlog, fun opens' result hwires =>
    hrest opens' result (hnext opens' result hwires)⟩

/-- A call of `run_program`. -/
private theorem Amid.called {call : Call} {inputFd outputFd : Int} {next : Parse} {stdin stdout : End}
    (h : Amid own acts log files pipes [] (.runProgram call inputFd outputFd next))
    (hstdin : (files.dup2 inputFd stdinFileno).dup2 outputFd stdoutFileno stdinFileno = some stdin)
    (hstdout : (files.dup2 inputFd stdinFileno).dup2 outputFd stdoutFileno stdoutFileno = some stdout) :
    Amid own acts log files pipes [⟨call.argv, stdin, stdout⟩] next := by
  obtain ⟨lines, text, opens, emitted, hlines, hopens, hlog, hrest⟩ := h
  refine ⟨lines, text, opens, emitted, hlines, hopens, hlog, fun opens' result hwires => ?_⟩
  rw [hrest opens' (before ⟨call.argv, stdin, stdout⟩ result) ⟨stdin, stdout, result, hstdin, hstdout, rfl, hwires⟩]
  simp [before]

/-- The pending command starts its process, or has none. -/
private theorem Amid.started (h : Amid own acts log files pipes [command] rest) :
    Amid own acts (log ++ [command].filter Command.startsProcess) files pipes [] rest := by
  obtain ⟨lines, text, opens, emitted, hlines, hopens, rfl, hrest⟩ := h
  refine ⟨lines, text, opens, emitted ++ [command], hlines, hopens, by simp, fun opens' result hwires => ?_⟩
  rw [hrest opens' result hwires, List.append_nil]

private theorem resume_stands (h : Amid own acts log files pipes [] rest) :
    (resume rest).Stands own acts log files pipes := by
  cases rest with
  | ret => exact h.ret
  | openFile | pipe | runProgram | close | error | fault => exact h

private theorem enter_stands {body : Run} {oldDir : Option (List UInt8)} (hbody : body.Quiet)
    (h : Amid own acts log files pipes [] rest) : (enter body rest oldDir).control.Stands own acts log files pipes := by
  cases body with
  | ret => exact resume_stands h
  | exit => trivial
  | getcwd | chdir | waitpid | error => exact .inl ⟨hbody, h⟩
  | fork | access | dup2 | execv => cases hbody

private theorem enter_stands_forks {body : Run} {oldDir : Option (List UInt8)} {argv : List (List UInt8)}
    {inputFd outputFd : Int} {stdin stdout : End} (hargv : argv.headD [] ≠ cdName)
    (hbody : body.Forks argv inputFd outputFd)
    (hstdin : (files.dup2 inputFd stdinFileno).dup2 outputFd stdoutFileno stdinFileno = some stdin)
    (hstdout : (files.dup2 inputFd stdinFileno).dup2 outputFd stdoutFileno stdoutFileno = some stdout)
    (h : Amid own acts log files pipes [⟨argv, stdin, stdout⟩] rest) :
    (enter body rest oldDir).control.Stands own acts log files pipes := by
  cases body with
  | fork => exact .inr ⟨argv, inputFd, outputFd, stdin, stdout, hargv, hbody, hstdin, hstdout, h⟩
  | ret | exit | getcwd | chdir | waitpid | error | access | dup2 | execv => cases hbody

variable {pathDirList : List (List UInt8)} {home : Option (List UInt8)} {n : Nat} {oldDir : Option (List UInt8)}
  {image image' : Image} {pipes' : Nat} {control : Control} {self : Process} {child : Option Process}

/-- A step of the shell: it starts the process of the next command, or none. -/
private theorem Move.stands
    (h : Move pathDirList home n oldDir image pipes control act.outcome self child image' pipes')
    (howns : Owns own image.files) (hworks : act.outcome.works)
    (hstands : control.Stands own acts log image.files pipes) :
    ∃ commands, self.control.Stands own (acts ++ [act]) (log ++ commands) image'.files pipes' ∧
      (child = none ∧ commands = [] ∨
        ∃ inChild command, child = some inChild ∧ commands = [command] ∧ (Task.of inChild image').Suits command) := by
  obtain ⟨pid, outcome⟩ := act
  cases h with
  | @typed input line rest pipeFd hline =>
    refine ⟨[], ?_, .inl ⟨rfl, rfl⟩⟩
    have h0 : 0 ∉ line := by simpa [Outcome.works, hline] using hworks
    rw [List.append_nil]
    have hact : Act.line ⟨pid, .typed input pipeFd⟩ = some line := by simp [Act.line, hline]
    refine resume_stands (hstands.typed hact rfl fun opens result hwires => ?_)
    rw [parseLine, gettokens_eq h0] at hwires
    exact parseLoop_wires howns (leads_of_eq howns.stdin) (leads_of_eq howns.stdout) (by decide) hwires
  | noLine => exact ⟨[], trivial, .inl ⟨rfl, rfl⟩⟩
  | openFailed =>
    refine ⟨[], ?_, .inl ⟨rfl, rfl⟩⟩
    rw [List.append_nil]
    exact resume_stands (hstands.opened rfl rfl fun opens result hwires => .inl ⟨opens, rfl, hwires⟩)
  | opened hfree =>
    refine ⟨[], ?_, .inl ⟨rfl, rfl⟩⟩
    rw [List.append_nil]
    exact resume_stands (hstands.opened rfl rfl fun opens result hwires => .inr ⟨_, opens, rfl, hfree, hwires⟩)
  | pipeFailed => cases hworks
  | piped hconsumer hproducer hends =>
    refine ⟨[], ?_, .inl ⟨rfl, rfl⟩⟩
    rw [List.append_nil]
    refine resume_stands (Amid.next (hstands.snoc rfl rfl) fun opens result hwires => ?_)
    exact ⟨_, _, hconsumer, hproducer, hends, hwires⟩
  | @called call inputFd outputFd next oldDirTmp buf =>
    refine ⟨[], ?_, .inl ⟨rfl, rfl⟩⟩
    rw [List.append_nil]
    have hopen : ∀ fd, image.files fd ≠ none →
        ∃ e, (image.files.dup2 inputFd stdinFileno).dup2 outputFd stdoutFileno fd = some e :=
      fun fd h => Option.ne_none_iff_exists'.1 (DescriptorTable.dup2_isOpen (DescriptorTable.dup2_isOpen h))
    obtain ⟨stdin, hstdin⟩ := hopen stdinFileno (by simp [howns.stdin])
    obtain ⟨stdout, hstdout⟩ := hopen stdoutFileno (by simp [howns.stdout])
    have hcalled := Amid.called hstands hstdin hstdout
    rcases runProgram_cases pathDirList home with hexit | ⟨hcd, hquiet⟩ | ⟨hcd, hforks⟩
    · rw [hexit]
      trivial
    · refine enter_stands hquiet (Amid.snoc ?_ rfl rfl)
      -- `cd` has no process
      have hstarted := hcalled.started
      rwa [List.filter_cons_of_neg (by simpa [Command.startsProcess] using hcd), List.filter_nil, List.append_nil]
        at hstarted
    · exact enter_stands_forks hcd hforks hstdin hstdout (hcalled.snoc rfl rfl)
  | closed =>
    refine ⟨[], ?_, .inl ⟨rfl, rfl⟩⟩
    rw [List.append_nil]
    exact resume_stands (Amid.next (hstands.snoc rfl rfl) fun opens result hwires => hwires)
  | error =>
    refine ⟨[], ?_, .inl ⟨rfl, rfl⟩⟩
    rw [List.append_nil]
    exact resume_stands (Amid.next (hstands.snoc rfl rfl) fun opens result hwires => hwires)
  | ran hbody hquiet houtcome =>
    refine ⟨[], ?_, .inl ⟨rfl, rfl⟩⟩
    rw [List.append_nil]
    rcases hstands with ⟨hrun, hamid⟩ | ⟨argv, inputFd, outputFd, stdin, stdout, -, hforks, -⟩
    · refine enter_stands (hquiet hrun) (hamid.snoc ?_ ?_)
      · rcases houtcome with ⟨dir, rfl⟩ | rfl <;> rfl
      · rcases houtcome with ⟨dir, rfl⟩ | rfl <;> rfl
    · exact absurd hforks (hbody _ _ _)
  | forkFailed => cases hworks
  | @forked inChild inParent rest =>
    rcases hstands with ⟨hrun, -⟩ | ⟨argv, inputFd, outputFd, stdin, stdout, hargv, hforks, hstdin, hstdout, hamid⟩
    · cases hrun
    · refine ⟨[⟨argv, stdin, stdout⟩], ?_, .inr ⟨_, ⟨argv, stdin, stdout⟩, rfl, rfl, fun image' hmay => ?_⟩⟩
      · refine enter_stands (hforks.2 _) (Amid.snoc ?_ rfl rfl)
        have hstarted := hamid.started
        rwa [List.filter_cons_of_pos (by simpa [Command.startsProcess] using hargv), List.filter_nil] at hstarted
      · rw [hforks.1 _ _ (enter_mayRun (Task.mayRun_of hmay))]
        exact ⟨rfl, hstdin, hstdout⟩

end Line

/-! ### Whole sessions -/

private theorem Outcome.works_execv {outcome : Outcome} (h : outcome.works) :
    outcome ≠ .execed false ∧ outcome ≠ .piped none := by
  refine ⟨?_, ?_⟩
  · rintro rfl
    cases h
  · rintro rfl
    cases h

variable {pathDirList : List (List UInt8)} {home : Option (List UInt8)} {own : Int × Int}

/-- The children read no lines and open no files. -/
private theorem Process.step_silent {n : Nat} {self self' : Process} {child : Option Process} {act : Act}
    (hself : self.control.Child) (h : self.step pathDirList home n act.outcome = some (self', child)) :
    act.line = none ∧ act.opening = none := by
  obtain ⟨pid, outcome⟩ := act
  obtain ⟨control, oldDir⟩ := self
  cases outcome with
  | typed input pipeFd =>
    cases control with
    | reading | parsing => cases hself
    | replaced | ended => cases h
    | running body rest => cases body <;> cases h
  | opened fd =>
    cases control with
    | reading | parsing => cases hself
    | replaced | ended => cases h
    | running body rest => cases body <;> cases h
  | piped | called | cwd | forked | accessed | execed | done => exact ⟨rfl, rfl⟩

/-- What is said of a session: the commands that have started, and where the shell is in its lines. -/
def Kernel.Spells (k : Kernel) (own : Int × Int) (acts : List Act) : Prop :=
  ∃ log, k.Carries log ∧
    ∀ task, k.tasks[0]? = some task → task.process.control.Stands own acts log task.files k.pipes

private theorem Kernel.Carries.set {k : Kernel} {log : List Command} {pid pipes : Nat} {task task' : Task}
    (h : k.Carries log) (htask : k.tasks[pid]? = some task) (hmay : ∀ image, task'.MayRun image → task.MayRun image) :
    Kernel.Carries ⟨k.tasks.set pid task' ++ (none : Option Task).toList, pipes⟩ log := by
  refine ⟨by simpa using h.length, fun i command found hcommand hfound => ?_⟩
  rcases getElem?_step hfound with ⟨rfl, rfl⟩ | ⟨hsame, -⟩ | hnew
  · exact fun image himage => h.suits i command task hcommand htask image (hmay image himage)
  · exact h.suits i command found hcommand hsame
  · cases hnew

private theorem Kernel.Carries.fork {k : Kernel} {log : List Command} {pipes : Nat} {shell child : Task}
    {command : Command} (h : k.Carries log) (hchild : child.Suits command) :
    Kernel.Carries ⟨k.tasks.set 0 shell ++ (some child).toList, pipes⟩ (log ++ [command]) := by
  refine ⟨by simp [h.length], fun i command' found hcommand hfound => ?_⟩
  rcases getElem?_forked hfound with ⟨-, hi⟩ | ⟨hsame, -⟩ | ⟨rfl, hi⟩
  · omega
  · have hlt : i + 1 < k.tasks.length := (List.getElem?_eq_some_iff.1 hsame).1
    rw [List.getElem?_append_left (by have := h.length; omega)] at hcommand
    exact h.suits i command' found hcommand hsame
  · have hlog : i = log.length := by have := h.length; omega
    rw [hlog, List.getElem?_append_right (Nat.le_refl _), Nat.sub_self] at hcommand
    cases hcommand
    exact hchild

private theorem Kernel.Spells.step {k k' : Kernel} {acts : List Act} {act : Act} {u : Unit} (h : k.Spells own acts)
    (hplumbed : k.Plumbed own) (hplumbed' : k'.Plumbed own) (hworks : act.outcome.works)
    (hstep : k.step pathDirList home act = some (u, k')) :
    k'.Spells own (acts ++ [act]) := by
  obtain ⟨log, hcarries, hstands⟩ := h
  obtain ⟨task, self, child, image, pipes, htask, hprocess, heffect, rfl⟩ := Kernel.step_cases hstep
  by_cases hpid : act.pid = 0
  · rw [hpid] at htask hplumbed' ⊢
    have horiginal := hplumbed.original htask
    have howns := (hplumbed.shell task htask (Process.not_ended hprocess)).1.toOwns
    obtain ⟨commands, hself, hchild⟩ :=
      (Process.step_move horiginal hprocess heffect).stands howns hworks (hstands task htask)
    refine ⟨log ++ commands, ?_, fun task' htask' => ?_⟩
    · rcases hchild with ⟨rfl, rfl⟩ | ⟨inChild, command, rfl, rfl, hsuits⟩
      · have hself' : self.control.Original := hplumbed'.original (getElem?_step_self htask)
        rw [List.append_nil]
        exact hcarries.set htask fun image' hmay => absurd hmay (Task.not_mayRun hself')
      · exact hcarries.fork hsuits
    · rw [getElem?_step_self htask] at htask'
      cases htask'
      by_cases hended : self.control = .ended
      · dsimp only [Task.of]
        rw [hended]
        trivial
      · rw [Task.of_eq hended]
        exact hself
  · have hchild := hplumbed.child htask hpid
    obtain ⟨hline, hopening⟩ := Process.step_silent hchild hprocess
    obtain ⟨rfl, -⟩ := Process.step_child hchild hprocess
    obtain ⟨rfl, -, hmay⟩ := Task.child_step hchild hprocess heffect
    refine ⟨log, hcarries.set htask hmay, fun task' htask' => ?_⟩
    rcases getElem?_step htask' with ⟨-, heq⟩ | ⟨hsame, -⟩ | hnew
    · exact absurd heq.symm hpid
    · exact Control.Stands.snoc (hstands task' hsame) hline hopening
    · cases hnew

/-- What a session in which nothing fails has come to. -/
private theorem plumbed_spells {image : Image} {acts : List Act} {bs : List Unit} {k : Kernel}
    (himage : Standard own image.files) (hworks : ∀ act ∈ acts, act.outcome.works)
    (h : run (Kernel.step pathDirList home) (boot image) acts = some (bs, k)) :
    k.Plumbed own ∧ k.Spells own acts := by
  have hstart : (boot image).Spells own [] := by
    refine ⟨[], ⟨rfl, fun i command task hcommand => by cases hcommand⟩, fun task htask => ?_⟩
    cases htask
    exact ⟨[], rfl, rfl, rfl⟩
  have hstep : ∀ acts k act b k', Kernel.Plumbed k own ∧ k.Spells own acts → act.outcome.works →
      k.step pathDirList home act = some (b, k') →
      (k'.Plumbed own ∧ k'.Spells own (acts ++ [act])) ∧ True := by
    rintro acts k act b k' ⟨hplumbed, hspells⟩ hact hstep
    have hplumbed' : k'.Plumbed own := hplumbed.step (Outcome.works_execv hact) hstep
    exact ⟨⟨hplumbed', hspells.step hplumbed hplumbed' hact hstep⟩, trivial⟩
  have hboot : (boot image).Plumbed own := plumbed_boot himage
  exact (run_history (Q := fun _ _ _ => True) hstep ⟨hboot, hstart⟩ hworks h).1

/-- When the shell is about to read another line, it has started the programs of the lines read so far. -/
theorem programs_spelled {image : Image} {acts : List Act} {bs : List Unit} {k : Kernel} {shell : Task}
    (himage : Standard own image.files) (hworks : ∀ act ∈ acts, act.outcome.works)
    (h : run (Kernel.step pathDirList home) (boot image) acts = some (bs, k)) (hshell : k.tasks[0]? = some shell)
    (hreading : shell.process.control = .reading) : k.RunsLines own acts := by
  obtain ⟨-, log, hcarries, hstands⟩ := plumbed_spells himage hworks h
  have houtset := hstands shell hshell
  rw [hreading] at houtset
  obtain ⟨lines, hlines, hopens, hlog⟩ := houtset
  have hlog' : (spelled own lines).1 = log := by rw [hlog]
  rw [← hlog'] at hcarries
  refine ⟨lines, hlines, hopens, hcarries.length, fun i command task hcommand htask hcontrol => ?_⟩
  refine hcarries.suits i command task hcommand htask task.image ?_
  unfold Task.MayRun
  rw [hcontrol]

/-- The line `x<f|x`. -/
def redirected : List Act :=
  [⟨0, .typed [120, 60, 102, 124, 120, 10] (0, 0)⟩, ⟨0, .opened (some 3)⟩, ⟨0, .piped (some (4, 5))⟩,
    ⟨0, .called [] []⟩, ⟨0, .forked true⟩, ⟨0, .done⟩, ⟨1, .accessed true⟩, ⟨1, .done⟩, ⟨1, .done⟩, ⟨0, .called [] []⟩,
    ⟨0, .forked true⟩, ⟨1, .execed true⟩, ⟨2, .accessed true⟩, ⟨2, .done⟩, ⟨2, .execed true⟩, ⟨0, .done⟩]

theorem programs_spelled_redirected :
    (∃ bs k, run (Kernel.step [[98]] none) (boot ⟨[], terminal⟩) redirected = some (bs, k) ∧
      k.RunsLines (0, 1) redirected) ∧
    spelled (0, 1) [([120, 60, 102, 124, 120, 10], [true])] =
      ([⟨[[120]], .file [102] .rdonly, .writing 0⟩, ⟨[[120]], .reading 0, .inherited 1⟩], 1) := by
  have hworks : ∀ act ∈ redirected, act.outcome.works := by decide
  refine ⟨⟨_, _, rfl, ?_⟩, by decide⟩
  exact programs_spelled standard_terminal hworks
    (rfl : run (Kernel.step [[98]] none) (boot ⟨[], terminal⟩) redirected = _) rfl rfl

end Edaf35.Shell
