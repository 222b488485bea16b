import Edaf35.Lib.Run
import Edaf35.Shell.RunProgram

/-!
# The processes of a session

A session starts with one process that reads lines, and each `fork` adds one.  The processes take their steps in any
order, and the outcomes of all calls are given from outside.  While every `execv` replaces the program, the children
never leave `run_program` and the process at 0 stays the one shell; a child whose `execv` fails returns to
`parse_line` and is a second one.
-/

namespace Edaf35.Shell

/-! ### Processes -/

/-- Where a process stands: in `fetch_line`, in `parse_line`, in `run_program` with the rest of `parse_line` to come,
in another program, or nowhere. -/
inductive Control
  | reading
  | parsing (rest : Parse)
  | running (body : Run) (rest : Parse)
  | replaced
  | ended

structure Process where
  control : Control
  oldDir : Option (List UInt8)

/-- The outcome of the call that a process makes next. -/
inductive Outcome
  | typed (input : List UInt8) (pipeFd : Int × Int)
  | opened (fd : Option Nat)
  | piped (ends : Option (Nat × Nat))
  | called (oldDirTmp buf : List UInt8)
  | cwd (dir : Option (List UInt8))
  | forked (ok : Bool)
  | accessed (ok : Bool)
  | execed (ok : Bool)
  | done
  deriving DecidableEq, Repr

/-- What `parse_line` goes on to do; `none` where its next call has no such outcome. -/
def Parse.step : Parse → Outcome → Option Parse
  | .openFile _ _ next, .opened fd => some (next fd)
  | .pipe next, .piped ends => some (next ends)
  | .close _ next, .done => some next
  | .error _ _ next, .done => some next
  | _, _ => none

/-- What `run_program` goes on to do in this process and in a child, whose number is `child`. -/
def Run.step (child : Nat) : Run → Outcome → Option (Run × Option Run)
  | .getcwd next, .cwd dir => some (next dir, none)
  | .chdir _ next, .done => some (next, none)
  | .fork inChild inParent, .forked true => some (inParent (some child), some inChild)
  | .fork _ inParent, .forked false => some (inParent none, none)
  | .access _ next, .accessed ok => some (next ok, none)
  | .dup2 _ _ next, .done => some (next, none)
  | .execv _ _ failed, .execed false => some (failed, none)
  | .waitpid _ next, .done => some (next, none)
  | .error _ next, .done => some (next, none)
  | _, _ => none

/-- `main` reads the next line when `parse_line` has returned. -/
def resume : Parse → Control
  | .ret => .reading
  | rest => .parsing rest

/-- `parse_line` goes on when `run_program` has returned. -/
def enter (body : Run) (rest : Parse) (oldDir : Option (List UInt8)) : Process :=
  match body with
  | .ret oldDir => ⟨resume rest, oldDir⟩
  | .exit _ => ⟨.ended, oldDir⟩
  | body => ⟨.running body rest, oldDir⟩

variable (pathDirList : List (List UInt8)) (home : Option (List UInt8))

/-- One call of a process: the process after it, and the child if it is a `fork`. -/
def Process.step (child : Nat) (self : Process) (outcome : Outcome) : Option (Process × Option Process) :=
  match self.control, outcome with
  | .reading, .typed input pipeFd =>
    match fetchLine input with
    | some (line, _) => some (⟨resume (parseLine line pipeFd), self.oldDir⟩, none)
    | none => some (⟨.ended, self.oldDir⟩, none)
  | .parsing (.runProgram call inputFd outputFd next), .called oldDirTmp buf =>
    some (enter (runProgram pathDirList home call inputFd outputFd self.oldDir oldDirTmp buf) next self.oldDir, none)
  | .parsing rest, outcome => (rest.step outcome).map fun next => (⟨resume next, self.oldDir⟩, none)
  | .running (.execv _ _ _) _, .execed true => some (⟨.replaced, self.oldDir⟩, none)
  | .running body rest, outcome =>
    (body.step child outcome).map fun (next, inChild) =>
      (enter next rest self.oldDir, inChild.map (enter · rest self.oldDir))
  | _, _ => none

structure Act where
  pid : Nat
  outcome : Outcome
  deriving DecidableEq, Repr

/-- A process is found under its number. -/
abbrev System := List Process

/-- The shell as `main` starts it. -/
def start : System := [⟨.reading, none⟩]

def step (processes : System) (act : Act) : Option (Unit × System) :=
  match processes[act.pid]? with
  | none => none
  | some self =>
    match self.step pathDirList home processes.length act.outcome with
    | none => none
    | some (self, child) => some ((), processes.set act.pid self ++ child.toList)

/-! ### One shell -/

/-- The process reads lines or carries one out. -/
def Control.InShell : Control → Prop
  | .reading => True
  | .parsing _ => True
  | _ => False

/-- The process at 0 has not become another program, and no other process reads lines or carries one out. -/
def OneShell (processes : System) : Prop :=
  (∃ self, processes[0]? = some self ∧ self.control ≠ .replaced) ∧
    ∀ pid self, processes[pid]? = some self → pid ≠ 0 → ¬self.control.InShell

/-- What a child has to do in `run_program`: nothing that leaves it, up to the `execv`. -/
def Run.InChild : Run → Prop
  | .access _ next => ∀ ok, (next ok).InChild
  | .dup2 _ _ next => next.InChild
  | .execv _ _ failed => ∃ oldDir, failed = .ret oldDir
  | _ => False

/-- What the shell has to do in `run_program`: no `execv` outside a child. -/
def Run.InParent : Run → Prop
  | .getcwd next => ∀ dir, (next dir).InParent
  | .chdir _ next => next.InParent
  | .fork inChild inParent => inChild.InChild ∧ ∀ child, (inParent child).InParent
  | .waitpid _ next => next.InParent
  | .error _ next => next.InParent
  | .exit _ => True
  | .ret _ => True
  | _ => False

private theorem searchPath_inChild {name : List UInt8} {dirs : List (List UInt8)} {buf : List UInt8}
    {next : List UInt8 → Run} (h : ∀ path, (next path).InChild) : (searchPath name dirs buf next).InChild := by
  induction dirs generalizing buf with
  | nil => exact h buf
  | cons dir dirs ih =>
    intro ok
    cases ok with
    | false => exact ih
    | true => exact h _

private theorem dup2Unless_inChild {fd fileno : Int} {next : Run} (h : next.InChild) :
    (dup2Unless fd fileno next).InChild := by
  unfold dup2Unless
  split
  · exact h
  · exact h

/-- `run_program` calls `execv` in a child only, and there returns when `execv` fails. -/
private theorem runProgram_inParent {call : Call} {inputFd outputFd : Int} {oldDir : Option (List UInt8)}
    {oldDirTmp buf : List UInt8} :
    (runProgram pathDirList home call inputFd outputFd oldDir oldDirTmp buf).InParent := by
  unfold runProgram
  dsimp only
  split
  · trivial
  split
  · split
    · trivial
    · intro cwd
      trivial
  refine ⟨searchPath_inChild fun path => dup2Unless_inChild (dup2Unless_inChild ⟨_, rfl⟩), fun child => ?_⟩
  split
  · trivial
  · dsimp only
    split
    · trivial
    · trivial

/-- The state of the process at 0. -/
def Control.Original : Control → Prop
  | .running body _ => body.InParent
  | .replaced => False
  | _ => True

/-- The state of a child while no `execv` has failed in it. -/
def Control.Child : Control → Prop
  | .running body _ => body.InChild
  | .replaced => True
  | .ended => True
  | _ => False

variable {pathDirList home}

private theorem resume_original (rest : Parse) : (resume rest).Original := by
  cases rest <;> trivial

private theorem resume_inShell (rest : Parse) : (resume rest).InShell := by
  cases rest <;> trivial

private theorem enter_original {body : Run} {rest : Parse} {oldDir : Option (List UInt8)} (h : body.InParent) :
    (enter body rest oldDir).control.Original := by
  cases body with
  | ret oldDir => exact resume_original rest
  | exit status => trivial
  | getcwd | chdir | fork | waitpid | error => exact h
  | access | dup2 | execv => cases h

private theorem enter_child {body : Run} {rest : Parse} {oldDir : Option (List UInt8)} (h : body.InChild) :
    (enter body rest oldDir).control.Child := by
  cases body with
  | access | dup2 | execv => exact h
  | ret | exit | getcwd | chdir | fork | waitpid | error => cases h

private theorem Run.step_inParent {n : Nat} {body next : Run} {inChild : Option Run} {outcome : Outcome}
    (hbody : body.InParent) (h : body.step n outcome = some (next, inChild)) :
    next.InParent ∧ ∀ q ∈ inChild, q.InChild := by
  fun_cases Run.step n body outcome with
  | case1 inner dir =>
    cases h
    exact ⟨hbody dir, by simp⟩
  | case2 | case8 | case9 =>
    cases h
    exact ⟨hbody, by simp⟩
  | case3 =>
    cases h
    exact ⟨hbody.2 _, by simpa using hbody.1⟩
  | case4 =>
    cases h
    exact ⟨hbody.2 _, by simp⟩
  | case5 | case6 | case7 => cases hbody
  | case10 hnone =>
    rw [Run.step.eq_def] at h
    split at h <;> simp_all

private theorem Run.step_inChild {n : Nat} {body next : Run} {inChild : Option Run} {outcome : Outcome}
    (hbody : body.InChild) (h : body.step n outcome = some (next, inChild)) :
    inChild = none ∧ if outcome = .execed false then ∃ oldDir, next = .ret oldDir else next.InChild := by
  cases body with
  | access path succ =>
    cases outcome with
    | accessed ok =>
      cases h
      exact ⟨rfl, hbody ok⟩
    | _ => cases h
  | dup2 oldFd newFd succ =>
    cases outcome with
    | done =>
      cases h
      exact ⟨rfl, hbody⟩
    | _ => cases h
  | execv path argv failed =>
    cases outcome with
    | execed ok =>
      cases ok with
      | true => cases h
      | false =>
        cases h
        exact ⟨rfl, hbody⟩
    | _ => cases h
  | ret | exit | getcwd | chdir | fork | waitpid | error => cases hbody

/-- A step of the process at 0. -/
private theorem Process.step_original {n : Nat} {self self' : Process} {child : Option Process} {outcome : Outcome}
    (hself : self.control.Original) (h : self.step pathDirList home n outcome = some (self', child)) :
    self'.control.Original ∧ ∀ p ∈ child, p.control.Child := by
  obtain ⟨control, oldDir⟩ := self
  unfold Process.step at h
  dsimp only at h hself
  split at h
  · split at h
    · cases h
      exact ⟨resume_original _, by simp⟩
    · cases h
      exact ⟨trivial, by simp⟩
  · cases h
    exact ⟨enter_original (runProgram_inParent pathDirList home), by simp⟩
  · obtain ⟨next, -, hnext⟩ := Option.map_eq_some_iff.1 h
    cases hnext
    exact ⟨resume_original _, by simp⟩
  · cases hself
  · obtain ⟨⟨next, inChild⟩, hstep, hnext⟩ := Option.map_eq_some_iff.1 h
    cases hnext
    obtain ⟨hparent, hchild⟩ := Run.step_inParent hself hstep
    refine ⟨enter_original hparent, fun p hp => ?_⟩
    obtain ⟨q, hq, rfl⟩ := Option.map_eq_some_iff.1 hp
    exact enter_child (hchild q hq)
  · cases h

/-- A step of a child: it stays one, except where `execv` fails. -/
theorem Process.step_child {n : Nat} {self self' : Process} {child : Option Process} {outcome : Outcome}
    (hself : self.control.Child) (h : self.step pathDirList home n outcome = some (self', child)) :
    child = none ∧ if outcome = .execed false then self'.control.InShell else self'.control.Child := by
  obtain ⟨control, oldDir⟩ := self
  unfold Process.step at h
  dsimp only at h hself
  split at h
  · cases hself
  · cases hself
  · cases hself
  · cases h
    exact ⟨rfl, trivial⟩
  · obtain ⟨⟨next, inChild⟩, hstep, hnext⟩ := Option.map_eq_some_iff.1 h
    cases hnext
    obtain ⟨rfl, hbody⟩ := Run.step_inChild hself hstep
    refine ⟨rfl, ?_⟩
    split
    · rename_i hexec
      rw [if_pos hexec] at hbody
      obtain ⟨oldDir', rfl⟩ := hbody
      exact resume_inShell _
    · rename_i hexec
      rw [if_neg hexec] at hbody
      exact enter_child hbody
  · cases h

/-- No `execv` is called by the process at 0. -/
private theorem Process.step_execFailed {n : Nat} {self : Process} (hself : self.control.Original) :
    self.step pathDirList home n (.execed false) = none := by
  obtain ⟨control, oldDir⟩ := self
  cases control with
  | parsing rest => cases rest <;> rfl
  | running body rest =>
    cases body with
    | execv => cases hself
    | _ => rfl
  | _ => rfl

/-- The process at 0 has the work of the shell before it, and the others that of a child. -/
structure Sound (processes : System) : Prop where
  original : ∃ self, processes[0]? = some self ∧ self.control.Original
  children : ∀ pid self, processes[pid]? = some self → pid ≠ 0 → self.control.Child

theorem sound_start : Sound start where
  original := ⟨_, rfl, trivial⟩
  children pid self h hpid := by
    obtain ⟨k, rfl⟩ := Nat.exists_eq_succ_of_ne_zero hpid
    cases h

private theorem Sound.oneShell {processes : System} (h : Sound processes) : OneShell processes := by
  obtain ⟨self, hself, horiginal⟩ := h.original
  refine ⟨⟨self, hself, fun hc => ?_⟩, fun pid p hp hpid hshell => ?_⟩
  · rw [hc] at horiginal
    exact horiginal
  · have hchild := h.children pid p hp hpid
    cases hcontrol : p.control with
    | reading | parsing => rw [hcontrol] at hchild; exact hchild
    | running | replaced | ended => rw [hcontrol] at hshell; exact hshell

private theorem step_cases {s s' : System} {act : Act} {u : Unit}
    (h : step pathDirList home s act = some (u, s')) :
    ∃ self self' child, s[act.pid]? = some self ∧
      self.step pathDirList home s.length act.outcome = some (self', child) ∧
      s' = s.set act.pid self' ++ child.toList := by
  unfold step at h
  split at h
  · cases h
  · rename_i self hself
    split at h
    · cases h
    · rename_i self' child hstep
      cases h
      exact ⟨self, self', child, hself, hstep, rfl⟩

/-- Who is found under a number after a step. -/
theorem getElem?_step {α : Type*} {s : List α} {pid k : Nat} {self p : α} {child : Option α}
    (h : (s.set k self ++ child.toList)[pid]? = some p) :
    p = self ∧ pid = k ∨ s[pid]? = some p ∧ pid ≠ k ∨ p ∈ child := by
  rcases Nat.lt_or_ge pid s.length with hlt | hge
  · rw [List.getElem?_append_left (by simpa using hlt)] at h
    by_cases hk : pid = k
    · subst hk
      rw [List.getElem?_set_self (by simpa using hlt)] at h
      cases h
      exact .inl ⟨rfl, rfl⟩
    · rw [List.getElem?_set_ne (Ne.symm hk)] at h
      exact .inr (.inl ⟨h, hk⟩)
  · rw [List.getElem?_append_right (by simpa using hge)] at h
    exact .inr (.inr (Option.mem_toList.1 (List.mem_of_getElem? h)))

theorem getElem?_step_self {α : Type*} {s : List α} {k : Nat} {self self' : α} {child : Option α}
    (h : s[k]? = some self) : (s.set k self' ++ child.toList)[k]? = some self' := by
  have hlt : k < s.length := (List.getElem?_eq_some_iff.1 h).1
  rw [List.getElem?_append_left (by simpa using hlt), List.getElem?_set_self hlt]

private theorem getElem?_step_other {α : Type*} {s : List α} {pid k : Nat} {self' p : α} {child : Option α}
    (h : s[pid]? = some p) (hk : pid ≠ k) : (s.set k self' ++ child.toList)[pid]? = some p := by
  have hlt : pid < s.length := (List.getElem?_eq_some_iff.1 h).1
  rw [List.getElem?_append_left (by simpa using hlt), List.getElem?_set_ne (Ne.symm hk), h]

theorem Sound.step {s s' : System} {act : Act} {u : Unit} (hs : Sound s) (hact : act.outcome ≠ .execed false)
    (h : Edaf35.Shell.step pathDirList home s act = some (u, s')) : Sound s' := by
  obtain ⟨self, self', child, hself, hstep, rfl⟩ := step_cases h
  obtain ⟨root, hroot, horiginal⟩ := hs.original
  by_cases hpid : act.pid = 0
  · rw [hpid] at hself
    obtain rfl : root = self := Option.some_inj.1 (hroot.symm.trans hself)
    obtain ⟨hself', hchild⟩ := Process.step_original horiginal hstep
    refine ⟨⟨self', ?_, hself'⟩, fun pid p hp hne => ?_⟩
    · rw [hpid]
      exact getElem?_step_self hself
    · rcases getElem?_step hp with ⟨-, hk⟩ | ⟨hold, -⟩ | hnew
      · exact absurd (hk.trans hpid) hne
      · exact hs.children pid p hold hne
      · exact hchild p hnew
  · obtain ⟨rfl, hself'⟩ := Process.step_child (hs.children _ _ hself hpid) hstep
    rw [if_neg hact] at hself'
    refine ⟨⟨root, getElem?_step_other hroot (Ne.symm hpid), horiginal⟩, fun pid p hp hne => ?_⟩
    rcases getElem?_step hp with ⟨rfl, -⟩ | ⟨hold, -⟩ | hnew
    · exact hself'
    · exact hs.children pid p hold hne
    · cases hnew

/-- The child whose `execv` fails becomes a second shell. -/
private theorem Sound.not_oneShell {s s' : System} {act : Act} {u : Unit} (hs : Sound s)
    (hact : act.outcome = .execed false) (h : Edaf35.Shell.step pathDirList home s act = some (u, s')) :
    ¬OneShell s' := by
  obtain ⟨self, self', child, hself, hstep, rfl⟩ := step_cases h
  obtain ⟨root, hroot, horiginal⟩ := hs.original
  have hpid : act.pid ≠ 0 := by
    intro hpid
    rw [hpid] at hself
    obtain rfl : root = self := Option.some_inj.1 (hroot.symm.trans hself)
    rw [hact, Process.step_execFailed horiginal] at hstep
    cases hstep
  obtain ⟨-, hself'⟩ := Process.step_child (hs.children _ _ hself hpid) hstep
  rw [if_pos hact] at hself'
  intro hone
  exact hone.2 _ _ (getElem?_step_self hself) hpid hself'

/-- There is one shell all the time exactly in the runs in which no `execv` fails. -/
theorem oneShell_iff {acts : List Act} {bs : List Unit} {s : System}
    (h : run (step pathDirList home) start acts = some (bs, s)) :
    (∀ l l' bs' s', acts = l ++ l' → run (step pathDirList home) start l = some (bs', s') → OneShell s') ↔
      ∀ act ∈ acts, act.outcome ≠ .execed false := by
  have hsound : ∀ {l : List Act} {bs' : List Unit} {s' : System}, (∀ act ∈ l, act.outcome ≠ .execed false) →
      run (step pathDirList home) start l = some (bs', s') → Sound s' := by
    intro l bs' s' hl hrun
    exact run_invariant (fun s act u s' hs hact hstep => hs.step hact hstep) sound_start hl hrun
  constructor
  · intro hone
    -- up to each call no `execv` has failed, so the one called next may not fail either
    suffices hprefix : ∀ l l', acts = l ++ l' → ∀ act ∈ l, act.outcome ≠ .execed false from
      hprefix acts [] (by simp)
    intro l
    induction l using List.reverseRecOn with
    | nil => simp
    | append_singleton l act ih =>
      intro l' hl x hx
      rcases List.mem_append.1 hx with hx | hx
      · exact ih ([act] ++ l') (by rw [hl, List.append_assoc]) x hx
      · obtain rfl : x = act := by simpa using hx
        intro hfail
        rw [hl] at h
        obtain ⟨s₁, bs₁, bs₂, hrun, -, -⟩ := run_append.1 h
        obtain ⟨s₀, bs₀, bs₃, hrun₀, hlast, -⟩ := run_append.1 hrun
        obtain ⟨u, s₂, bs₄, hstep, hnil, -⟩ := run_cons.1 hlast
        cases hnil
        have hs₀ : Sound s₀ := hsound (ih ([x] ++ l') (by rw [hl, List.append_assoc])) hrun₀
        exact hs₀.not_oneShell hfail hstep (hone _ _ _ _ hl hrun)
  · intro hacts l l' bs' s' hl hrun
    exact (hsound (fun act hact => hacts act (by rw [hl]; exact List.mem_append_left _ hact)) hrun).oneShell

/-- The command `x`, found in the directory `b` and executed there. -/
theorem oneShell_found :
    (∀ act ∈ [⟨0, .typed [120, 10] (0, 0)⟩, ⟨0, .called [] []⟩, ⟨0, .forked true⟩, ⟨1, .accessed true⟩,
        ⟨1, .execed true⟩, ⟨0, .done⟩], Act.outcome act ≠ .execed false) ∧
      ∀ l l' bs' s', [⟨0, .typed [120, 10] (0, 0)⟩, ⟨0, .called [] []⟩, ⟨0, .forked true⟩, ⟨1, .accessed true⟩,
        ⟨1, .execed true⟩, ⟨0, .done⟩] = l ++ l' →
      run (step [[98]] none) start l = some (bs', s') → OneShell s' :=
  ⟨by decide, (oneShell_iff rfl).2 (by decide)⟩

/-- The command `x`, found nowhere: the child reads the next line, too. -/
theorem not_oneShell :
    ¬∀ pathDirList home (acts : List Act) bs s,
      run (step pathDirList home) start acts = some (bs, s) → OneShell s := by
  intro h
  have hone := h [[98]] none [⟨0, .typed [120, 10] (0, 0)⟩, ⟨0, .called [] []⟩, ⟨0, .forked true⟩,
    ⟨1, .accessed false⟩, ⟨1, .execed false⟩] _ _ rfl
  exact hone.2 1 _ rfl (by decide) trivial

end Edaf35.Shell
