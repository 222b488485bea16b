import Edaf35.Shell.Commands
import Edaf35.Shell.Pipes

/-!
# What the commands of a line read and write

The line says for every command where its standard input and output lead: to a file, to the pipe of a `|`, or, where
it does not say so or the file cannot be opened, to what the shell has itself.  `parse_line` hands on numbers of
descriptors in two globals, and `run_program` puts them in place in the child.
-/

namespace Edaf35.Shell

structure Command where
  argv : List (List UInt8)
  stdin : End
  stdout : End
  deriving DecidableEq, Repr

/-- One more command before those of the rest of a line. -/
def before (command : Command) (rest : List Command × Nat) : List Command × Nat := (command :: rest.1, rest.2)

/-- The commands of a line with their standard input and output, and the number of pipes after it.  It goes on after
the words `argv` and the redirections that lead to `stdin` and `stdout`.  The shell has `own` itself and has made
`pipes` pipes, and `opens` says which files can be opened.  The last of several redirections counts, and a pipe counts
more than a file that is to be written. -/
def wiring (own : Int × Int) : (argv : List (List UInt8)) → (stdin stdout : End) → (pipes : Nat) →
    (opens : List Bool) → List Piece → List Command × Nat
  | _, _, _, pipes, _, [] => ([], pipes)
  | argv, stdin, stdout, pipes, opens, .word text :: rest => wiring own (argv ++ [text]) stdin stdout pipes opens rest
  | argv, stdin, stdout, pipes, opens, .mark ch :: rest =>
    if redirects ch then
      match rest, opens with
      | .word file :: rest, ok :: opens =>
        if ch = Ch.less then
          wiring own argv (if ok then .file file .rdonly else .inherited own.1) stdout pipes opens rest
        else wiring own argv stdin (if ok then .file file (.creatWronly perm) else .inherited own.2) pipes opens rest
      | _, _ => ([], pipes)
    else if ch = Ch.bar then
      -- the pipe is made before the command is found to be empty
      if argv = [] then ([], pipes + 1)
      else before ⟨argv, stdin, .writing pipes⟩
        (wiring own [] (.reading pipes) (.inherited own.2) (pipes + 1) opens rest)
    else if argv = [] then ([], pipes)
    else before ⟨argv, stdin, stdout⟩ <|
      if ch = Ch.newline then ([], pipes)
      else wiring own [] (.inherited own.1) (.inherited own.2) pipes opens rest

/-- The executions of `parse_line` that return, from the table `files` after `pipes` pipes, in which no `pipe` fails:
the outcomes of the `open` calls, the arguments of `run_program` with the ends that a child has under its standard
input and output at the `execv`, and the number of pipes at the end. -/
def Parse.Wires : Parse → Files → Nat → List Bool → List Command × Nat → Prop
  | .openFile path mode next, files, pipes, opens, result =>
    (∃ opens', opens = false :: opens' ∧ (next none).Wires files pipes opens' result) ∨
    ∃ (fd : Nat) (opens' : List Bool), opens = true :: opens' ∧ files fd = none ∧
      (next (some fd)).Wires (files.assign fd (.file path mode)) pipes opens' result
  | .pipe next, files, pipes, opens, result =>
    ∃ consumer producer : Nat, files consumer = none ∧ files producer = none ∧ consumer ≠ producer ∧
      (next (some (consumer, producer))).Wires
        ((files.assign consumer (.reading pipes)).assign producer (.writing pipes)) (pipes + 1) opens result
  | .runProgram call inputFd outputFd next, files, pipes, opens, result =>
    ∃ stdin stdout rest, (files.dup2 inputFd stdinFileno).dup2 outputFd stdoutFileno stdinFileno = some stdin ∧
      (files.dup2 inputFd stdinFileno).dup2 outputFd stdoutFileno stdoutFileno = some stdout ∧
      result = before ⟨call.argv, stdin, stdout⟩ rest ∧ next.Wires files pipes opens rest
  | .close fd next, files, pipes, opens, result => next.Wires (files.close fd) pipes opens result
  | .error _ _ next, files, pipes, opens, result => next.Wires files pipes opens result
  | .ret, _, pipes, opens, result => opens = [] ∧ result = ([], pipes)
  | .fault, _, _, _, _ => False

/-! ### Where the globals lead -/

/-- The descriptor in one of the globals leads to `e`; where it is not open, the child keeps what is there. -/
structure Leads (files : Files) (fd : Int) (kept e : End) : Prop where
  isOpen : fd = -1 ∨ files fd ≠ none
  leads : (files fd).getD kept = e

section Leads

variable {files : Files} {fd inputFd outputFd : Int} {kept e e' stdin stdout : End} {own : Int × Int}

private theorem Leads.assign {fd' : Nat} (h : Leads files fd kept e) (hfree : files fd' = none) :
    Leads (files.assign fd' e') fd kept e := by
  have hne : fd ≠ fd' := by
    rintro rfl
    rcases h.isOpen with hfd | hopen
    · omega
    · exact hopen hfree
  have hsame : files.assign fd' e' fd = files fd := DescriptorTable.assign_ne hne
  exact ⟨by rw [hsame]; exact h.isOpen, by rw [hsame]; exact h.leads⟩

private theorem Leads.close {fd' : Int} (h : Leads files fd kept e) (hne : fd ≠ fd') :
    Leads (files.close fd') fd kept e := by
  have hsame : files.close fd' fd = files fd := DescriptorTable.close_ne hne
  exact ⟨by rw [hsame]; exact h.isOpen, by rw [hsame]; exact h.leads⟩

theorem leads_of_eq (h : files fd = some e) : Leads files fd kept e := ⟨.inr (by simp [h]), by simp [h]⟩

private theorem Owns.leads_closed (h : Owns own files) : Leads files (-1) e e := ⟨.inl rfl, by simp [h.closed]⟩

/-- The standard input of the child. -/
private theorem Owns.child_stdin (h : Owns own files) (hin : Leads files inputFd (.inherited own.1) stdin) :
    (files.dup2 inputFd stdinFileno).dup2 outputFd stdoutFileno stdinFileno = some stdin := by
  rw [DescriptorTable.dup2_ne (by decide), ← hin.leads]
  cases hopen : files inputFd with
  | none => rw [DescriptorTable.dup2_closed hopen, h.stdin, Option.getD_none]
  | some e => rw [DescriptorTable.dup2_open hopen, DescriptorTable.assign_self, Option.getD_some]

/-- The standard output of the child. -/
private theorem Owns.child_stdout (h : Owns own files) (hout : Leads files outputFd (.inherited own.2) stdout)
    (hne : outputFd ≠ stdinFileno) :
    (files.dup2 inputFd stdinFileno).dup2 outputFd stdoutFileno stdoutFileno = some stdout := by
  have hsame : files.dup2 inputFd stdinFileno outputFd = files outputFd := DescriptorTable.dup2_ne hne
  rw [← hout.leads]
  cases hopen : files outputFd with
  | none =>
    rw [DescriptorTable.dup2_closed (hsame.trans hopen), DescriptorTable.dup2_ne (by decide), h.stdout,
      Option.getD_none]
  | some e =>
    rw [DescriptorTable.dup2_open (hsame.trans hopen), DescriptorTable.assign_self, Option.getD_some]

end Leads

/-! ### The loop -/

section Loop

variable {own : Int × Int} {files : Files} {argv : List (List UInt8)} {inputFd outputFd : Int} {pipeFd : Int × Int}
  {stdin stdout : End} {pipes : Nat} {opens : List Bool} {result : List Command × Nat} {tokens : List Token}

/-- The end of a command that is not before a `|`. -/
private theorem endCommand_wires {type : TokenType} {foreground : Bool} {next : Int → Parse} (howns : Owns own files)
    (hin : Leads files inputFd (.inherited own.1) stdin) (hout : Leads files outputFd (.inherited own.2) stdout)
    (hne : outputFd ≠ stdinFileno)
    (h : (endCommand type ⟨argv, foreground, false⟩ inputFd outputFd pipeFd next).Wires files pipes opens result) :
    if argv = [] then result = ([], pipes)
    else ∃ rest, result = before ⟨argv, stdin, stdout⟩ rest ∧
      if type = .newline then rest = ([], pipes) else (next stdinFileno).Wires files pipes opens rest := by
  simp only [endCommand, List.length_eq_zero_iff] at h
  split at h
  · rename_i hargv
    rw [if_pos hargv]
    exact h.2
  · rename_i hargv
    rw [if_neg hargv]
    obtain ⟨stdin', stdout', rest, hstdin, hstdout, hresult, hrest⟩ := h
    rw [howns.child_stdin hin, Option.some_inj] at hstdin
    rw [howns.child_stdout hout hne, Option.some_inj] at hstdout
    subst hstdin hstdout
    refine ⟨rest, hresult, ?_⟩
    rw [if_neg Bool.false_ne_true] at hrest
    split
    · rename_i hnl
      rw [if_pos hnl] at hrest
      exact hrest.2
    · rename_i hnl
      rwa [if_neg hnl] at hrest

/-- The end of a command before a `|`. -/
private theorem endCommand_pipe_wires {consumer producer : Int} {next : Int → Parse} (howns : Owns own files)
    (hin : Leads files inputFd (.inherited own.1) stdin) (hout : Leads files producer (.inherited own.2) stdout)
    (hne : producer ≠ stdinFileno)
    (h : (endCommand .pipe ⟨argv, false, true⟩ inputFd producer (consumer, producer) next).Wires files pipes opens
      result) :
    if argv = [] then result = ([], pipes)
    else ∃ rest, result = before ⟨argv, stdin, stdout⟩ rest ∧
      (next consumer).Wires (files.close producer) pipes opens rest := by
  simp only [endCommand, List.length_eq_zero_iff] at h
  split at h
  · rename_i hargv
    rw [if_pos hargv]
    exact h.2
  · rename_i hargv
    rw [if_neg hargv]
    obtain ⟨stdin', stdout', rest, hstdin, hstdout, hresult, hrest⟩ := h
    rw [howns.child_stdin hin, Option.some_inj] at hstdin
    rw [howns.child_stdout hout hne, Option.some_inj] at hstdout
    subst hstdin hstdout
    exact ⟨rest, hresult, hrest⟩

/-- A redirection with a file name. -/
private theorem redirect_wires {path : List UInt8} {mode : OpenMode} {fmt : String} {next : Int → Parse}
    (h : (redirect ⟨.normal, path⟩ mode fmt next).Wires files pipes opens result) :
    (∃ opens', opens = false :: opens' ∧ (next (-1)).Wires files pipes opens' result) ∨
      ∃ (fd : Nat) (opens' : List Bool), opens = true :: opens' ∧ files fd = none ∧
        (next fd).Wires (files.assign fd (.file path mode)) pipes opens' result := by
  rw [redirect, if_neg (by simp)] at h
  exact h

private theorem markType_end {ch : UInt8} (hch : redirects ch = false) (hbar : ch ≠ Ch.bar) :
    (markType ch = .ampersand ∨ markType ch = .newline ∨ markType ch = .semicolon) ∧
      (markType ch = .newline ↔ ch = Ch.newline) := by
  simp only [redirects, decide_eq_false_iff_not, not_or] at hch
  unfold markType
  split_ifs <;> simp_all

private theorem parseLoop_wires_fits
    (h : (parseLoop tokens argv inputFd outputFd pipeFd).Wires files pipes opens result) : argv.length ≤ maxArg := by
  by_contra hover
  rw [parseLoop_over (Nat.not_le.1 hover)] at h
  exact h

/-- A redirection without a file name, or one more than files are opened. -/
private theorem redirect_wires_noFile {ch : UInt8} {rest : List Piece} (hch : redirects ch = true)
    (hrest : ∀ file rest' ok opens', rest = .word file :: rest' → opens = ok :: opens' → False)
    (h : (parseLoop ((Piece.mark ch :: rest).map Piece.token) argv inputFd outputFd pipeFd).Wires files pipes opens
      result) : result = ([], pipes) := by
  have hfit := parseLoop_wires_fits h
  -- what comes after the mark is the same for both
  have hmode : ∀ file tokens mode fmt (next : Int → Parse), rest = file :: tokens →
      (redirect file.token mode fmt next).Wires files pipes opens result → result = ([], pipes) := by
    intro file tokens mode fmt next hfile h
    cases file with
    | word path =>
      rcases redirect_wires h with ⟨opens', hopens, -⟩ | ⟨fd, opens', hopens, -⟩
      · exact (hrest path tokens false opens' hfile hopens).elim
      · exact (hrest path tokens true opens' hfile hopens).elim
    | mark ch' =>
      have hnormal : (Piece.token (.mark ch')).type ≠ .normal := markType_ne_normal
      rw [redirect, if_pos hnormal] at h
      exact h.2
  simp only [redirects, decide_eq_true_eq] at hch
  rcases hch with rfl | rfl
  · cases rest with
    | nil =>
      have hfault : parseLoop [Piece.token (.mark Ch.less)] argv inputFd outputFd pipeFd = .fault :=
        if_neg (Nat.not_lt.2 hfit)
      rw [List.map_cons, List.map_nil, hfault] at h
      cases h
    | cons file tokens =>
      rw [List.map_cons, List.map_cons, show Piece.token (.mark Ch.less) = ⟨.input, [Ch.less]⟩ from rfl,
        parseLoop_input hfit] at h
      exact hmode file tokens _ _ _ rfl h
  · cases rest with
    | nil =>
      have hfault : parseLoop [Piece.token (.mark Ch.greater)] argv inputFd outputFd pipeFd = .fault :=
        if_neg (Nat.not_lt.2 hfit)
      rw [List.map_cons, List.map_nil, hfault] at h
      cases h
    | cons file tokens =>
      rw [List.map_cons, List.map_cons, show Piece.token (.mark Ch.greater) = ⟨.output, [Ch.greater]⟩ from rfl,
        parseLoop_output hfit] at h
      exact hmode file tokens _ _ _ rfl h

/-- The pipe of a `|`, with its ends in the globals of this command and the next. -/
private theorem pipe_wires (howns : Owns own files) (hin : Leads files inputFd (.inherited own.1) stdin)
    (h : (parseLoop (Piece.token (.mark Ch.bar) :: tokens) argv inputFd outputFd pipeFd).Wires files pipes opens
      result) :
    if argv = [] then result = ([], pipes + 1)
    else ∃ (consumer : Int) (pipeFd : Int × Int) (files' : Files) (rest : List Command × Nat),
      result = before ⟨argv, stdin, .writing pipes⟩ rest ∧ Owns own files' ∧
        Leads files' consumer (.inherited own.1) (.reading pipes) ∧
        (parseLoop tokens [] consumer stdoutFileno pipeFd).Wires files' (pipes + 1) opens rest := by
  have hpipe : parseLoop (Piece.token (.mark Ch.bar) :: tokens) argv inputFd outputFd pipeFd = .pipe _ :=
    if_neg (Nat.not_lt.2 (parseLoop_wires_fits h))
  rw [hpipe] at h
  obtain ⟨consumer, producer, hconsumer, hproducer, hends, h⟩ := h
  have hends' : (producer : Int) ≠ consumer := by omega
  set files₁ := files.assign consumer (.reading pipes) with hfiles₁
  have hproducer₁ : files₁ producer = none := by rw [hfiles₁, DescriptorTable.assign_ne hends', hproducer]
  have howns₁ : Owns own files₁ := howns.assign hconsumer
  set files₂ := files₁.assign producer (.writing pipes) with hfiles₂
  have howns₂ : Owns own files₂ := howns₁.assign hproducer₁
  have hwrites : files₂ producer = some (.writing pipes) := DescriptorTable.assign_self
  have hreads : files₂ consumer = some (.reading pipes) := by
    rw [hfiles₂, DescriptorTable.assign_ne (Ne.symm hends'), hfiles₁, DescriptorTable.assign_self]
  have hne : (producer : Int) ≠ stdinFileno := by
    intro hfd
    rw [hfd, howns₁.stdin] at hproducer₁
    cases hproducer₁
  have h' := endCommand_pipe_wires howns₂ ((hin.assign hconsumer).assign hproducer₁) (leads_of_eq hwrites) hne h
  split
  · rename_i hargv
    rwa [if_pos hargv] at h'
  · rename_i hargv
    rw [if_neg hargv] at h'
    obtain ⟨rest, hresult, hrest⟩ := h'
    exact ⟨consumer, _, files₂.close producer, rest, hresult, howns₂.close (by simp [hwrites]),
      (leads_of_eq hreads).close (Ne.symm hends'), hrest⟩

/-- The calls of the loop are the commands of the line, each with its standard input and output. -/
theorem parseLoop_wires {b : List Piece} (howns : Owns own files)
    (hin : Leads files inputFd (.inherited own.1) stdin) (hout : Leads files outputFd (.inherited own.2) stdout)
    (hne : outputFd ≠ stdinFileno)
    (h : (parseLoop (b.map Piece.token) argv inputFd outputFd pipeFd).Wires files pipes opens result) :
    result = wiring own argv stdin stdout pipes opens b := by
  have hstart : ∀ {files}, Owns own files → Leads files stdinFileno (.inherited own.1) (.inherited own.1) ∧
      Leads files stdoutFileno (.inherited own.2) (.inherited own.2) :=
    fun h => ⟨leads_of_eq h.stdin, leads_of_eq h.stdout⟩
  fun_induction wiring own argv stdin stdout pipes opens b generalizing files inputFd outputFd pipeFd result with
  | case1 argv stdin stdout pipes opens => cases h
  | case2 argv stdin stdout pipes opens text rest ih =>
    rw [List.map_cons, Piece.token, parseLoop_normal (parseLoop_wires_fits h)] at h
    exact ih howns hin hout hne h
  | case3 argv stdin stdout pipes hch file rest ok opens ih =>
    have hfit := parseLoop_wires_fits h
    rw [List.map_cons, List.map_cons, show Piece.token (.mark Ch.less) = ⟨.input, [Ch.less]⟩ from rfl,
      parseLoop_input hfit] at h
    rcases redirect_wires h with ⟨opens', hopens, h⟩ | ⟨fd, opens', hopens, hfree, h⟩
    · cases hopens
      exact ih howns howns.leads_closed hout hne h
    · cases hopens
      exact ih (howns.assign hfree) (leads_of_eq (by simp)) (hout.assign hfree) hne h
  | case4 argv stdin stdout pipes ch hch file rest ok opens hless ih =>
    have hgreater : ch = Ch.greater := by
      simp only [redirects, decide_eq_true_eq] at hch
      exact hch.resolve_left hless
    subst hgreater
    have hfit := parseLoop_wires_fits h
    rw [List.map_cons, List.map_cons, show Piece.token (.mark Ch.greater) = ⟨.output, [Ch.greater]⟩ from rfl,
      parseLoop_output hfit] at h
    rcases redirect_wires h with ⟨opens', hopens, h⟩ | ⟨fd, opens', hopens, hfree, h⟩
    · cases hopens
      exact ih howns hin howns.leads_closed (by decide) h
    · cases hopens
      refine ih (howns.assign hfree) (hin.assign hfree) (leads_of_eq (by simp)) ?_ h
      intro hfd
      rw [hfd, howns.stdin] at hfree
      cases hfree
  | case5 argv stdin stdout pipes opens ch rest hch hrest =>
    exact redirect_wires_noFile hch (fun file rest' ok opens' hr ho => hrest file rest' ok opens' hr ho) h
  | case6 stdin stdout pipes opens rest hch =>
    have h' := pipe_wires howns hin h
    rwa [if_pos rfl] at h'
  | case7 argv stdin stdout pipes opens rest hargv hch ih =>
    have h' := pipe_wires howns hin h
    rw [if_neg hargv] at h'
    obtain ⟨consumer, pipeFd', files', rest', rfl, howns', hin', hrest⟩ := h'
    rw [ih howns' hin' (hstart howns').2 (by decide) hrest]
  | case8 stdin stdout pipes opens ch rest hch hbar =>
    have hend := markType_end (by simpa using hch) hbar
    rw [List.map_cons, Piece.token, parseLoop_end (parseLoop_wires_fits h) hend.1] at h
    have h' := endCommand_wires howns hin hout hne h
    rwa [if_pos rfl] at h'
  | case9 argv stdin stdout pipes opens ch rest hch hbar hargv ih =>
    have hend := markType_end (by simpa using hch) hbar
    rw [List.map_cons, Piece.token, parseLoop_end (parseLoop_wires_fits h) hend.1] at h
    have h' := endCommand_wires howns hin hout hne h
    rw [if_neg hargv] at h'
    obtain ⟨rest', rfl, hrest⟩ := h'
    congr 1
    by_cases hnl : ch = Ch.newline
    · rw [if_pos (hend.2.2 hnl)] at hrest
      rw [if_pos hnl, hrest]
    · rw [if_neg (fun hc => hnl (hend.2.1 hc))] at hrest
      rw [if_neg hnl]
      exact ih howns (hstart howns).1 (hstart howns).2 (by decide) hrest

end Loop

end Edaf35.Shell
