import Edaf35.Shell.RunProgram
import Mathlib.Data.List.TakeWhile

/-!
# The array `argv` of `parse_line`

`argv` has room for `MAX_ARG` words and a null pointer, and nothing checks the number of words: a line of 102 characters
can have more.  `parse_line` stays inside `argv` exactly on the lines where each command that it comes to has at most
`MAX_ARG` words (`argv_inBounds_iff`).
-/

namespace Edaf35.Shell

/-! ### The tokens of a line -/

theorem dropWhile_newline {p : UInt8 → Bool} (hp : p Ch.newline = false) (body : List UInt8) :
    (body ++ [Ch.newline]).dropWhile p = body.dropWhile p ++ [Ch.newline] := by
  rw [List.dropWhile_append]
  split
  · rename_i hempty
    rw [List.isEmpty_iff.1 hempty, List.dropWhile_cons_of_neg (by simp [hp])]
    rfl
  · rfl

/-- On a line, `gettoken` gives the newline, which is the last character, or a token before it. -/
theorem gettoken_line {body : List UInt8} (hbody : Ch.newline ∉ body) :
    gettoken (body ++ [Ch.newline]) = some (⟨.newline, [Ch.newline]⟩, []) ∨
      ∃ token body', gettoken (body ++ [Ch.newline]) = some (token, body' ++ [Ch.newline]) ∧
        token.type ≠ .newline ∧ body'.length < body.length ∧ Ch.newline ∉ body' := by
  have hskip : (body ++ [Ch.newline]).dropWhile isBlank = body.dropWhile isBlank ++ [Ch.newline] :=
    dropWhile_newline (by decide) body
  have hlen := (List.dropWhile_sublist (l := body) isBlank).length_le
  have hsub := (List.dropWhile_sublist (l := body) isBlank).subset
  unfold gettoken
  rw [hskip]
  cases hd : body.dropWhile isBlank with
  | nil => exact Or.inl rfl
  | cons ch rest =>
    rw [hd] at hlen hsub
    rw [List.length_cons] at hlen
    have hch : ch ≠ Ch.newline := fun h => hbody (hsub (by simp [h]))
    have hrest : Ch.newline ∉ rest := fun h => hbody (hsub (by simp [h]))
    right
    simp only [List.cons_append, if_neg hch]
    split
    · exact ⟨_, rest, rfl, by simp, by omega, hrest⟩
    split
    · exact ⟨_, rest, rfl, by simp, by omega, hrest⟩
    split
    · exact ⟨_, rest, rfl, by simp, by omega, hrest⟩
    split
    · exact ⟨_, rest, rfl, by simp, by omega, hrest⟩
    · have hdrop := List.dropWhile_sublist (l := rest) fun x => !endOfToken x
      have hlen' := hdrop.length_le
      rw [dropWhile_newline (by decide)]
      exact ⟨_, _, rfl, by simp, by omega, fun h => hrest (hdrop.subset h)⟩

/-- Tokens of which the last one, and no other, is the newline. -/
inductive LineTokens : List Token → Prop
  | newline : LineTokens [⟨.newline, [Ch.newline]⟩]
  | cons {token : Token} {tokens : List Token} :
    token.type ≠ .newline → LineTokens tokens → LineTokens (token :: tokens)

private theorem LineTokens.tail {token : Token} {tokens : List Token} (h : LineTokens (token :: tokens))
    (htype : token.type ≠ .newline) : LineTokens tokens := by
  cases h with
  | newline => exact absurd rfl htype
  | cons _ h => exact h

private theorem gettokensFor_nil (n : Nat) : gettokensFor n [] = [] := by
  cases n with
  | zero => rfl
  | succ n => rfl

private theorem gettokensFor_line {body : List UInt8} (hbody : Ch.newline ∉ body) {n : Nat} (hn : body.length < n) :
    LineTokens (gettokensFor n (body ++ [Ch.newline])) := by
  induction n generalizing body with
  | zero => omega
  | succ n ih =>
    rw [gettokensFor]
    rcases gettoken_line hbody with hnl | ⟨token, body', hget, htype, hlen, hbody'⟩
    · rw [hnl]
      simp only [gettokensFor_nil]
      exact .newline
    · rw [hget]
      exact .cons htype (ih hbody' (by omega))

/-- The tokens of a line that `fetch_line` accepts. -/
theorem lineTokens_of_fetchLine {input line rest : List UInt8} (h : fetchLine input = some (line, rest)) :
    LineTokens (gettokens line) := by
  obtain ⟨-, body, rfl, hbody⟩ := fetchLine_some h
  apply gettokensFor_line hbody
  rw [List.length_append, List.length_singleton]
  omega

private theorem gettokensFor_length (n : Nat) (line : List UInt8) : (gettokensFor n line).length ≤ n := by
  induction n generalizing line with
  | zero => exact Nat.le_refl 0
  | succ n ih =>
    rw [gettokensFor]
    cases gettoken line with
    | none => exact Nat.zero_le _
    | some next => exact Nat.succ_le_succ (ih next.2)

/-! ### What is written into `argv` -/

/-- The indices at which `argv` is written by `gettoken(&argv[argc])` and by `argv[argc] = NULL`, with `argv` the words
so far.  `run_program` returns unless the command is `exit`. -/
def argvWrites : List Token → (argv : List (List UInt8)) → List Nat
  | [], _ => []
  | ⟨type, text⟩ :: tokens, argv =>
    argv.length ::
      match type with
      | .normal => argvWrites tokens (argv ++ [text])
      | .input | .output =>
        match tokens with
        | [] => []
        | file :: tokens => argv.length :: if file.type ≠ .normal then [] else argvWrites tokens argv
      | .pipe | .ampersand | .newline | .semicolon =>
        if argv.length = 0 then []
        else
          argv.length :: if type = .newline ∨ argv.head? = some exitName then [] else argvWrites tokens []

/-- The words of the commands of a line in turn, without the file names of redirections.  The last one is cut short by
the end of the line, an empty command, a redirection without a file name, or `exit`. -/
def commandWords : List Token → (words : List (List UInt8)) → List (List (List UInt8))
  | [], words => [words]
  | ⟨type, text⟩ :: tokens, words =>
    match type with
    | .normal => commandWords tokens (words ++ [text])
    | .input | .output =>
      match tokens with
      | [] => [words]
      | file :: tokens => if file.type ≠ .normal then [words] else commandWords tokens words
    | .pipe | .ampersand | .newline | .semicolon =>
      words :: if words = [] ∨ type = .newline ∨ words.head? = some exitName then [] else commandWords tokens []

/-- Each command that `parse_line` comes to has at most `MAX_ARG` words. -/
def Fits (tokens : List Token) (words : List (List UInt8)) : Prop :=
  ∀ command ∈ commandWords tokens words, command.length ≤ maxArg

variable {tokens : List Token} {argv : List (List UInt8)}

/-- The first command has the words read so far. -/
private theorem exists_commandWords : ∃ command ∈ commandWords tokens argv, argv.length ≤ command.length := by
  fun_induction commandWords tokens argv with
  | case1 | case3 | case4 | case6 | case7 => exact ⟨_, List.mem_singleton_self _, Nat.le_refl _⟩
  | case2 text tokens argv ih =>
    obtain ⟨command, hmem, hlen⟩ := ih
    rw [List.length_append] at hlen
    exact ⟨command, hmem, by omega⟩
  | case5 _ _ _ _ _ ih | case8 _ _ _ _ _ ih => exact ih
  | case9 | case10 | case11 | case12 => exact ⟨_, List.mem_cons_self, Nat.le_refl _⟩

theorem Fits.length_le (h : Fits tokens argv) : argv.length ≤ maxArg := by
  obtain ⟨command, hmem, hlen⟩ : ∃ command ∈ commandWords tokens argv, argv.length ≤ command.length :=
    exists_commandWords
  exact le_trans hlen (h command hmem)

/-- The end of a command. -/
private theorem writes_end {type : TokenType}
    (hrest : type ≠ .newline → ((∀ n ∈ argvWrites tokens [], n ≤ maxArg) ↔ Fits tokens [])) :
    (∀ n ∈ argv.length :: if argv.length = 0 then [] else argv.length ::
        if type = .newline ∨ argv.head? = some exitName then [] else argvWrites tokens [], n ≤ maxArg) ↔
      ∀ command ∈ argv ::
          if argv = [] ∨ type = .newline ∨ argv.head? = some exitName then [] else commandWords tokens [],
        command.length ≤ maxArg := by
  rw [List.forall_mem_cons, List.forall_mem_cons]
  apply and_congr_right
  intro hlen
  by_cases hargv : argv = []
  · simp [hargv]
  · rw [if_neg (fun h => hargv (List.length_eq_zero_iff.1 h)), List.forall_mem_cons, and_iff_right hlen]
    by_cases hstop : type = .newline ∨ argv.head? = some exitName
    · rw [if_pos hstop, if_pos (Or.inr hstop)]
      simp
    · rw [if_neg hstop, if_neg (not_or.2 ⟨hargv, hstop⟩)]
      exact hrest fun h => hstop (Or.inl h)

/-- The writes are within bounds exactly when the commands are. -/
theorem writes_le_iff (h : LineTokens tokens) : (∀ n ∈ argvWrites tokens argv, n ≤ maxArg) ↔ Fits tokens argv := by
  unfold Fits
  fun_induction commandWords tokens argv with
  | case1 argv => cases h
  | case2 text tokens argv ih =>
    rw [argvWrites, List.forall_mem_cons, ih (h.tail (by simp))]
    constructor
    · exact fun hwords => hwords.2
    · intro hwords
      have hlen : (argv ++ [text]).length ≤ maxArg := Fits.length_le hwords
      rw [List.length_append] at hlen
      exact ⟨by omega, hwords⟩
  | case3 | case6 => cases h.tail (by simp)
  | case4 text argv file tokens hfile | case7 text argv file tokens hfile =>
    rw [argvWrites, if_pos hfile]
    simp
  | case5 text argv file tokens hfile ih | case8 text argv file tokens hfile ih =>
    have hrest : LineTokens tokens := (h.tail (by simp)).tail fun h => hfile (by rw [h]; decide)
    rw [argvWrites, if_neg hfile, List.forall_mem_cons, List.forall_mem_cons, ih hrest]
    constructor
    · exact fun hwords => hwords.2.2
    · exact fun hwords => ⟨Fits.length_le hwords, Fits.length_le hwords, hwords⟩
  | case9 text tokens argv ih | case10 text tokens argv ih | case11 text tokens argv ih | case12 text tokens argv ih =>
    rw [argvWrites]
    exact writes_end fun htype => ih (h.tail htype)

/-! ### The executions of `parse_line` -/

/-- An execution of `parse_line` in which every `run_program` returns, except for `exit`, writes past the end of `argv`
or reads past the end of the line. -/
inductive Parse.Faults : Parse → Prop
  | openFile {path mode next} (fd : Option Nat) : (next fd).Faults → Faults (.openFile path mode next)
  | pipe {next} (ends : Option (Nat × Nat)) : (next ends).Faults → Faults (.pipe next)
  | runProgram {call inputFd outputFd next} : call.argv.head? ≠ some exitName → next.Faults →
      Faults (.runProgram call inputFd outputFd next)
  | close {fd next} : next.Faults → Faults (.close fd next)
  | error {fmt arg next} : next.Faults → Faults (.error fmt arg next)
  | fault : Faults .fault

variable {inputFd outputFd : Int} {pipeFd : Int × Int} {P : Prop}

private theorem faults_redirect {file : Token} {mode : OpenMode} {fmt : String} {next : Int → Parse}
    (hnext : file.type = .normal → ∀ fd, (next fd).Faults ↔ P) :
    (redirect file mode fmt next).Faults ↔ file.type = .normal ∧ P := by
  unfold redirect
  split
  · rename_i hfile
    constructor
    · intro h
      cases h with
      | error h => cases h
    · exact fun h => absurd h.1 hfile
  · rename_i hfile
    constructor
    · intro h
      cases h with
      | openFile fd h =>
        refine ⟨not_not.1 hfile, ?_⟩
        cases fd with
        | some fd => exact (hnext (not_not.1 hfile) fd).1 h
        | none =>
          cases h with
          | error h => exact (hnext (not_not.1 hfile) (-1)).1 h
    · exact fun h => .openFile (some 0) ((hnext h.1 0).2 h.2)

private theorem faults_endCommand {type : TokenType} {call : Call} {next : Int → Parse}
    (hnext : type ≠ .newline → ∀ fd, (next fd).Faults ↔ P) :
    (endCommand type call inputFd outputFd pipeFd next).Faults ↔
      ¬(call.argv = [] ∨ type = .newline ∨ call.argv.head? = some exitName) ∧ P := by
  unfold endCommand
  rw [not_or, not_or]
  split
  · rename_i hlen
    constructor
    · intro h
      cases h
    · exact fun h => absurd (List.length_eq_zero_iff.1 hlen) h.1.1
  · rename_i hlen
    have hargv : call.argv ≠ [] := fun h => hlen (List.length_eq_zero_iff.2 h)
    have hproceed : ∀ fd, (if type = .newline then Parse.ret else next fd).Faults ↔ type ≠ .newline ∧ P := by
      intro fd
      split
      · rename_i hnl
        constructor
        · intro h
          cases h
        · exact fun h => absurd hnl h.1
      · rename_i hnl
        rw [hnext hnl fd, and_iff_right hnl]
    constructor
    · intro h
      cases h with
      | runProgram hexit h =>
        have hnext' : type ≠ .newline ∧ P := by
          split at h
          · cases h with
            | close h => exact (hproceed _).1 h
          · exact (hproceed _).1 h
        exact ⟨⟨hargv, hnext'.1, hexit⟩, hnext'.2⟩
    · intro h
      apply Parse.Faults.runProgram h.1.2.2
      split
      · exact .close ((hproceed _).2 ⟨h.1.2.1, h.2⟩)
      · exact (hproceed _).2 ⟨h.1.2.1, h.2⟩

/-- A redirection. -/
theorem not_fits_file {file : Token} {text : List UInt8} {type : TokenType}
    (htype : type = .input ∨ type = .output) (hfit : ¬maxArg < argv.length) :
    ¬Fits (⟨type, text⟩ :: file :: tokens) argv ↔ file.type = .normal ∧ ¬Fits tokens argv := by
  have heq : commandWords (⟨type, text⟩ :: file :: tokens) argv =
      if file.type ≠ .normal then [argv] else commandWords tokens argv := by
    rcases htype with rfl | rfl
    · rfl
    · rfl
  unfold Fits
  rw [heq]
  split
  · rename_i hfile
    constructor
    · intro h
      exact absurd (fun command hmem => List.mem_singleton.1 hmem ▸ Nat.not_lt.1 hfit) h
    · exact fun h => absurd h.1 hfile
  · rename_i hfile
    exact (and_iff_right (not_not.1 hfile)).symm

/-- The end of a command. -/
theorem not_fits_end {text : List UInt8} {type : TokenType}
    (htype : type = .pipe ∨ type = .ampersand ∨ type = .newline ∨ type = .semicolon) (hfit : ¬maxArg < argv.length) :
    ¬Fits (⟨type, text⟩ :: tokens) argv ↔
      ¬(argv = [] ∨ type = .newline ∨ argv.head? = some exitName) ∧ ¬Fits tokens [] := by
  have heq : commandWords (⟨type, text⟩ :: tokens) argv = argv ::
      if argv = [] ∨ type = .newline ∨ argv.head? = some exitName then [] else commandWords tokens [] := by
    rcases htype with rfl | rfl | rfl | rfl
    · rfl
    · rfl
    · rfl
    · rfl
  unfold Fits
  rw [heq, List.forall_mem_cons, and_iff_right (Nat.not_lt.1 hfit)]
  split
  · rename_i hstop
    simp [hstop]
  · rename_i hstop
    exact (and_iff_right hstop).symm

/-- `parse_line` writes past the end of `argv` in some execution exactly when a command has too many words; it never
reads past the end of the line. -/
private theorem faults_iff (h : LineTokens tokens) :
    (parseLoop tokens argv inputFd outputFd pipeFd).Faults ↔ ¬Fits tokens argv := by
  fun_induction parseLoop tokens argv inputFd outputFd pipeFd with
  | case1 => cases h
  | case2 _ _ _ _ _ _ _ hover => exact iff_of_true .fault fun hfits => absurd hfits.length_le (Nat.not_le.2 hover)
  | case3 text tokens argv inputFd outputFd pipeFd _ ih => exact ih (h.tail (by simp))
  | case4 | case6 => cases h.tail (by simp)
  | case5 text argv inputFd outputFd pipeFd hfit file tokens ih =>
    rw [not_fits_file (Or.inl rfl) hfit]
    exact faults_redirect fun hfile fd => ih fd ((h.tail (by simp)).tail (by simp [hfile]))
  | case7 text argv inputFd outputFd pipeFd hfit file tokens ih =>
    rw [not_fits_file (Or.inr rfl) hfit]
    exact faults_redirect fun hfile fd => ih fd ((h.tail (by simp)).tail (by simp [hfile]))
  | case8 text tokens argv inputFd outputFd pipeFd hfit ih ihFailed =>
    rw [not_fits_end (Or.inl rfl) hfit]
    have hrest := h.tail (by simp)
    constructor
    · intro hfaults
      cases hfaults with
      | pipe ends hfaults =>
        cases ends with
        | none => exact (faults_endCommand fun _ fd => ihFailed fd hrest).1 hfaults
        | some ends => exact (faults_endCommand fun _ fd => ih ends.1 ends.2 fd hrest).1 hfaults
    · intro hover
      exact .pipe none ((faults_endCommand fun _ fd => ihFailed fd hrest).2 hover)
  | case9 text tokens argv inputFd outputFd pipeFd hfit ih =>
    rw [not_fits_end (Or.inr (Or.inl rfl)) hfit]
    exact faults_endCommand fun hnl fd => ih fd (h.tail hnl)
  | case10 text tokens argv inputFd outputFd pipeFd hfit ih =>
    rw [not_fits_end (Or.inr (Or.inr (Or.inl rfl))) hfit]
    exact faults_endCommand fun hnl fd => ih fd (h.tail hnl)
  | case11 text tokens argv inputFd outputFd pipeFd hfit ih =>
    rw [not_fits_end (Or.inr (Or.inr (Or.inr rfl))) hfit]
    exact faults_endCommand fun hnl fd => ih fd (h.tail hnl)

/-! ### Lines -/

/-- On a line that `fetch_line` accepts, every index at which `parse_line` writes `argv` is at most `MAX_ARG` exactly
when no command that it comes to has more than `MAX_ARG` words; and no execution faults for another reason. -/
theorem argv_inBounds_iff {input line rest : List UInt8} (h : fetchLine input = some (line, rest)) :
    ((∀ n ∈ argvWrites (gettokens line) [], n ≤ maxArg) ↔
        ∀ command ∈ commandWords (gettokens line) [], command.length ≤ maxArg) ∧
      ∀ pipeFd, (parseLine line pipeFd).Faults ↔ ∃ n ∈ argvWrites (gettokens line) [], maxArg < n := by
  have htokens := lineTokens_of_fetchLine h
  refine ⟨writes_le_iff htokens, fun pipeFd => ?_⟩
  unfold parseLine
  rw [faults_iff htokens, ← writes_le_iff htokens]
  simp

/-- `ls -l` is within bounds. -/
theorem argv_inBounds_iff_ls : (∀ n ∈ argvWrites (gettokens [108, 115, 32, 45, 108, 10]) [], n ≤ maxArg) ∧
    ∀ pipeFd, ¬(parseLine [108, 115, 32, 45, 108, 10] pipeFd).Faults := by
  have hline : fetchLine [108, 115, 32, 45, 108, 10] = some ([108, 115, 32, 45, 108, 10], []) := rfl
  have hwrites := (argv_inBounds_iff hline).1.2 (by decide)
  refine ⟨hwrites, fun pipeFd hfaults => ?_⟩
  obtain ⟨n, hn, hover⟩ := ((argv_inBounds_iff hline).2 pipeFd).1 hfaults
  exact absurd (hwrites n hn) (Nat.not_le.2 hover)

/-- A line of 101 words of one letter. -/
def manyWords : List UInt8 := (List.replicate 101 [97, 32]).flatten ++ [Ch.newline]

set_option maxRecDepth 4000 in
/-- The null pointer after the 101 words of the line is written behind `argv`. -/
theorem not_argv_inBounds : ¬∀ input line rest : List UInt8, fetchLine input = some (line, rest) →
    ∀ n ∈ argvWrites (gettokens line) [], n ≤ maxArg := by
  intro h
  have hline : fetchLine manyWords = some (manyWords, []) := by decide
  have hwrite : 101 ∈ argvWrites (gettokens manyWords) [] := by decide
  exact absurd (h _ _ _ hline _ hwrite) (by decide)

/-! ### Short lines -/

private theorem length_lt_of_mem_commandWords (h : LineTokens tokens) {command : List (List UInt8)}
    (hmem : command ∈ commandWords tokens argv) : command.length < argv.length + tokens.length := by
  fun_induction commandWords tokens argv with
  | case1 => cases h
  | case2 text tokens argv ih =>
    have := ih (h.tail (by simp)) hmem
    rw [List.length_append, List.length_singleton] at this
    rw [List.length_cons]
    omega
  | case3 | case4 | case6 | case7 =>
    obtain rfl := List.mem_singleton.1 hmem
    rw [List.length_cons]
    omega
  | case5 text argv file tokens hfile ih | case8 text argv file tokens hfile ih =>
    have := ih ((h.tail (by simp)).tail fun h => hfile (by rw [h]; decide)) hmem
    rw [List.length_cons, List.length_cons]
    omega
  | case9 text tokens argv ih | case10 text tokens argv ih | case11 text tokens argv ih | case12 text tokens argv ih =>
    rw [List.length_cons]
    rcases List.mem_cons.1 hmem with rfl | hmem
    · omega
    · split at hmem
      · cases hmem
      · rename_i hstop
        have := ih (h.tail fun htype => hstop (Or.inr (Or.inl htype))) hmem
        rw [List.length_nil] at this
        omega

/-- A line of up to `MAX_ARG` characters and a newline is within bounds. -/
theorem fits_of_length {input line rest : List UInt8} (h : fetchLine input = some (line, rest))
    (hlen : line.length ≤ maxArg + 1) : Fits (gettokens line) [] := by
  intro command hmem
  have hlt := length_lt_of_mem_commandWords (lineTokens_of_fetchLine h) hmem
  have htokens : (gettokens line).length ≤ line.length := gettokensFor_length _ _
  rw [List.length_nil] at hlt
  omega

end Edaf35.Shell
