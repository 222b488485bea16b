import Mathlib.Data.List.TakeWhile
import Edaf35.Shell.ParseLine

/-!
# The commands that a line spells

A line is read as words and marks: a word is a maximal run of characters other than blanks and the marks newline,
`;`, `|`, `&`, `<` and `>`, and each mark is a token of its own.  `commands` is what `run_program` should be called
with.  The shell itself reads the line with `;` at the start of a word, as `gettoken` has no case for it; the two
readings go in step up to the first `;`, and `Agrees` says when that makes no difference.
-/

namespace Edaf35.Shell

/-! ### Reading a line -/

inductive Piece
  | word (text : List UInt8)
  | mark (ch : UInt8)
  deriving DecidableEq, Repr

def isMark (ch : UInt8) : Bool :=
  ch = Ch.newline ∨ ch = Ch.semicolon ∨ ch = Ch.bar ∨ ch = Ch.ampersand ∨ ch = Ch.less ∨ ch = Ch.greater

def wordOf : List UInt8 → List Piece
  | [] => []
  | text => [.word text]

/-- The pieces of a text that follows the characters `run` of a word.  When `joined`, a `;` is no mark but starts a
word. -/
def pieces (joined : Bool) : (run : List UInt8) → (text : List UInt8) → List Piece
  | run, [] => wordOf run
  | run, ch :: text =>
    if isBlank ch then wordOf run ++ pieces joined [] text
    else if ch = Ch.semicolon ∧ joined then wordOf run ++ pieces joined [ch] text
    else if isMark ch then wordOf run ++ .mark ch :: pieces joined [] text
    else pieces joined (run ++ [ch]) text

/-- The line as words and marks. -/
def reading (line : List UInt8) : List Piece := pieces false [] line

/-- The line as the shell reads it. -/
def joinedReading (line : List UInt8) : List Piece := pieces true [] line

def redirects (ch : UInt8) : Bool := ch = Ch.less ∨ ch = Ch.greater

/-- The commands of a line whose first words are `argv`, up to the first empty command or redirection without a file
name. -/
def commands : (argv : List (List UInt8)) → List Piece → List Call
  | _, [] => []
  | argv, .word text :: rest => commands (argv ++ [text]) rest
  | argv, .mark ch :: rest =>
    if redirects ch then
      match rest with
      | .word _ :: rest => commands argv rest
      | _ => []
    else if argv = [] then []
    else
      ⟨argv, ch ≠ Ch.bar ∧ ch ≠ Ch.ampersand, ch = Ch.bar⟩ ::
        if ch = Ch.newline then [] else commands [] rest

/-- Every command has fewer than `maxArg` words, the first one counting `n` words before the line. -/
def Short : Nat → List Piece → Prop
  | n, [] => n < maxArg
  | n, .word _ :: rest => Short (n + 1) rest
  | n, .mark ch :: rest =>
    if redirects ch then
      match rest with
      | .word _ :: rest => Short n rest
      | rest => Short n rest
    else n < maxArg ∧ Short 0 rest

/-! ### What `parse_line` calls -/

/-- Whatever `open` and `pipe` answer, the calls of `run_program` are `calls`, as long as each of them returns. -/
def Parse.Calls : Parse → List Call → Prop
  | .openFile _ _ next, calls => ∀ fd, (next fd).Calls calls
  | .pipe next, calls => ∀ ends, (next ends).Calls calls
  | .runProgram call _ _ next, calls => ∃ rest, calls = call :: rest ∧ next.Calls rest
  | .close _ next, calls => next.Calls calls
  | .error _ _ next, calls => next.Calls calls
  | .ret, calls => calls = []
  | .fault, _ => False

/-- In the joined reading, a redirection without a file name or an empty command comes before any command with
words, `n` of which are read, and the words until then fit `argv`. -/
def Silent : Nat → List Piece → Prop
  | _, [] => True
  | n, .word _ :: rest => n < maxArg ∧ Silent (n + 1) rest
  | n, .mark ch :: rest =>
    if redirects ch then
      match rest with
      | .word _ :: rest => Silent n rest
      | _ => True
    else n = 0

/-- In the joined reading, no `;` is reached before the line is given up or ends, or the first one reached starts a
command or stands for a file name, and is followed by silence. -/
def Agrees : Nat → List Piece → Prop
  | _, [] => True
  | n, .word text :: rest =>
    if text.head? = some Ch.semicolon then n = 0 ∧ Silent 1 rest else Agrees (n + 1) rest
  | n, .mark ch :: rest =>
    if redirects ch then
      match rest with
      | .word text :: rest => if text.head? = some Ch.semicolon then Silent n rest else Agrees n rest
      | _ => True
    else if n = 0 ∨ ch = Ch.newline then True
    else Agrees 0 rest

/-! ### The shell reads the line with `;` joined -/

def markType (ch : UInt8) : TokenType :=
  if ch = Ch.newline then .newline
  else if ch = Ch.less then .input
  else if ch = Ch.greater then .output
  else if ch = Ch.ampersand then .ampersand
  else if ch = Ch.bar then .pipe
  else .semicolon

def Piece.token : Piece → Token
  | .word text => ⟨.normal, text⟩
  | .mark ch => ⟨markType ch, [ch]⟩

variable {joined : Bool} {run text : List UInt8} {ch : UInt8}

private theorem pieces_nil : pieces joined run [] = wordOf run := rfl

private theorem pieces_cons : pieces joined run (ch :: text) =
    if isBlank ch then wordOf run ++ pieces joined [] text
    else if ch = Ch.semicolon ∧ joined then wordOf run ++ pieces joined [ch] text
    else if isMark ch then wordOf run ++ .mark ch :: pieces joined [] text
    else pieces joined (run ++ [ch]) text := rfl

private theorem endOfToken_eq (h : ch ≠ 0) : endOfToken ch = (isBlank ch || isMark ch) := by
  simp only [endOfToken, isBlank, isMark, h, false_or, Bool.decide_or]
  ac_rfl

/-- A word goes on up to the next end of a token. -/
private theorem pieces_run (h0 : 0 ∉ text) :
    pieces joined run text = wordOf (run ++ text.takeWhile fun x => !endOfToken x) ++
      pieces joined [] (text.dropWhile fun x => !endOfToken x) := by
  induction text generalizing run with
  | nil => simp [pieces_nil, wordOf]
  | cons ch text ih =>
    obtain ⟨hch, htext⟩ : 0 ≠ ch ∧ 0 ∉ text := by simpa using h0
    have he := endOfToken_eq (Ne.symm hch)
    by_cases hend : endOfToken ch = true
    · rw [List.takeWhile_cons_of_neg (by simpa using hend), List.dropWhile_cons_of_neg (by simpa using hend),
        List.append_nil]
      rw [hend] at he
      simp only [pieces_cons, wordOf, List.nil_append]
      split
      · rfl
      · split
        · rfl
        · rename_i hblank _
          rw [if_pos (by simpa [hblank] using he.symm), if_pos (by simpa [hblank] using he.symm)]
    · rw [List.takeWhile_cons_of_pos (by simpa using hend), List.dropWhile_cons_of_pos (by simpa using hend)]
      have hnot : isBlank ch = false ∧ isMark ch = false := by simpa [he] using hend
      have hsemi : ch ≠ Ch.semicolon := by
        intro hc
        simp [hc, isMark] at hnot
      rw [pieces_cons, if_neg (by simp [hnot]), if_neg (by simp [hsemi]), if_neg (by simp [hnot]), ih htext,
        List.append_assoc, List.singleton_append]

private theorem pieces_dropBlanks : pieces joined [] (text.dropWhile isBlank) = pieces joined [] text := by
  induction text with
  | nil => rfl
  | cons ch text ih =>
    by_cases hb : isBlank ch = true
    · rw [List.dropWhile_cons_of_pos hb, ih]
      simp [pieces_cons, hb, wordOf]
    · rw [List.dropWhile_cons_of_neg hb]

private theorem gettoken_mark {rest : List UInt8} (hd : text.dropWhile isBlank = ch :: rest)
    (hmark : isMark ch = true) (hsemi : ch ≠ Ch.semicolon) :
    gettoken text = some (⟨markType ch, [ch]⟩, rest) := by
  simp only [isMark, hsemi, false_or, decide_eq_true_eq] at hmark
  rcases hmark with rfl | rfl | rfl | rfl | rfl <;> (rw [gettoken, hd]; rfl)

private theorem gettoken_word {rest : List UInt8} (hd : text.dropWhile isBlank = ch :: rest) (h0 : 0 ∉ ch :: rest)
    (hmark : isMark ch = true → ch = Ch.semicolon) :
    gettoken text = some (⟨.normal, ch :: rest.takeWhile fun x => !endOfToken x⟩,
      rest.dropWhile fun x => !endOfToken x) := by
  have hchar : ch ≠ Ch.newline ∧ ch ≠ Ch.less ∧ ch ≠ Ch.greater ∧ ch ≠ Ch.ampersand ∧ ch ≠ Ch.bar := by
    refine ⟨?_, ?_, ?_, ?_, ?_⟩ <;> (rintro rfl; exact absurd (hmark (by decide)) (by decide))
  have htext : ((ch :: rest.takeWhile fun x => !endOfToken x).takeWhile fun x => x ≠ 0) =
      ch :: rest.takeWhile fun x => !endOfToken x := by
    apply List.takeWhile_eq_self_iff.2
    intro x hx
    have hmem : x ∈ ch :: rest := ((List.takeWhile_sublist _).cons_cons ch).subset hx
    simpa using fun hc : x = 0 => h0 (hc ▸ hmem)
  simp only [gettoken, hd, hchar, if_false, htext]

private theorem gettokensFor_eq {n : Nat} {text : List UInt8} (hn : text.length ≤ n) (h0 : 0 ∉ text) :
    gettokensFor n text = (pieces true [] text).map Piece.token := by
  induction n generalizing text with
  | zero =>
    obtain rfl : text = [] := List.length_eq_zero_iff.1 (Nat.le_zero.1 hn)
    rfl
  | succ n ih =>
    rw [← pieces_dropBlanks]
    have hlen := (List.dropWhile_sublist (l := text) isBlank).length_le
    have hsub := (List.dropWhile_sublist (l := text) isBlank).subset
    cases hd : text.dropWhile isBlank with
    | nil => simp [gettokensFor, gettoken, hd, pieces_nil, wordOf]
    | cons ch rest =>
      rw [hd] at hlen hsub
      have hch : ch ≠ 0 := fun hc => h0 (hsub (by simp [hc]))
      have hrest : 0 ∉ rest := fun hc => h0 (hsub (by simp [hc]))
      have hlen' : rest.length ≤ n := by
        rw [List.length_cons] at hlen
        omega
      have hblank : isBlank ch = false := by
        have := List.head?_dropWhile_not isBlank text
        rw [hd] at this
        simpa using this
      by_cases hmark : isMark ch = true ∧ ch ≠ Ch.semicolon
      · rw [gettokensFor, gettoken_mark hd hmark.1 hmark.2]
        simp [pieces_cons, hblank, hmark, wordOf, Piece.token, ih hlen' hrest]
      · have hmark' : isMark ch = true → ch = Ch.semicolon := fun h => by_contra fun hc => hmark ⟨h, hc⟩
        have hpieces : pieces true [] (ch :: rest) = pieces true [ch] rest := by
          by_cases hsemi : ch = Ch.semicolon
          · subst hsemi
            simp [pieces_cons, hblank, wordOf]
          · have hno : isMark ch = false := by simpa using fun h => hsemi (hmark' h)
            simp [pieces_cons, hblank, hsemi, hno]
        have hdrop := (List.dropWhile_sublist (l := rest) fun x => !endOfToken x)
        rw [gettokensFor, gettoken_word hd (by simp [Ne.symm hch, hrest]) hmark', hpieces, pieces_run hrest]
        simp only [List.singleton_append, wordOf, List.map_cons, Piece.token]
        rw [ih (le_trans hdrop.length_le hlen') (fun hc => hrest (hdrop.subset hc))]

theorem gettokens_eq {line : List UInt8} (h0 : 0 ∉ line) :
    gettokens line = (joinedReading line).map Piece.token :=
  gettokensFor_eq (Nat.le_refl _) h0

/-! ### The two readings go in step -/

/-- The first list is a reading and the second the joined reading of the same text. -/
inductive InStep : List Piece → List Piece → Prop
  | nil : InStep [] []
  | mark {ch : UInt8} {a b : List Piece} : ch ≠ Ch.semicolon → InStep a b → InStep (.mark ch :: a) (.mark ch :: b)
  | word {text : List UInt8} {a b : List Piece} : text.head? ≠ some Ch.semicolon → InStep a b →
      InStep (.word text :: a) (.word text :: b)
  | apart {text : List UInt8} {a b : List Piece} : text.head? = some Ch.semicolon →
      InStep (.mark Ch.semicolon :: a) (.word text :: b)

private theorem InStep.wordOf_append {a b : List Piece} (hrun : run.head? ≠ some Ch.semicolon) (h : InStep a b) :
    InStep (wordOf run ++ a) (wordOf run ++ b) := by
  cases run with
  | nil => exact h
  | cons ch run => exact .word hrun h

private theorem exists_pieces_cons (joined : Bool) (ch : UInt8) (run text : List UInt8) :
    ∃ more rest, pieces joined (ch :: run) text = .word (ch :: more) :: rest := by
  induction text generalizing run with
  | nil => exact ⟨run, [], rfl⟩
  | cons x text ih =>
    simp only [pieces_cons, wordOf, List.cons_append, List.nil_append]
    split
    · exact ⟨run, _, rfl⟩
    · split
      · exact ⟨run, _, rfl⟩
      · split
        · exact ⟨run, _, rfl⟩
        · exact ih (run ++ [x])

private theorem inStep_pieces (hrun : run.head? ≠ some Ch.semicolon) :
    InStep (pieces false run text) (pieces true run text) := by
  induction text generalizing run with
  | nil => simpa [pieces_nil] using InStep.nil.wordOf_append hrun
  | cons ch text ih =>
    have hrest : InStep (pieces false [] text) (pieces true [] text) := ih (by simp)
    simp only [pieces_cons]
    by_cases hb : isBlank ch = true
    · rw [if_pos hb, if_pos hb]
      exact hrest.wordOf_append hrun
    rw [if_neg hb, if_neg hb]
    by_cases hsemi : ch = Ch.semicolon
    · subst hsemi
      obtain ⟨more, rest, hmore⟩ := exists_pieces_cons true Ch.semicolon [] text
      rw [if_neg (by simp), if_pos (by decide), if_pos (by simp), hmore]
      exact InStep.wordOf_append hrun (.apart rfl)
    · have hnot : ∀ P : Prop, ¬(ch = Ch.semicolon ∧ P) := fun P h => hsemi h.1
      rw [if_neg (hnot _), if_neg (hnot _)]
      by_cases hmark : isMark ch = true
      · rw [if_pos hmark, if_pos hmark]
        exact InStep.wordOf_append hrun (.mark hsemi hrest)
      · rw [if_neg hmark, if_neg hmark]
        apply ih
        cases run with
        | nil => simpa using hsemi
        | cons x run => simpa using hrun

/-- The pieces end with the newline. -/
def EndsLine (b : List Piece) : Prop := b.getLast? = some (.mark Ch.newline)

private theorem EndsLine.tail {p q : Piece} {b : List Piece} (h : EndsLine (p :: q :: b)) : EndsLine (q :: b) := by
  rwa [EndsLine, List.getLast?_cons_cons] at h

private theorem endsLine_pieces (body : List UInt8) : EndsLine (pieces joined run (body ++ [Ch.newline])) := by
  induction body generalizing run with
  | nil =>
    have hnl : pieces joined run [Ch.newline] = wordOf run ++ [.mark Ch.newline] := by
      rw [pieces_cons, if_neg (by decide), if_neg (fun h => absurd h.1 (by decide)), if_pos (by decide)]
      rfl
    simp [EndsLine, hnl]
  | cons ch body ih =>
    have happ : ∀ (a : List Piece) (r : List UInt8),
        EndsLine (a ++ pieces joined r (body ++ [Ch.newline])) := by
      intro a r
      rw [EndsLine, List.getLast?_append, ih]
      rfl
    simp only [List.cons_append, pieces_cons]
    split
    · exact happ _ _
    · split
      · exact happ _ _
      · split
        · rw [List.append_cons]
          exact happ _ _
        · exact ih

/-! ### The calls of the loop -/

variable {argv : List (List UInt8)} {inputFd outputFd : Int} {pipeFd : Int × Int} {calls : List Call}
  {tokens : List Token}

private theorem calls_redirect {P : Prop} {file : Token} {mode : OpenMode} {fmt : String} {next : Int → Parse}
    (hfile : file.type = .normal) (hnext : ∀ fd, (next fd).Calls calls ↔ P) :
    (redirect file mode fmt next).Calls calls ↔ P := by
  rw [redirect, if_neg (fun h => h hfile)]
  constructor
  · intro hall
    exact (hnext (-1)).1 (hall none)
  · intro hP fd
    cases fd with
    | none => exact (hnext (-1)).2 hP
    | some fd => exact (hnext fd).2 hP

/-- A redirection without a file name ends the line. -/
private theorem calls_redirect_noFile {file : Token} {mode : OpenMode} {fmt : String} {next : Int → Parse}
    (hfile : file.type ≠ .normal) : (redirect file mode fmt next).Calls calls ↔ calls = [] := by
  rw [redirect, if_pos hfile]
  rfl

private theorem calls_endCommand {type : TokenType} {call : Call} {next : Int → Parse} {P : List Call → Prop}
    (hnext : call.argv ≠ [] → type ≠ .newline → ∀ fd rest, (next fd).Calls rest ↔ P rest) :
    (endCommand type call inputFd outputFd pipeFd next).Calls calls ↔
      if call.argv = [] then calls = []
      else ∃ rest, calls = call :: rest ∧ if type = .newline then rest = [] else P rest := by
  simp only [endCommand, List.length_eq_zero_iff]
  split
  · rfl
  · rename_i hargv
    have hproceed : ∀ fd rest, (if type = .newline then Parse.ret else next fd).Calls rest ↔
        if type = .newline then rest = [] else P rest := by
      intro fd rest
      split
      · rfl
      · rename_i hnl
        exact hnext hargv hnl fd rest
    apply exists_congr
    intro rest
    apply and_congr_right
    intro _
    split
    · exact hproceed _ _
    · exact hproceed _ _

/-- A mark for a redirection. -/
private theorem calls_loopRedirect {P : Prop} {file : Token} (h : argv.length ≤ maxArg) (hch : redirects ch = true)
    (hrest : ∀ mode fmt next, (∀ fd, ∃ i o, next fd = parseLoop tokens argv i o pipeFd) →
      ((redirect file mode fmt next).Calls calls ↔ P)) :
    (parseLoop (Piece.token (.mark ch) :: file :: tokens) argv inputFd outputFd pipeFd).Calls calls ↔ P := by
  simp only [redirects, decide_eq_true_eq] at hch
  rcases hch with rfl | rfl
  · rw [show Piece.token (.mark Ch.less) = ⟨.input, [Ch.less]⟩ from rfl, parseLoop_input h]
    exact hrest _ _ _ fun fd => ⟨_, _, rfl⟩
  · rw [show Piece.token (.mark Ch.greater) = ⟨.output, [Ch.greater]⟩ from rfl, parseLoop_output h]
    exact hrest _ _ _ fun fd => ⟨_, _, rfl⟩

theorem markType_ne_normal : markType ch ≠ .normal := by
  unfold markType
  split_ifs <;> simp

/-- A redirection at the very end runs past it. -/
private theorem calls_lastMark (h : argv.length ≤ maxArg) (hch : redirects ch = true) :
    ¬(parseLoop [Piece.token (.mark ch)] argv inputFd outputFd pipeFd).Calls calls := by
  simp only [redirects, decide_eq_true_eq] at hch
  have hfault : parseLoop [Piece.token (.mark ch)] argv inputFd outputFd pipeFd = .fault := by
    rcases hch with rfl | rfl
    · exact if_neg (Nat.not_lt.2 h)
    · exact if_neg (Nat.not_lt.2 h)
  rw [hfault]
  exact id

/-- A mark that ends a command. -/
private theorem calls_mark {P : List Call → Prop} (h : argv.length ≤ maxArg) (hch : redirects ch = false)
    (hrest : argv ≠ [] → ch ≠ Ch.newline → ∀ i o p rest, (parseLoop tokens [] i o p).Calls rest ↔ P rest) :
    (parseLoop (Piece.token (.mark ch) :: tokens) argv inputFd outputFd pipeFd).Calls calls ↔
      if argv = [] then calls = []
      else ∃ rest, calls = ⟨argv, ch ≠ Ch.bar ∧ ch ≠ Ch.ampersand, ch = Ch.bar⟩ :: rest ∧
        if ch = Ch.newline then rest = [] else P rest := by
  simp only [redirects, decide_eq_false_iff_not, not_or] at hch
  by_cases hbar : ch = Ch.bar
  · subst hbar
    have hnl : Ch.bar ≠ Ch.newline := by decide
    have hend : ∀ o p, (endCommand .pipe ⟨argv, false, true⟩ inputFd o p
        fun fd => parseLoop tokens [] fd stdoutFileno p).Calls calls ↔ _ :=
      fun o p => calls_endCommand fun hargv _ fd rest => hrest hargv hnl fd _ _ rest
    have hpipe : (parseLoop (Piece.token (.mark Ch.bar) :: tokens) argv inputFd outputFd pipeFd) = .pipe _ :=
      if_neg (Nat.not_lt.2 h)
    rw [hpipe]
    constructor
    · intro hall
      simpa [hnl] using (hend _ _).1 (hall none)
    · intro hc ends
      cases ends with
      | none => exact (hend _ _).2 (by simpa [hnl] using hc)
      | some ends => exact (hend _ _).2 (by simpa [hnl] using hc)
  · have htype : markType ch = .ampersand ∨ markType ch = .newline ∨ markType ch = .semicolon := by
      unfold markType
      split_ifs <;> simp_all
    have hnl : markType ch = .newline ↔ ch = Ch.newline := by
      unfold markType
      split_ifs <;> simp_all
    have hamp : markType ch = .ampersand ↔ ch = Ch.ampersand := by
      have hne : Ch.newline ≠ Ch.ampersand := by decide
      unfold markType
      split_ifs <;> simp_all
    rw [Piece.token, parseLoop_end h htype,
      calls_endCommand fun hargv hne fd rest => hrest hargv (fun hc => hne (hnl.2 hc)) fd _ _ rest]
    simp [hbar, hnl, hamp]

/-- The calls on a line as the shell reads it; `none` when it writes past the end of `argv` or runs past the end of
the line. -/
def shellCalls : (argv : List (List UInt8)) → List Piece → Option (List Call)
  | _, [] => none
  | argv, .word text :: rest => if maxArg < argv.length then none else shellCalls (argv ++ [text]) rest
  | argv, .mark ch :: rest =>
    if maxArg < argv.length then none
    else if redirects ch then
      match rest with
      | [] => none
      | .word _ :: rest => shellCalls argv rest
      | .mark _ :: _ => some []
    else if argv = [] then some []
    else if ch = Ch.newline then some [⟨argv, true, false⟩]
    else (shellCalls [] rest).map (⟨argv, ch ≠ Ch.bar ∧ ch ≠ Ch.ampersand, ch = Ch.bar⟩ :: ·)

private theorem calls_iff {b : List Piece} :
    (parseLoop (b.map Piece.token) argv inputFd outputFd pipeFd).Calls calls ↔ shellCalls argv b = some calls := by
  fun_induction shellCalls argv b generalizing inputFd outputFd pipeFd calls with
  | case1 argv => exact iff_of_false id (by simp)
  | case2 argv text rest hover =>
    rw [parseLoop_over hover]
    exact iff_of_false id (by simp)
  | case3 argv text rest hfit ih =>
    rw [List.map_cons, Piece.token, parseLoop_normal (Nat.not_lt.1 hfit)]
    exact ih
  | case4 argv ch rest hover =>
    rw [parseLoop_over hover]
    exact iff_of_false id (by simp)
  | case5 argv ch hfit hch => simp [calls_lastMark (Nat.not_lt.1 hfit) hch]
  | case6 argv ch hfit hch text rest ih =>
    refine calls_loopRedirect (Nat.not_lt.1 hfit) hch fun mode fmt next hnext => calls_redirect rfl fun fd => ?_
    obtain ⟨i, o, hfd⟩ := hnext fd
    rw [hfd]
    exact ih
  | case7 argv ch hfit hch x rest =>
    apply calls_loopRedirect (Nat.not_lt.1 hfit) hch
    intro mode fmt next _
    rw [calls_redirect_noFile markType_ne_normal, Option.some_inj, eq_comm]
  | case8 ch rest hch hfit =>
    rw [List.map_cons, calls_mark (P := fun _ => False) (Nat.zero_le _) (by simpa using hch) fun h => absurd rfl h]
    simp [eq_comm]
  | case9 argv rest hfit hargv hch =>
    rw [List.map_cons, calls_mark (P := fun _ => False) (Nat.not_lt.1 hfit) (by simpa using hch)
      fun _ h => absurd rfl h]
    have hbar : Ch.newline ≠ Ch.bar := by decide
    have hamp : Ch.newline ≠ Ch.ampersand := by decide
    simp [hargv, hbar, hamp, eq_comm]
  | case10 argv ch rest hfit hch hargv hnl ih =>
    rw [List.map_cons, calls_mark (Nat.not_lt.1 hfit) (by simpa using hch) fun _ _ i o p rest' => ih]
    simp only [hargv, hnl, if_false, Option.map_eq_some_iff]
    exact exists_congr fun rest' => and_comm.trans (and_congr_right fun _ => eq_comm)

/-! ### The commands and the calls -/

private theorem shellCalls_over {b : List Piece} (h : maxArg < argv.length) : shellCalls argv b = none := by
  cases b with
  | nil => rfl
  | cons p b =>
    cases p with
    | word text => exact if_pos h
    | mark ch => cases b with
      | nil => exact if_pos h
      | cons q b => cases q with
        | word | mark => exact if_pos h

private theorem shellCalls_word {b : List Piece} (h : argv.length ≤ maxArg) :
    shellCalls argv (.word text :: b) = shellCalls (argv ++ [text]) b := if_neg (Nat.not_lt.2 h)

private theorem shellCalls_file {b : List Piece} (h : argv.length ≤ maxArg) (hch : redirects ch = true) :
    shellCalls argv (.mark ch :: .word text :: b) = shellCalls argv b :=
  (if_neg (Nat.not_lt.2 h)).trans (if_pos hch)

private theorem shellCalls_noFile {b : List Piece} {x : UInt8} (h : argv.length ≤ maxArg)
    (hch : redirects ch = true) : shellCalls argv (.mark ch :: .mark x :: b) = some [] :=
  (if_neg (Nat.not_lt.2 h)).trans (if_pos hch)

private theorem shellCalls_mark {b : List Piece} (h : argv.length ≤ maxArg) (hch : redirects ch = false) :
    shellCalls argv (.mark ch :: b) =
      if argv = [] then some []
      else if ch = Ch.newline then some [⟨argv, true, false⟩]
      else (shellCalls [] b).map (⟨argv, ch ≠ Ch.bar ∧ ch ≠ Ch.ampersand, ch = Ch.bar⟩ :: ·) := by
  have hch' : ¬redirects ch = true := by simp [hch]
  cases b with
  | nil => exact (if_neg (Nat.not_lt.2 h)).trans (if_neg hch')
  | cons q b => cases q with
    | word | mark => exact (if_neg (Nat.not_lt.2 h)).trans (if_neg hch')

/-- The next call starts with the words read. -/
private theorem length_le_of_shellCalls {b : List Piece} {call : Call} (h : shellCalls argv b = some (call :: calls)) :
    argv.length ≤ call.argv.length := by
  fun_induction shellCalls argv b with
  | case1 | case2 | case4 | case5 | case7 | case8 => cases h
  | case3 argv text rest _ ih =>
    have := ih h
    rw [List.length_append] at this
    omega
  | case6 argv ch _ _ text rest ih => exact ih h
  | case9 argv rest _ _ _ =>
    cases h
    exact Nat.le_refl _
  | case10 argv ch rest _ _ _ _ _ =>
    obtain ⟨rest', -, hcalls⟩ := Option.map_eq_some_iff.1 h
    cases hcalls
    exact Nat.le_refl _

/-- A line that goes on after a redirection without a file name has a mark there. -/
private theorem EndsLine.noFile {b : List Piece} (hch : redirects ch = true) (hb : EndsLine (.mark ch :: b))
    (hword : ∀ text rest, b = .word text :: rest → False) : ∃ x rest, b = .mark x :: rest := by
  cases b with
  | nil =>
    obtain rfl : ch = Ch.newline := by simpa [EndsLine] using hb
    exact absurd hch (by decide)
  | cons p rest =>
    cases p with
    | word text => exact absurd rfl (hword text rest)
    | mark x => exact ⟨x, rest, rfl⟩

private theorem EndsLine.of_word {b : List Piece} (h : EndsLine (.word text :: b)) : EndsLine b := by
  cases b with
  | nil => simp [EndsLine] at h
  | cons q b => exact h.tail

private theorem shellCalls_nil_iff {n : Nat} {b : List Piece} (hb : EndsLine b) (hn : argv.length = n)
    (hle : n ≤ maxArg) : shellCalls argv b = some [] ↔ Silent n b := by
  fun_induction Silent n b generalizing argv with
  | case1 n => cases hb
  | case2 n text rest ih =>
    rw [shellCalls_word (by omega)]
    by_cases hlt : n < maxArg
    · rw [ih hb.of_word (by simp [hn]) hlt]
      simp [hlt]
    · have hover : shellCalls (argv ++ [text]) rest = none := shellCalls_over (by simp [hn]; omega)
      simp [hover, hlt]
  | case3 n ch hch text rest ih =>
    rw [shellCalls_file (by omega) hch]
    exact ih hb.tail.of_word hn hle
  | case4 n ch rest hch hrest =>
    obtain ⟨x, rest, rfl⟩ := hb.noFile hch hrest
    rw [shellCalls_noFile (by omega) hch]
    simp
  | case5 n ch rest hch =>
    rw [shellCalls_mark (by omega) (by simpa using hch), ← hn, List.length_eq_zero_iff]
    by_cases hargv : argv = []
    · simp [hargv]
    · rw [if_neg hargv]
      split
      · simp [hargv]
      · simp [hargv, Option.map_eq_some_iff]

private theorem Short.lt {n : Nat} {a : List Piece} (h : Short n a) : n < maxArg := by
  fun_induction Short n a with
  | case1 n => exact h
  | case2 n text rest ih => exact Nat.lt_of_succ_lt (ih h)
  | case3 n ch _ text rest ih => exact ih h
  | case4 n ch rest _ _ ih => exact ih h
  | case5 n ch rest _ _ => exact h.1

private theorem Short.length_le {n : Nat} {a : List Piece} (ha : Short n a) (hn : argv.length = n) :
    argv.length ≤ maxArg := hn.trans_le (Nat.le_of_lt ha.lt)

private theorem commands_word {a : List Piece} :
    commands argv (.word text :: a) = commands (argv ++ [text]) a := rfl

private theorem commands_file {a : List Piece} (hch : redirects ch = true) :
    commands argv (.mark ch :: .word text :: a) = commands argv a := if_pos hch

private theorem commands_noFile {a : List Piece} {x : UInt8} (hch : redirects ch = true) :
    commands argv (.mark ch :: .mark x :: a) = [] := if_pos hch

private theorem commands_mark {a : List Piece} (hch : redirects ch = false) :
    commands argv (.mark ch :: a) =
      if argv = [] then []
      else ⟨argv, ch ≠ Ch.bar ∧ ch ≠ Ch.ampersand, ch = Ch.bar⟩ ::
        if ch = Ch.newline then [] else commands [] a := by
  have hch' : ¬redirects ch = true := by simp [hch]
  cases a with
  | nil => exact if_neg hch'
  | cons q a => cases q with
    | word | mark => exact if_neg hch'

private theorem Short.file {n : Nat} {a : List Piece} (hch : redirects ch = true)
    (h : Short n (.mark ch :: .word text :: a)) : Short n a := by
  rwa [Short, if_pos hch] at h

private theorem Short.next {n : Nat} {a : List Piece} (hch : redirects ch = false) (h : Short n (.mark ch :: a)) :
    Short 0 a := by
  rw [Short.eq_def] at h
  simp only [hch, Bool.false_eq_true, if_false] at h
  exact h.2

/-- On a line whose commands are short, the shell's calls are the commands exactly when `Agrees` holds. -/
private theorem shellCalls_eq_commands_iff {n : Nat} {a b : List Piece} (hab : InStep a b) (hb : EndsLine b)
    (hn : argv.length = n) (ha : Short n a) : shellCalls argv b = some (commands argv a) ↔ Agrees n b := by
  fun_induction Agrees n b generalizing argv a with
  | case1 n => cases hb
  | case2 n text rest hsemi =>
    have hle : argv.length ≤ maxArg := ha.length_le hn
    cases hab with
    | word hne _ => exact absurd hsemi hne
    | apart _ =>
      rw [shellCalls_word hle, commands_mark (by decide)]
      by_cases hargv : argv = []
      · subst hargv
        rw [if_pos rfl, shellCalls_nil_iff hb.of_word (n := 1) rfl (by decide), ← hn]
        simp
      · -- the command before the `;` is over, but the call takes the `;` for its next word
        rw [if_neg hargv]
        constructor
        · intro h
          have hlen : (argv ++ [text]).length ≤ argv.length := length_le_of_shellCalls h
          rw [List.length_append, List.length_singleton] at hlen
          omega
        · intro h
          exact absurd (List.length_eq_zero_iff.1 (hn.trans h.1)) hargv
  | case3 n text rest hsemi ih =>
    have hle : argv.length ≤ maxArg := ha.length_le hn
    cases hab with
    | apart h => exact absurd h hsemi
    | word _ hab =>
      rw [shellCalls_word hle, commands_word]
      exact ih hab hb.of_word (by simp [hn]) ha
  | case4 n ch hch text rest hsemi =>
    have hle : argv.length ≤ maxArg := ha.length_le hn
    cases hab with
    | mark _ hab =>
      cases hab with
      | word hne _ => exact absurd hsemi hne
      | apart _ =>
        rw [shellCalls_file hle hch, commands_noFile hch]
        exact shellCalls_nil_iff hb.tail.of_word hn (Nat.le_of_lt ha.lt)
  | case5 n ch hch text rest hsemi ih =>
    have hle : argv.length ≤ maxArg := ha.length_le hn
    cases hab with
    | mark _ hab =>
      cases hab with
      | apart h => exact absurd h hsemi
      | word _ hab =>
        rw [shellCalls_file hle hch, commands_file hch]
        exact ih hab hb.tail.of_word hn (ha.file hch)
  | case6 n ch rest hch hrest =>
    have hle : argv.length ≤ maxArg := ha.length_le hn
    obtain ⟨x, rest, rfl⟩ := hb.noFile hch hrest
    cases hab with
    | mark _ hab =>
      cases hab with
      | mark _ _ =>
        rw [shellCalls_noFile hle hch, commands_noFile hch]
        simp
  | case7 n ch rest hch hend =>
    have hle : argv.length ≤ maxArg := ha.length_le hn
    have hch' : redirects ch = false := by simpa using hch
    cases hab with
    | mark _ _ =>
      rw [shellCalls_mark hle hch', commands_mark hch']
      rcases hend with rfl | rfl
      · rw [List.length_eq_zero_iff.1 hn]
        simp
      · have hbar : Ch.newline ≠ Ch.bar := by decide
        have hamp : Ch.newline ≠ Ch.ampersand := by decide
        split <;> simp [hbar, hamp]
  | case8 n ch rest hch hend ih =>
    have hle : argv.length ≤ maxArg := ha.length_le hn
    have hch' : redirects ch = false := by simpa using hch
    obtain ⟨hn0, hnl⟩ := not_or.1 hend
    have hargv : argv ≠ [] := fun h => hn0 (by rw [← hn, h]; rfl)
    cases hab with
    | mark _ hab =>
      have hrest : EndsLine rest := by
        cases rest with
        | nil => simp [EndsLine, hnl] at hb
        | cons p rest => exact hb.tail
      rw [shellCalls_mark hle hch', commands_mark hch', if_neg hargv, if_neg hnl, if_neg hargv, if_neg hnl,
        ← ih hab hrest List.length_nil (ha.next hch')]
      simp [Option.map_eq_some_iff]

/-- `parse_line` calls `run_program` with the commands that the line spells exactly on the lines of which `Agrees`
holds. -/
theorem calls_commands_iff {input line rest : List UInt8} (h : fetchLine input = some (line, rest)) (h0 : 0 ∉ line)
    (hshort : Short 0 (reading line)) :
    (∀ pipeFd, (parseLine line pipeFd).Calls (commands [] (reading line))) ↔ Agrees 0 (joinedReading line) := by
  obtain ⟨-, body, rfl, -⟩ := fetchLine_some h
  have hcalls : ∀ pipeFd,
      (parseLine (body ++ [Ch.newline]) pipeFd).Calls (commands [] (reading (body ++ [Ch.newline]))) ↔
        Agrees 0 (joinedReading (body ++ [Ch.newline])) := by
    intro pipeFd
    rw [parseLine, gettokens_eq h0, calls_iff]
    exact shellCalls_eq_commands_iff (inStep_pieces (by simp)) (endsLine_pieces body) rfl hshort
  constructor
  · intro hall
    exact (hcalls (0, 0)).1 (hall (0, 0))
  · intro hagrees pipeFd
    exact (hcalls pipeFd).2 hagrees

/-- `ls|wc` runs both programs, the first one in the background and into the pipe. -/
theorem calls_commands_pipe :
    commands [] (reading [108, 115, 124, 119, 99, 10]) = [⟨[[108, 115]], false, true⟩, ⟨[[119, 99]], true, false⟩] ∧
      ∀ pipeFd, (parseLine [108, 115, 124, 119, 99, 10] pipeFd).Calls
        (commands [] (reading [108, 115, 124, 119, 99, 10])) := by
  have hline : fetchLine [108, 115, 124, 119, 99, 10] = some ([108, 115, 124, 119, 99, 10], []) := rfl
  have hshort : Short 0 (reading [108, 115, 124, 119, 99, 10]) :=
    show 1 < maxArg ∧ 1 < maxArg ∧ 0 < maxArg by decide
  exact ⟨by decide, (calls_commands_iff hline (by decide) hshort).2 trivial⟩

/-- `ls;ls` runs `ls` once, with the argument `;ls`. -/
theorem not_calls_commands :
    ¬∀ input line rest : List UInt8, fetchLine input = some (line, rest) → 0 ∉ line → Short 0 (reading line) →
      ∀ pipeFd, (parseLine line pipeFd).Calls (commands [] (reading line)) := by
  intro h
  have hshort : Short 0 (reading [108, 115, 59, 108, 115, 10]) := show 1 < maxArg ∧ 1 < maxArg ∧ 0 < maxArg by decide
  have hls := h [108, 115, 59, 108, 115, 10] [108, 115, 59, 108, 115, 10] [] rfl (by decide) hshort (0, 0)
  rw [parseLine, gettokens_eq (by decide), calls_iff] at hls
  exact absurd hls (by decide)

end Edaf35.Shell
