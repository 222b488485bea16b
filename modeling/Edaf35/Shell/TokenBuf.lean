import Edaf35.Lib.Bytes
import Edaf35.Shell.Arguments

/-!
# The buffers of the shell

`fetch_line`, `gettoken` and the calls of `gettoken` in `parse_line`, with `input_buf`, `token_buf`, the indices of
`input_char` and `token` in them, and the pointers into `token_buf` that are stored in `argv`.  An access that is not
allowed ends the program (`none`).  `fetch_line` refines its reading of lines as lists, and each call of `gettoken` the
list of tokens, without such an access to `input_buf` and `token_buf`.  The only one that occurs is the store into
`argv` on a line with a command of too many words (`tokenize_safe_iff`).
-/

namespace Edaf35.Shell

/-! ### `fetch_line` -/

/-- A store into an array of `size` elements. -/
def storeAt {α : Type} (size : Nat) (buf : Nat → α) (i : Nat) (x : α) : Option (Nat → α) :=
  if i < size then some (Function.update buf i x) else none

/-- What `fetch_line` returns: `EOF`, or a positive number of characters, with the contents of `input_buf`.  The rest of
the input is still to be read. -/
inductive Fetched
  | eof
  | line (count : Nat) (inputBuf : Nat → UInt8) (input : List UInt8)

/-- The character read is stored if there is room for it. -/
def keepChar (inputBuf : Nat → UInt8) (count : Nat) (ch : UInt8) : Option ((Nat → UInt8) × Nat) :=
  if count < maxbuf then (storeAt maxbuf inputBuf count ch).map (·, count + 1) else some (inputBuf, count)

/-- The loop of `fetch_line`. -/
def fetchInto : (input : List UInt8) → (inputBuf : Nat → UInt8) → (count : Nat) → Option Fetched
  | [], _, _ => some .eof
  | ch :: input, inputBuf, count =>
    match keepChar inputBuf count ch with
    | none => none
    | some (inputBuf, count) =>
      if ch = Ch.newline ∧ count < maxbuf then
        (storeAt maxbuf inputBuf count 0).map fun inputBuf => .line count inputBuf input
      -- "too long input line"
      else if ch = Ch.newline then fetchInto input inputBuf 0
      else fetchInto input inputBuf count

/-- The characters `text` and a 0 are in the buffer from the start on. -/
structure Holds (inputBuf : Nat → UInt8) (text : List UInt8) : Prop where
  chars : ∀ i ch, text[i]? = some ch → inputBuf i = ch
  stop : inputBuf text.length = 0

private theorem storeAt_of_lt {α : Type} {size : Nat} {buf : Nat → α} {i : Nat} {x : α} (h : i < size) :
    storeAt size buf i x = some (Function.update buf i x) := if_pos h

private theorem keepChar_eq {buf : List UInt8} {inputBuf : Nat → UInt8} (hlen : buf.length ≤ maxbuf)
    (hbuf : ∀ i ch, buf[i]? = some ch → inputBuf i = ch) (ch : UInt8) :
    ∃ kept inputBuf', (if buf.length < maxbuf then buf ++ [ch] else buf) = kept ∧ kept.length ≤ maxbuf ∧
      keepChar inputBuf buf.length ch = some (inputBuf', kept.length) ∧
      ∀ i ch, kept[i]? = some ch → inputBuf' i = ch := by
  unfold keepChar
  by_cases hlt : buf.length < maxbuf
  · refine ⟨buf ++ [ch], Function.update inputBuf buf.length ch, if_pos hlt, ?_, ?_, fun i x hx => ?_⟩
    · rw [List.length_append, List.length_singleton]
      omega
    · rw [if_pos hlt, storeAt_of_lt hlt, List.length_append]
      rfl
    · rw [List.getElem?_append] at hx
      split at hx
      · rw [Function.update_of_ne (by omega)]
        exact hbuf i x hx
      · rename_i hi
        have hzero : i - buf.length = 0 := by
          by_contra hne
          rw [List.getElem?_eq_none (by rw [List.length_singleton]; omega)] at hx
          cases hx
        rw [hzero] at hx
        obtain rfl : i = buf.length := by omega
        rw [Function.update_self]
        exact Option.some.inj hx
  · exact ⟨buf, inputBuf, if_neg hlt, hlen, if_neg hlt, hbuf⟩

/-- `fetch_line` finds the lines that the reading of lines as lists finds, and stores only inside `input_buf`. -/
private theorem fetchInto_eq {input buf : List UInt8} {inputBuf : Nat → UInt8} (hlen : buf.length ≤ maxbuf)
    (hbuf : ∀ i ch, buf[i]? = some ch → inputBuf i = ch) :
    (fetchLoop input buf = none ∧ fetchInto input inputBuf buf.length = some .eof) ∨
      ∃ line rest inputBuf', fetchLoop input buf = some (line, rest) ∧
        fetchInto input inputBuf buf.length = some (.line line.length inputBuf' rest) ∧ Holds inputBuf' line := by
  induction input generalizing buf inputBuf with
  | nil => exact Or.inl ⟨rfl, rfl⟩
  | cons ch input ih =>
    obtain ⟨kept, inputBuf', hkept, hlen', hstore, hbuf'⟩ := keepChar_eq hlen hbuf ch
    simp only [fetchLoop, fetchInto, hkept, hstore]
    by_cases hdone : ch = Ch.newline ∧ kept.length < maxbuf
    · rw [if_pos hdone, if_pos hdone, storeAt_of_lt hdone.2]
      refine Or.inr ⟨kept, input, _, rfl, rfl, ⟨fun i x hx => ?_, Function.update_self ..⟩⟩
      have hi : i < kept.length := (List.getElem?_eq_some_iff.1 hx).1
      rw [Function.update_of_ne (by omega)]
      exact hbuf' i x hx
    · rw [if_neg hdone, if_neg hdone]
      split
      · exact @ih [] inputBuf' (Nat.zero_le _) (fun i x hx => (by cases hx))
      · exact ih hlen' hbuf'

/-! ### `gettoken` -/

/-- `input_char` and `token` are indices into `input_buf` and `token_buf`. -/
structure Scanner where
  inputBuf : Nat → UInt8
  inputChar : Nat
  tokenBuf : Nat → UInt8
  token : Nat

/-- `*input_char`, which may not lie behind the 0 at `count` that ends the line. -/
def Scanner.readChar (s : Scanner) (count : Nat) : Option UInt8 :=
  if s.inputChar ≤ count then some (s.inputBuf s.inputChar) else none

/-- `*token++ = ch`. -/
def Scanner.putToken (s : Scanner) (ch : UInt8) : Option Scanner :=
  (storeAt (2 * maxbuf) s.tokenBuf s.token ch).map fun tokenBuf => { s with tokenBuf, token := s.token + 1 }

/-- `input_char++`. -/
def Scanner.advance (s : Scanner) : Scanner := { s with inputChar := s.inputChar + 1 }

def skipBlanks (count : Nat) : (fuel : Nat) → Scanner → Option Scanner
  | 0, _ => none
  | fuel + 1, s => do
    let ch ← s.readChar count
    if isBlank ch then skipBlanks count fuel s.advance else some s

def copyWord (count : Nat) : (fuel : Nat) → Scanner → Option Scanner
  | 0, _ => none
  | fuel + 1, s => do
    let ch ← s.readChar count
    if endOfToken ch then some s
    else
      let s ← s.putToken ch
      copyWord count fuel s.advance

/-- The `switch` in `gettoken`. -/
def scanType (count : Nat) (s : Scanner) (ch : UInt8) : Option (TokenType × Scanner) :=
  if ch = Ch.newline then some (.newline, s)
  else if ch = Ch.less then some (.input, s)
  else if ch = Ch.greater then some (.output, s)
  else if ch = Ch.ampersand then some (.ampersand, s)
  else if ch = Ch.bar then some (.pipe, s)
  else (copyWord count (count + 1) s).map (.normal, ·)

/-- `gettoken` after its first store. -/
def scanToken (count : Nat) (s : Scanner) : Option (TokenType × Scanner) := do
  let s ← skipBlanks count (count + 1) s
  let ch ← s.readChar count
  let s ← s.putToken ch
  let (type, s) ← scanType count s.advance ch
  let s ← s.putToken 0
  some (type, s)

/-- The elements of `argv`, which are indices into `token_buf`, or `none` for a null pointer. -/
abbrev Argv := Nat → Option Nat

/-- A call of `gettoken`: the type that it returned, where the string of the token starts, and the scanner after it. -/
structure Taken where
  type : TokenType
  outptr : Nat
  scanner : Scanner

/-- `gettoken(&argv[argc])`. -/
def gettokenAt (count : Nat) (argv : Argv) (argc : Nat) (s : Scanner) : Option (Taken × Argv) := do
  let argv ← storeAt (maxArg + 1) argv argc (some s.token)
  let (type, scanned) ← scanToken count s
  some (⟨type, s.token, scanned⟩, argv)

/-- The characters from `input_char` to the end of the line. -/
structure Scanner.At (s : Scanner) (count : Nat) (text : List UInt8) : Prop where
  place : s.inputChar + text.length = count
  chars : ∀ i ch, text[i]? = some ch → s.inputBuf (s.inputChar + i) = ch

variable {s : Scanner} {count fuel : Nat} {ch : UInt8} {text rest : List UInt8}

private theorem Scanner.At.readChar (h : s.At count (ch :: text)) : s.readChar count = some ch := by
  have hplace := h.place
  rw [List.length_cons] at hplace
  unfold Scanner.readChar
  rw [if_pos (by omega)]
  exact congrArg some (h.chars 0 ch rfl)

private theorem Scanner.At.advance (h : s.At count (ch :: text)) : s.advance.At count text := by
  have hplace := h.place
  rw [List.length_cons] at hplace
  refine ⟨?_, fun i x hx => ?_⟩
  · unfold Scanner.advance
    dsimp only
    omega
  · have hchar := h.chars (i + 1) x hx
    rw [← Nat.add_assoc, Nat.add_right_comm] at hchar
    exact hchar

/-- The scanner after it wrote `l` and moved on by `n` characters. -/
def Scanner.wrote (s : Scanner) (n : Nat) (l : List UInt8) : Scanner :=
  { s with inputChar := s.inputChar + n, tokenBuf := fill s.tokenBuf s.token l, token := s.token + l.length }

private theorem putToken_eq (h : s.token < 2 * maxbuf) : s.putToken ch = some (s.wrote 0 [ch]) := by
  unfold Scanner.putToken
  rw [storeAt_of_lt h]
  rfl

theorem wrote_advance (s : Scanner) (n : Nat) (l : List UInt8) : (s.wrote n l).advance = s.wrote (n + 1) l := rfl

private theorem advance_eq_wrote (s : Scanner) : s.advance = s.wrote 1 [] := rfl

private theorem wrote_wrote (s : Scanner) (n m : Nat) (l l' : List UInt8) :
    (s.wrote n l).wrote m l' = s.wrote (n + m) (l ++ l') := by
  unfold Scanner.wrote
  simp only [fill_append, List.length_append, Nat.add_assoc]

private theorem Scanner.At.wrote (before : List UInt8) (h : s.At count (before ++ text)) (l : List UInt8) :
    (s.wrote before.length l).At count text := by
  have hplace := h.place
  rw [List.length_append] at hplace
  refine ⟨?_, fun i x hx => ?_⟩
  · unfold Scanner.wrote
    dsimp only
    omega
  · have hchar := h.chars (before.length + i) x
    rw [List.getElem?_append_right (by omega), Nat.add_sub_cancel_left, ← Nat.add_assoc] at hchar
    exact hchar hx

private theorem skipBlanks_eq {blanks : List UInt8} (h : s.At count (blanks ++ ch :: rest))
    (hblanks : ∀ x ∈ blanks, isBlank x = true) (hch : isBlank ch = false) (hfuel : blanks.length < fuel) :
    skipBlanks count fuel s = some (s.wrote blanks.length []) := by
  induction blanks generalizing s fuel with
  | nil =>
    cases fuel with
    | zero => cases hfuel
    | succ fuel =>
      simp only [skipBlanks, h.readChar, Option.bind_eq_bind, Option.bind_some, hch, Bool.false_eq_true, if_false]
      rfl
  | cons blank blanks ih =>
    cases fuel with
    | zero => cases hfuel
    | succ fuel =>
      have hrest := ih h.advance (fun x hx => hblanks x (List.mem_cons_of_mem _ hx)) (Nat.lt_of_succ_lt_succ hfuel)
      simp only [skipBlanks, h.readChar, Option.bind_eq_bind, Option.bind_some, hblanks blank List.mem_cons_self,
        if_true]
      rw [hrest, advance_eq_wrote, wrote_wrote, List.length_cons, Nat.add_comm]
      rfl

private theorem copyWord_eq {word : List UInt8} (h : s.At count (word ++ ch :: rest))
    (hword : ∀ x ∈ word, endOfToken x = false) (hch : endOfToken ch = true) (hfuel : word.length < fuel)
    (hroom : s.token + word.length ≤ 2 * maxbuf) :
    copyWord count fuel s = some (s.wrote word.length word) := by
  induction word generalizing s fuel with
  | nil =>
    cases fuel with
    | zero => cases hfuel
    | succ fuel =>
      simp only [copyWord, h.readChar, Option.bind_eq_bind, Option.bind_some, hch, if_true]
      rfl
  | cons first word ih =>
    cases fuel with
    | zero => cases hfuel
    | succ fuel =>
      rw [List.length_cons] at hroom
      have hput : s.putToken first = some (s.wrote 0 [first]) := putToken_eq (by omega)
      have hnext : (s.wrote 1 [first]).At count (word ++ ch :: rest) := Scanner.At.wrote [first] h _
      have hrest := ih hnext (fun x hx => hword x (List.mem_cons_of_mem _ hx)) (Nat.lt_of_succ_lt_succ hfuel)
        (by unfold Scanner.wrote; dsimp only [List.length_singleton]; omega)
      simp only [copyWord, h.readChar, Option.bind_eq_bind, Option.bind_some, hword first List.mem_cons_self,
        Bool.false_eq_true, if_false, hput, wrote_advance]
      rw [hrest, wrote_wrote, List.length_cons, Nat.add_comm]
      rfl

/-- A string: its characters, none of them 0, and a 0 after them. -/
structure StringAt (buf : Nat → UInt8) (p : Nat) (text : List UInt8) : Prop where
  chars : ∀ i ch, text[i]? = some ch → buf (p + i) = ch
  nonzero : 0 ∉ text
  stop : buf (p + text.length) = 0

/-- The string that starts at characters that are written with a 0 after them. -/
private theorem stringAt_fill (buf : Nat → UInt8) (p : Nat) (bytes : List UInt8) :
    StringAt (fill buf p (bytes ++ [0])) p (bytes.takeWhile fun x => x ≠ 0) := by
  have hsplit : bytes.takeWhile (fun x => x ≠ 0) ++ bytes.dropWhile (fun x => x ≠ 0) = bytes :=
    List.takeWhile_append_dropWhile
  have hhead := List.head?_dropWhile_not (fun x : UInt8 => decide (x ≠ 0)) bytes
  have hnonzero : ∀ x ∈ bytes.takeWhile fun x => x ≠ 0, x ≠ 0 := fun x hx => by simpa using List.mem_takeWhile_imp hx
  generalize bytes.takeWhile (fun x => x ≠ 0) = kept at *
  generalize bytes.dropWhile (fun x => x ≠ 0) = dropped at *
  subst hsplit
  refine ⟨fun i ch hch => ?_, fun hmem => hnonzero 0 hmem rfl, ?_⟩
  · apply fill_get
    have hi : i < kept.length := (List.getElem?_eq_some_iff.1 hch).1
    rw [List.append_assoc, List.getElem?_append_left hi]
    exact hch
  · apply fill_get
    rw [List.append_assoc, List.getElem?_append_right (Nat.le_refl _), Nat.sub_self]
    cases dropped with
    | nil => rfl
    | cons x dropped =>
      have hzero : x = 0 := by simpa using hhead
      rw [hzero]
      rfl

/-- A line cut before its first character without the property `p`, which the newline does not have. -/
private theorem line_span {p : UInt8 → Bool} (hp : p Ch.newline = false) (body : List UInt8) :
    ∃ before stop rest, (body ++ [Ch.newline]).takeWhile p = before ∧
      (body ++ [Ch.newline]).dropWhile p = stop :: rest ∧ before ++ stop :: rest = body ++ [Ch.newline] ∧
      (∀ x ∈ before, p x = true) ∧ p stop = false ∧ (stop ≠ Ch.newline → ∃ more, rest = more ++ [Ch.newline]) := by
  have hsplit : (body ++ [Ch.newline]).takeWhile p ++ (body ++ [Ch.newline]).dropWhile p = body ++ [Ch.newline] :=
    List.takeWhile_append_dropWhile
  have hhead := List.head?_dropWhile_not p (body ++ [Ch.newline])
  have hbefore : ∀ x ∈ (body ++ [Ch.newline]).takeWhile p, p x = true := fun x hx => List.mem_takeWhile_imp hx
  rw [dropWhile_newline hp] at hsplit hhead ⊢
  cases hd : body.dropWhile p with
  | nil =>
    rw [hd] at hsplit
    exact ⟨_, Ch.newline, [], rfl, rfl, hsplit, hbefore, hp, fun h => absurd rfl h⟩
  | cons stop more =>
    rw [hd] at hsplit hhead
    exact ⟨_, stop, more ++ [Ch.newline], rfl, rfl, hsplit, hbefore, by simpa using hhead, fun _ => ⟨more, rfl⟩⟩

/-- The `switch` finds the type and copies the rest of a word. -/
private theorem scanType_eq {tail : List UInt8} (hd : text.dropWhile isBlank = ch :: tail)
    (hlast : ch ≠ Ch.newline → ∃ more, tail = more ++ [Ch.newline]) (h : s.At count tail)
    (hroom : s.token + tail.length ≤ 2 * maxbuf) :
    ∃ token rest word, gettoken text = some (token, rest) ∧ tail = word ++ rest ∧
      scanType count s ch = some (token.type, s.wrote word.length word) ∧
      token.text = (ch :: word).takeWhile fun x => x ≠ 0 := by
  unfold gettoken scanType
  rw [hd]
  dsimp only
  split
  · rename_i hch
    subst hch
    exact ⟨_, tail, [], rfl, rfl, rfl, rfl⟩
  split
  · rename_i hch
    subst hch
    exact ⟨_, tail, [], rfl, rfl, rfl, rfl⟩
  split
  · rename_i hch
    subst hch
    exact ⟨_, tail, [], rfl, rfl, rfl, rfl⟩
  split
  · rename_i hch
    subst hch
    exact ⟨_, tail, [], rfl, rfl, rfl, rfl⟩
  split
  · rename_i hch
    subst hch
    exact ⟨_, tail, [], rfl, rfl, rfl, rfl⟩
  · rename_i hnl _ _ _ _
    obtain ⟨more, rfl⟩ := hlast hnl
    obtain ⟨word, stop, rest, htake, hdrop, hsplit, hword, hstop, -⟩ :=
      line_span (p := fun x => !endOfToken x) (by decide) more
    rw [htake, hdrop]
    rw [← hsplit] at h hroom
    have hplace := h.place
    rw [List.length_append] at hplace hroom
    have hcopy : copyWord count (count + 1) s = some (s.wrote word.length word) :=
      copyWord_eq h (fun x hx => by simpa using hword x hx) (by simpa using hstop) (by omega) (by omega)
    rw [hcopy]
    exact ⟨_, stop :: rest, word, rfl, hsplit.symm, rfl, rfl⟩

/-- On a line `gettoken` writes at most one character more into `token_buf` than it consumes, and gives the next token
of the line. -/
private theorem scanToken_eq {body : List UInt8} (h : s.At count (body ++ [Ch.newline]))
    (hroom : s.token + 2 * (body.length + 1) ≤ 2 * maxbuf) :
    ∃ token rest n bytes, gettoken (body ++ [Ch.newline]) = some (token, rest) ∧
      scanToken count s = some (token.type, s.wrote n (bytes ++ [0])) ∧
      (s.wrote n (bytes ++ [0])).At count rest ∧ token.text = (bytes.takeWhile fun x => x ≠ 0) ∧
      0 < bytes.length ∧ bytes.length + rest.length ≤ body.length + 1 := by
  obtain ⟨blanks, ch, tail, -, hd, hsplit, hblanks, hch, hlast⟩ := line_span (p := isBlank) (by decide) body
  rw [← hsplit] at h
  have hlen := congrArg List.length hsplit
  rw [List.length_append, List.length_cons, List.length_append, List.length_singleton] at hlen
  have hskipped : skipBlanks count (count + 1) s = some (s.wrote blanks.length []) := by
    have hplace := h.place
    rw [List.length_append] at hplace
    exact skipBlanks_eq h hblanks hch (by omega)
  have hread : (s.wrote blanks.length []).readChar count = some ch := (Scanner.At.wrote blanks h []).readChar
  have hput : (s.wrote blanks.length []).putToken ch = some (s.wrote blanks.length [ch]) := by
    have hsame : (s.wrote blanks.length []).token = s.token := rfl
    have hlt : (s.wrote blanks.length []).token < 2 * maxbuf := by omega
    rw [putToken_eq hlt, wrote_wrote]
    rfl
  have hnext : (s.wrote (blanks.length + 1) [ch]).At count tail := by
    rw [List.append_cons] at h
    have hwrote := Scanner.At.wrote (blanks ++ [ch]) h [ch]
    rwa [List.length_append, List.length_singleton] at hwrote
  have htoken : (s.wrote (blanks.length + 1) [ch]).token = s.token + 1 := rfl
  obtain ⟨token, rest, word, hget, rfl, hscan, htext⟩ := scanType_eq hd hlast hnext (by omega)
  rw [List.length_append] at hlen
  have hend : (s.wrote (blanks.length + 1 + word.length) ([ch] ++ word)).putToken 0 =
      some (s.wrote (blanks.length + 1 + word.length) (ch :: word ++ [0])) := by
    have hmore : (s.wrote (blanks.length + 1 + word.length) ([ch] ++ word)).token =
        s.token + ([ch] ++ word).length := rfl
    rw [List.length_append, List.length_singleton] at hmore
    have hlt : (s.wrote (blanks.length + 1 + word.length) ([ch] ++ word)).token < 2 * maxbuf := by omega
    rw [putToken_eq hlt, wrote_wrote]
    rfl
  refine ⟨token, rest, blanks.length + 1 + word.length, ch :: word, hget, ?_, ?_, htext, Nat.succ_pos _, ?_⟩
  · unfold scanToken
    simp only [hskipped, hread, hput, wrote_advance, hscan, wrote_wrote, hend, Option.bind_eq_bind, Option.bind_some]
  · rw [← List.cons_append, ← List.append_assoc] at h
    have hwrote := Scanner.At.wrote (blanks ++ ch :: word) h (ch :: word ++ [0])
    rwa [List.length_append, List.length_cons, Nat.add_comm word.length, ← Nat.add_assoc] at hwrote
  · rw [List.length_cons]
    omega

/-- What a call of `gettoken` that gives `token` does: its string is in the buffer up to `token`, and nothing before it
has changed. -/
structure Gives (s : Scanner) (token : Token) (s' : Scanner) : Prop where
  string : StringAt s'.tokenBuf s.token token.text
  room : s.token + token.text.length < s'.token
  within : s'.token ≤ 2 * maxbuf
  frame : ∀ k, k < s.token → s'.tokenBuf k = s.tokenBuf k

/-- On a line for the rest of which there is room, `gettoken` gives the newline at its end, or a token after which there
is room for the rest. -/
private theorem scanToken_line {body : List UInt8} (hbody : Ch.newline ∉ body) (h : s.At count (body ++ [Ch.newline]))
    (hroom : s.token + 2 * (body.length + 1) ≤ 2 * maxbuf) :
    ∃ token s' rest, scanToken count s = some (token.type, s') ∧ Gives s token s' ∧
      gettoken (body ++ [Ch.newline]) = some (token, rest) ∧
      (token.type = .newline ∨ token.type ≠ .newline ∧ ∃ body', rest = body' ++ [Ch.newline] ∧
        body'.length < body.length ∧ Ch.newline ∉ body' ∧ s'.At count (body' ++ [Ch.newline]) ∧
        s'.token + 2 * (body'.length + 1) ≤ 2 * maxbuf) := by
  obtain ⟨token, rest, n, bytes, hget, hat, hrest, htext, hpos, hlen⟩ := scanToken_eq h hroom
  have hkept : token.text.length ≤ bytes.length := by
    rw [htext]
    exact (List.takeWhile_sublist _).length_le
  have hnext : (s.wrote n (bytes ++ [0])).token = s.token + (bytes.length + 1) := by
    unfold Scanner.wrote
    rw [List.length_append]
    rfl
  have hgives : Gives s token (s.wrote n (bytes ++ [0])) := by
    refine ⟨?_, by omega, by omega, fun k hk => fill_of_lt hk⟩
    rw [htext]
    exact stringAt_fill _ _ _
  refine ⟨token, _, rest, hat, hgives, hget, ?_⟩
  rcases gettoken_line hbody with hnl | ⟨token', body', hget', htype, hlen', hbody'⟩
  · rw [hget] at hnl
    cases hnl
    exact Or.inl rfl
  · rw [hget] at hget'
    cases hget'
    rw [List.length_append, List.length_singleton] at hlen
    exact Or.inr ⟨htype, body', rfl, hlen', hbody', hrest, by omega⟩

/-! ### The calls of `parse_line` -/

/-- `!strcmp`, of the string at `p` with `text`. -/
def streq (buf : Nat → UInt8) : (p : Nat) → (text : List UInt8) → Bool
  | p, [] => buf p = 0
  | p, ch :: text => buf p = ch ∧ streq buf (p + 1) text

/-- The calls in the `switch` of `parse_line` and after it, with `parse` the loop from then on.  `run_program` ends the
shell if the first word is `exit`, and returns otherwise. -/
def callsAfter (count : Nat) (parse : Scanner → Argv → (argc : Nat) → Option (List Taken)) (type : TokenType)
    (s : Scanner) (argv : Argv) (argc : Nat) : Option (List Taken) :=
  match type with
  | .normal => parse s argv (argc + 1)
  | .input | .output => do
    let (file, argv) ← gettokenAt count argv argc s
    let calls ← if file.type ≠ .normal then some [] else parse file.scanner argv argc
    some (file :: calls)
  | .pipe | .ampersand | .newline | .semicolon =>
    if argc = 0 then some []
    else do
      let argv ← storeAt (maxArg + 1) argv argc none
      let first ← argv 0
      if streq s.tokenBuf first exitName ∨ type = .newline then some [] else parse s argv 0

/-- The calls of `gettoken` in the loop of `parse_line`. -/
def parseCalls (count : Nat) : (fuel : Nat) → Scanner → Argv → (argc : Nat) → Option (List Taken)
  | 0, _, _, _ => none
  | fuel + 1, s, argv, argc => do
    let (taken, argv) ← gettokenAt count argv argc s
    let calls ← callsAfter count (parseCalls count fuel) taken.type taken.scanner argv argc
    some (taken :: calls)

/-- The calls give the first of the tokens in turn. -/
inductive Reads : Scanner → List Taken → List Token → Prop
  | stop {s : Scanner} {tokens : List Token} : Reads s [] tokens
  | next {s s' : Scanner} {token : Token} {calls : List Taken} {tokens : List Token} : Gives s token s' →
      Reads s' calls tokens → Reads s (⟨token.type, s.token, s'⟩ :: calls) (token :: tokens)

/-- A string in a part of the buffer that does not change. -/
private theorem StringAt.congr {buf buf' : Nat → UInt8} {p : Nat} (h : StringAt buf p text)
    (hsame : ∀ k, k ≤ p + text.length → buf' k = buf k) : StringAt buf' p text := by
  refine ⟨fun i ch hch => ?_, h.nonzero, ?_⟩
  · have hi : i < text.length := (List.getElem?_eq_some_iff.1 hch).1
    rw [hsame _ (by omega)]
    exact h.chars i ch hch
  · rw [hsame _ (Nat.le_refl _)]
    exact h.stop

private theorem StringAt.streq_iff {buf : Nat → UInt8} {p : Nat} {name : List UInt8} (h : StringAt buf p text)
    (hname : 0 ∉ name) : streq buf p name ↔ text = name := by
  induction name generalizing p text with
  | nil =>
    cases text with
    | nil => simpa [streq] using h.stop
    | cons ch text =>
      have hch : buf p = ch := h.chars 0 ch rfl
      have hne : ch ≠ 0 := fun hzero => h.nonzero (by simp [hzero])
      simp [streq, hch, hne]
  | cons x name ih =>
    rw [List.mem_cons, not_or] at hname
    cases text with
    | nil =>
      have hstop : buf p = 0 := h.stop
      simp [streq, hstop, hname.1]
    | cons ch text =>
      have hch : buf p = ch := h.chars 0 ch rfl
      have htail : StringAt buf (p + 1) text := by
        refine ⟨fun i y hy => ?_, fun hmem => h.nonzero (List.mem_cons_of_mem _ hmem), ?_⟩
        · rw [Nat.add_assoc, Nat.add_comm 1]
          exact h.chars (i + 1) y hy
        · have hstop := h.stop
          rwa [List.length_cons, Nat.add_comm text.length, ← Nat.add_assoc] at hstop
      simp [streq, hch, ih htail hname.2]

/-- The first word of the command is the string to which `argv[0]` points. -/
def Headed (s : Scanner) (argv : Argv) (words : List (List UInt8)) : Prop :=
  ∀ word, words.head? = some word → ∃ p, argv 0 = some p ∧ p + word.length < s.token ∧ StringAt s.tokenBuf p word

private theorem Headed.nil (s : Scanner) (argv : Argv) : Headed s argv [] := fun _ hword => by cases hword

variable {argv : Argv} {words : List (List UInt8)} {s' : Scanner} {token : Token} {tokens : List Token}

/-- A store behind the words leaves the first one in place. -/
private theorem Headed.store (h : Headed s argv words) (x : Option Nat) :
    Headed s (Function.update argv words.length x) words := by
  intro word hword
  obtain ⟨p, hp, hrest⟩ := h word hword
  have hne : 0 ≠ words.length := fun hlen => by
    rw [List.eq_nil_of_length_eq_zero hlen.symm] at hword
    cases hword
  exact ⟨p, (Function.update_of_ne hne ..).trans hp, hrest⟩

private theorem Headed.gives (h : Headed s argv words) (hgives : Gives s token s') : Headed s' argv words := by
  intro word hword
  obtain ⟨p, hp, hlt, hstring⟩ := h word hword
  have hroom := hgives.room
  exact ⟨p, hp, by omega, hstring.congr fun k hk => hgives.frame k (by omega)⟩

/-- Another word. -/
private theorem Headed.append (h : Headed s argv words) (hgives : Gives s token s') :
    Headed s' (Function.update argv words.length (some s.token)) (words ++ [token.text]) := by
  intro word hword
  cases words with
  | nil =>
    cases hword
    exact ⟨s.token, Function.update_self .., hgives.room, hgives.string⟩
  | cons first words => exact (h.store _).gives hgives word hword

/-- The comparison with `exit` in `run_program`. -/
private theorem Headed.exit_iff (h : Headed s argv words) (hwords : words ≠ []) :
    ∃ p, argv 0 = some p ∧ (streq s.tokenBuf p exitName ↔ words.head? = some exitName) := by
  cases words with
  | nil => exact absurd rfl hwords
  | cons word words =>
    obtain ⟨p, hp, -, hstring⟩ := h word rfl
    refine ⟨p, hp, ?_⟩
    rw [hstring.streq_iff (by decide), List.head?_cons, Option.some.injEq]

private theorem gettokenAt_of_le {type : TokenType} {argc : Nat} (hargc : argc ≤ maxArg)
    (hscan : scanToken count s = some (type, s')) :
    gettokenAt count argv argc s = some (⟨type, s.token, s'⟩, Function.update argv argc (some s.token)) := by
  unfold gettokenAt
  simp only [storeAt_of_lt (Nat.lt_succ_of_le hargc), hscan, Option.bind_eq_bind, Option.bind_some]

private theorem gettokenAt_over {argc : Nat} (hargc : maxArg < argc) : gettokenAt count argv argc s = none := by
  have hstore : storeAt (maxArg + 1) argv argc (some s.token) = none := if_neg (by omega)
  unfold gettokenAt
  simp only [hstore, Option.bind_eq_bind, Option.bind_none]

/-- The calls are made and read the tokens if the words fit, and end in a store behind `argv` if not. -/
def Settles (fits : Prop) (s : Scanner) (calls : Option (List Taken)) (tokens : List Token) : Prop :=
  fits ∧ (∃ taken, calls = some taken ∧ Reads s taken tokens) ∨ ¬fits ∧ calls = none

/-- The first of the calls. -/
private theorem Settles.cons {fits : Prop} {calls : Option (List Taken)} (h : Settles fits s' calls tokens)
    (hgives : Gives s token s') :
    Settles fits s (calls.bind fun calls => some (⟨token.type, s.token, s'⟩ :: calls)) (token :: tokens) := by
  rcases h with ⟨hfits, taken, rfl, hreads⟩ | ⟨hover, rfl⟩
  · exact Or.inl ⟨hfits, _, rfl, .next hgives hreads⟩
  · exact Or.inr ⟨hover, rfl⟩

private theorem Settles.congr {fits fits' : Prop} {calls : Option (List Taken)} (h : Settles fits s calls tokens)
    (hiff : ¬fits' ↔ ¬fits) : Settles fits' s calls tokens := by
  rwa [not_iff_not.1 hiff]

private theorem Settles.stop {fits : Prop} (h : fits) : Settles fits s (some []) tokens := Or.inl ⟨h, [], rfl, .stop⟩

/-- The end of a command, with `parse` the calls after it. -/
private theorem settles_end {type : TokenType} {text : List UInt8} {parse : Scanner → Argv → Nat → Option (List Taken)}
    (htype : type = .pipe ∨ type = .ampersand ∨ type = .newline ∨ type = .semicolon) (hfit : ¬maxArg < words.length)
    (hheaded : Headed s argv words)
    (hrec : type ≠ .newline → ∀ argv, Settles (Fits tokens []) s (parse s argv 0) tokens) :
    Settles (Fits (⟨type, text⟩ :: tokens) words) s (callsAfter count parse type s argv words.length) tokens := by
  have heq : callsAfter count parse type s argv words.length = if words.length = 0 then some []
      else (storeAt (maxArg + 1) argv words.length none).bind fun argv => (argv 0).bind fun first =>
        if streq s.tokenBuf first exitName ∨ type = .newline then some [] else parse s argv 0 := by
    rcases htype with rfl | rfl | rfl | rfl
    · rfl
    · rfl
    · rfl
    · rfl
  have hfits : ¬Fits (⟨type, text⟩ :: tokens) words ↔
      ¬(words = [] ∨ type = .newline ∨ words.head? = some exitName) ∧ ¬Fits tokens [] := not_fits_end htype hfit
  rw [heq]
  by_cases hwords : words = []
  · rw [if_pos (by rw [hwords]; rfl)]
    exact .stop (not_not.1 fun hover => (hfits.1 hover).1 (Or.inl hwords))
  · obtain ⟨p, hp, hexit⟩ := (hheaded.store none).exit_iff hwords
    rw [if_neg fun hlen => hwords (List.length_eq_zero_iff.1 hlen), storeAt_of_lt (by omega), Option.bind_some, hp,
      Option.bind_some]
    by_cases hstop : words.head? = some exitName ∨ type = .newline
    · rw [if_pos (hstop.imp_left hexit.2)]
      exact .stop (not_not.1 fun hover => (hfits.1 hover).1 (Or.inr hstop.symm))
    · rw [if_neg fun h => hstop (h.imp_left hexit.1)]
      refine (hrec (fun hnl => hstop (Or.inr hnl)) _).congr (hfits.trans (and_iff_right ?_))
      rintro (h | h | h)
      · exact hwords h
      · exact hstop (Or.inr h)
      · exact hstop (Or.inl h)

/-- A redirection, with the file name or whatever is there in its place. -/
private theorem settles_file {type : TokenType} {text : List UInt8} {file : Token}
    {parse : Scanner → Argv → Nat → Option (List Taken)} (htype : type = .input ∨ type = .output)
    (hfit : ¬maxArg < words.length) (hscan : scanToken count s = some (file.type, s')) (hgives : Gives s file s')
    (hrec : file.type = .normal → Settles (Fits tokens words) s'
      (parse s' (Function.update argv words.length (some s.token)) words.length) tokens) :
    Settles (Fits (⟨type, text⟩ :: file :: tokens) words) s (callsAfter count parse type s argv words.length)
      (file :: tokens) := by
  have hcall : gettokenAt count argv words.length s =
      some (⟨file.type, s.token, s'⟩, Function.update argv words.length (some s.token)) :=
    gettokenAt_of_le (Nat.not_lt.1 hfit) hscan
  have heq : callsAfter count parse type s argv words.length =
      if file.type ≠ .normal then some [⟨file.type, s.token, s'⟩]
      else (parse s' (Function.update argv words.length (some s.token)) words.length).bind fun calls =>
        some (⟨file.type, s.token, s'⟩ :: calls) := by
    rcases htype with rfl | rfl
    · simp only [callsAfter, hcall, Option.bind_eq_bind, Option.bind_some]
    · simp only [callsAfter, hcall, Option.bind_eq_bind, Option.bind_some]
  have hfits : ¬Fits (⟨type, text⟩ :: file :: tokens) words ↔ file.type = .normal ∧ ¬Fits tokens words :=
    not_fits_file htype hfit
  rw [heq]
  by_cases hfile : file.type = .normal
  · rw [if_neg (not_not.2 hfile)]
    exact ((hrec hfile).congr (hfits.trans (and_iff_right hfile))).cons hgives
  · rw [if_pos hfile]
    have hfits : Fits (⟨type, text⟩ :: file :: tokens) words := not_not.1 fun hover => hfile (hfits.1 hover).1
    exact (Settles.stop hfits).cons hgives

/-- The calls of a line give tokens of the line, unless a command has too many words. -/
private theorem parseCalls_settles {body : List UInt8} (hbody : Ch.newline ∉ body)
    (h : s.At count (body ++ [Ch.newline])) (hroom : s.token + 2 * (body.length + 1) ≤ 2 * maxbuf)
    (hheaded : Headed s argv words) (fuel n : Nat) (hfuel : body.length < fuel) (hn : body.length < n) :
    Settles (Fits (gettokensFor n (body ++ [Ch.newline])) words) s (parseCalls count fuel s argv words.length)
      (gettokensFor n (body ++ [Ch.newline])) := by
  induction fuel generalizing s body n words argv with
  | zero => omega
  | succ fuel ih =>
    cases n with
    | zero => omega
    | succ n =>
      by_cases hfit : maxArg < words.length
      · refine Or.inr ⟨fun hfits => absurd hfits.length_le (Nat.not_le.2 hfit), ?_⟩
        simp only [parseCalls, gettokenAt_over hfit, Option.bind_eq_bind, Option.bind_none]
      obtain ⟨⟨type, text⟩, s', rest, hscan, hgives, hget, hnext⟩ := scanToken_line hbody h hroom
      have hstored : Headed s' (Function.update argv words.length (some s.token)) words :=
        (hheaded.store _).gives hgives
      suffices hcalls : Settles (Fits (⟨type, text⟩ :: gettokensFor n rest) words) s'
          (callsAfter count (parseCalls count fuel) type s' (Function.update argv words.length (some s.token))
            words.length) (gettokensFor n rest) by
        rw [parseCalls, gettokensFor, hget, gettokenAt_of_le (Nat.not_lt.1 hfit) hscan]
        exact hcalls.cons hgives
      rcases hnext with hnl | ⟨htype, body', rfl, hlen, hbody', h', hroom'⟩
      · obtain rfl : type = .newline := hnl
        exact settles_end (Or.inr (Or.inr (Or.inl rfl))) hfit hstored fun hnl => absurd rfl hnl
      · have hrec : ∀ argv, Settles (Fits (gettokensFor n (body' ++ [Ch.newline])) []) s'
            (parseCalls count fuel s' argv 0) (gettokensFor n (body' ++ [Ch.newline])) :=
          fun argv => ih hbody' h' hroom' (.nil s' argv) n (by omega) (by omega)
        cases type with
        | newline => exact absurd rfl htype
        | normal =>
          have hword := ih hbody' h' hroom' (hheaded.append hgives) n (by omega) (by omega)
          rw [List.length_append] at hword
          exact hword
        | input | output =>
          cases n with
          | zero => omega
          | succ n =>
            obtain ⟨⟨fileType, file⟩, s₂, rest, hscan₂, hgives₂, hget₂, hnext₂⟩ := scanToken_line hbody' h' hroom'
            rw [gettokensFor, hget₂]
            refine settles_file (by simp) hfit hscan₂ hgives₂ fun hfile => ?_
            rcases hnext₂ with hnl | ⟨-, body₂, rfl, hlen₂, hbody₂, h₂, hroom₂⟩
            · exact absurd (hnl.symm.trans hfile) (by simp)
            · exact ih hbody₂ h₂ hroom₂ ((hstored.store (some s'.token)).gives hgives₂) n (by omega) (by omega)
        | pipe => exact settles_end (Or.inl rfl) hfit hstored fun _ => hrec
        | ampersand => exact settles_end (Or.inr (Or.inl rfl)) hfit hstored fun _ => hrec
        | semicolon => exact settles_end (Or.inr (Or.inr (Or.inr rfl))) hfit hstored fun _ => hrec

/-- Nothing before the first string changes. -/
private theorem Reads.frame {calls : List Taken} {tokens : List Token} (h : Reads s calls tokens) {taken : Taken}
    (hmem : taken ∈ calls) {k : Nat} (hk : k < s.token) : taken.scanner.tokenBuf k = s.tokenBuf k := by
  induction h with
  | stop => cases hmem
  | next hgives _ ih =>
    rcases List.mem_cons.1 hmem with rfl | hmem
    · exact hgives.frame k hk
    · rw [ih hmem (Nat.lt_of_lt_of_le hk (Nat.le_of_lt (Nat.lt_of_le_of_lt (Nat.le_add_right _ _) hgives.room)))]
      exact hgives.frame k hk

/-- After each call, the strings handed out by it and by the calls before it are those of the tokens. -/
private theorem Reads.intact {calls : List Taken} {tokens : List Token} (h : Reads s calls tokens) {i j : Nat}
    (hij : i ≤ j) {first later : Taken} (hi : calls[i]? = some first) (hj : calls[j]? = some later) :
    ∃ token, tokens[i]? = some token ∧ first.type = token.type ∧
      first.outptr + token.text.length < 2 * maxbuf ∧ StringAt later.scanner.tokenBuf first.outptr token.text := by
  induction h generalizing i j with
  | stop => cases hi
  | @next s s' token calls tokens hgives hreads ih =>
    cases i with
    | succ i =>
      cases j with
      | zero => cases hij
      | succ j => exact ih (Nat.le_of_succ_le_succ hij) hi hj
    | zero =>
      cases hi
      refine ⟨token, rfl, rfl, Nat.lt_of_lt_of_le hgives.room hgives.within, ?_⟩
      cases j with
      | zero =>
        cases hj
        exact hgives.string
      | succ j =>
        have hroom := hgives.room
        exact hgives.string.congr fun k hk => hreads.frame (List.mem_of_getElem? hj) (by omega)

/-- Each call of `gettoken` in `parse_line` reads the line up to the 0 at `count` only and writes only inside
`token_buf` and `argv`, and after each of them the strings handed out for this line are those of its tokens. -/
def KeepsTokens (line : List UInt8) (inputBuf tokenBuf : Nat → UInt8) (argv : Argv) : Prop :=
  ∃ calls, parseCalls line.length (line.length + 1) ⟨inputBuf, 0, tokenBuf, 0⟩ argv 0 = some calls ∧
    ∀ (i j : Nat) (first later : Taken), i ≤ j → calls[i]? = some first → calls[j]? = some later →
      ∃ token, (gettokens line)[i]? = some token ∧ first.type = token.type ∧
        first.outptr + token.text.length < 2 * maxbuf ∧ StringAt later.scanner.tokenBuf first.outptr token.text

/-- The line and a 0 in `input_buf`. -/
private theorem keepsTokens_iff {body : List UInt8} {inputBuf : Nat → UInt8} (hbody : Ch.newline ∉ body)
    (hlen : body.length < maxbuf) (hholds : Holds inputBuf (body ++ [Ch.newline])) (tokenBuf : Nat → UInt8)
    (argv : Argv) :
    KeepsTokens (body ++ [Ch.newline]) inputBuf tokenBuf argv ↔ Fits (gettokens (body ++ [Ch.newline])) [] := by
  have hcount : (body ++ [Ch.newline]).length = body.length + 1 := List.length_append
  have hat : Scanner.At ⟨inputBuf, 0, tokenBuf, 0⟩ (body ++ [Ch.newline]).length (body ++ [Ch.newline]) := by
    refine ⟨Nat.zero_add _, fun i ch hch => ?_⟩
    rw [Nat.zero_add]
    exact hholds.chars i ch hch
  have hroom : 0 + 2 * (body.length + 1) ≤ 2 * maxbuf := by omega
  rcases parseCalls_settles hbody hat hroom (.nil _ argv) ((body ++ [Ch.newline]).length + 1)
      (body ++ [Ch.newline]).length (by omega) (by omega) with ⟨hfits, calls, hcalls, hreads⟩ | ⟨hover, hnone⟩
  · exact iff_of_true ⟨calls, hcalls, fun i j first later hij hi hj => hreads.intact hij hi hj⟩ hfits
  · refine iff_of_false ?_ hover
    rintro ⟨calls, hcalls, -⟩
    cases hnone.symm.trans hcalls

/-- Whatever is read and whatever the buffers hold, `fetch_line` stores only inside `input_buf` and finds the end of the
input or a line that ends in a newline with a 0 after it, at an index below `MAXBUF`.  Then the tokens of the line are
kept, without an access outside of the buffers, exactly when no command that `parse_line` comes to has more than
`MAX_ARG` words. -/
theorem tokenize_safe_iff (input : List UInt8) (inputBuf tokenBuf : Nat → UInt8) (argv : Argv) :
    fetchLine input = none ∧ fetchInto input inputBuf 0 = some .eof ∨
      ∃ line inputBuf' rest, fetchLine input = some (line, rest) ∧
        fetchInto input inputBuf 0 = some (.line line.length inputBuf' rest) ∧
        0 < line.length ∧ line.length < maxbuf ∧ inputBuf' (line.length - 1) = Ch.newline ∧ inputBuf' line.length = 0 ∧
        (KeepsTokens line inputBuf' tokenBuf argv ↔
          ∀ command ∈ commandWords (gettokens line) [], command.length ≤ maxArg) := by
  rcases @fetchInto_eq input [] inputBuf (Nat.zero_le _) (fun i x hx => (by cases hx)) with
    hnone | ⟨line, rest, inputBuf', hloop, hfetch, hholds⟩
  · exact Or.inl hnone
  · right
    obtain ⟨hlen, body, rfl, hbody⟩ := fetchLine_some hloop
    have hcount : (body ++ [Ch.newline]).length = body.length + 1 := List.length_append
    have hlast : inputBuf' ((body ++ [Ch.newline]).length - 1) = Ch.newline := by
      apply hholds.chars
      rw [hcount, Nat.add_sub_cancel, List.getElem?_append_right (Nat.le_refl _), Nat.sub_self]
      rfl
    exact ⟨_, inputBuf', rest, hloop, hfetch, by omega, hlen, hlast, hholds.stop,
      keepsTokens_iff hbody (by omega) hholds tokenBuf argv⟩

set_option maxRecDepth 4000 in
/-- On the line of 101 words, `gettoken` stores the pointer to the newline behind `argv`. -/
theorem not_tokenize_safe : ∃ inputBuf rest, fetchInto manyWords (fun _ => 0) 0 =
    some (.line manyWords.length inputBuf rest) ∧ ∀ tokenBuf argv, ¬KeepsTokens manyWords inputBuf tokenBuf argv := by
  have hline : fetchLine manyWords = some (manyWords, []) := by decide
  have hover : ¬Fits (gettokens manyWords) [] := by
    rw [← writes_le_iff (lineTokens_of_fetchLine hline)]
    have hwrite : 101 ∈ argvWrites (gettokens manyWords) [] := by decide
    exact fun h => absurd (h _ hwrite) (by decide)
  rcases @fetchInto_eq manyWords [] (fun _ => 0) (Nat.zero_le _) (fun i x hx => (by cases hx)) with
    ⟨hnone, -⟩ | ⟨line, rest, inputBuf', hloop, hfetch, hholds⟩
  · cases hnone.symm.trans hline
  · obtain ⟨rfl, rfl⟩ : line = manyWords ∧ rest = [] := by simpa using hloop.symm.trans hline
    obtain ⟨hlen, body, hbody, hnl⟩ := fetchLine_some hloop
    refine ⟨inputBuf', [], hfetch, fun tokenBuf argv hkeeps => hover ?_⟩
    rw [hbody] at hholds hkeeps ⊢
    rw [hbody, List.length_append] at hlen
    exact (keepsTokens_iff hnl (by omega) hholds tokenBuf argv).1 hkeeps

end Edaf35.Shell
