import Mathlib.Data.List.Basic

/-!
# Lines and tokens of the shell

`fetch_line` puts the next line of the input that fits the buffer into it, and `gettoken` takes that line apart.
Characters are bytes, and a token's text is the string that a reader of `token_buf` sees.
-/

namespace Edaf35.Shell

def maxbuf : Nat := 512

def maxArg : Nat := 100

namespace Ch

abbrev tab : UInt8 := 9
abbrev newline : UInt8 := 10
abbrev blank : UInt8 := 32
abbrev ampersand : UInt8 := 38
abbrev semicolon : UInt8 := 59
abbrev less : UInt8 := 60
abbrev greater : UInt8 := 62
abbrev bar : UInt8 := 124

end Ch

/-! ### `fetch_line` -/

/-- The loop of `fetch_line` on the characters to come, with `buf` the ones already in `input_buf`. -/
def fetchLoop : List UInt8 → List UInt8 → Option (List UInt8 × List UInt8)
  | [], _ => none
  | ch :: input, buf =>
    let buf := if buf.length < maxbuf then buf ++ [ch] else buf
    if ch = Ch.newline ∧ buf.length < maxbuf then some (buf, input)
    -- "too long input line": the next one is fetched instead
    else if ch = Ch.newline then fetchLoop input []
    else fetchLoop input buf

/-- The next line and the input after it; `none` at the end of the input. -/
def fetchLine (input : List UInt8) : Option (List UInt8 × List UInt8) := fetchLoop input []

private theorem fetchLoop_some {input buf line rest : List UInt8} (hbuf : Ch.newline ∉ buf)
    (h : fetchLoop input buf = some (line, rest)) :
    line.length < maxbuf ∧ ∃ body, line = body ++ [Ch.newline] ∧ Ch.newline ∉ body := by
  induction input generalizing buf with
  | nil => cases h
  | cons ch input ih =>
    obtain ⟨kept, hkept⟩ : ∃ kept, (if buf.length < maxbuf then buf ++ [ch] else buf) = kept := ⟨_, rfl⟩
    simp only [fetchLoop, hkept] at h
    split at h
    · rename_i hdone
      obtain ⟨rfl, hlen⟩ := hdone
      cases h
      split at hkept
      · exact ⟨hlen, buf, hkept.symm, hbuf⟩
      · subst hkept
        contradiction
    · split at h
      · exact ih List.not_mem_nil h
      · rename_i hch
        apply ih ?_ h
        rw [← hkept]
        split
        · simpa [hbuf] using Ne.symm hch
        · exact hbuf

/-- A line that `fetch_line` accepts fits the buffer together with its terminating 0, and its only newline is its
last character. -/
theorem fetchLine_some {input line rest : List UInt8} (h : fetchLine input = some (line, rest)) :
    line.length < maxbuf ∧ ∃ body, line = body ++ [Ch.newline] ∧ Ch.newline ∉ body :=
  fetchLoop_some List.not_mem_nil h

/-! ### `gettoken` -/

inductive TokenType
  | ampersand
  | newline
  | normal
  | input
  | output
  | pipe
  | semicolon
  deriving DecidableEq, Repr

structure Token where
  type : TokenType
  text : List UInt8
  deriving DecidableEq, Repr

def endOfToken (ch : UInt8) : Bool :=
  ch = 0 ∨ ch = Ch.blank ∨ ch = Ch.tab ∨ ch = Ch.newline ∨ ch = Ch.semicolon ∨ ch = Ch.bar ∨ ch = Ch.ampersand ∨
    ch = Ch.less ∨ ch = Ch.greater

def isBlank (ch : UInt8) : Bool := ch = Ch.blank ∨ ch = Ch.tab

/-- The token that starts at `inputChar` and where `inputChar` then stands; `none` past the last character of the
line, where the buffer holds no characters of it. -/
def gettoken (inputChar : List UInt8) : Option (Token × List UInt8) :=
  match inputChar.dropWhile isBlank with
  | [] => none
  | ch :: rest =>
    if ch = Ch.newline then some (⟨.newline, [ch]⟩, rest)
    else if ch = Ch.less then some (⟨.input, [ch]⟩, rest)
    else if ch = Ch.greater then some (⟨.output, [ch]⟩, rest)
    else if ch = Ch.ampersand then some (⟨.ampersand, [ch]⟩, rest)
    else if ch = Ch.bar then some (⟨.pipe, [ch]⟩, rest)
    else
      let text := ch :: rest.takeWhile fun x => !endOfToken x
      some (⟨.normal, text.takeWhile fun x => x ≠ 0⟩, rest.dropWhile fun x => !endOfToken x)

def gettokensFor : Nat → List UInt8 → List Token
  | 0, _ => []
  | n + 1, inputChar =>
    match gettoken inputChar with
    | none => []
    | some (token, rest) => token :: gettokensFor n rest

/-- What `gettoken` gives on `line`, call after call. -/
def gettokens (line : List UInt8) : List Token := gettokensFor line.length line

end Edaf35.Shell
