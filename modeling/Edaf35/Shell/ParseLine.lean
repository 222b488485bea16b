import Edaf35.Shell.Tokens

/-!
# `parse_line`

`parse_line` is a tree of the calls that it makes, with one branch for each answer of `open` and `pipe`.  The
globals `input_fd` and `output_fd` are handed to `run_program` with each call.
-/

namespace Edaf35.Shell

/-- The arguments of one call of `run_program`; `argc` is the length of `argv`. -/
structure Call where
  argv : List (List UInt8)
  foreground : Bool
  doingPipe : Bool
  deriving DecidableEq, Repr

inductive OpenMode
  | rdonly
  | creatWronly (perm : Nat)
  deriving DecidableEq, Repr

/-- What `parse_line` goes on to do.  A failing `open` answers `none` for -1, and a failing `pipe` answers `none`. -/
inductive Parse
  | openFile (path : List UInt8) (mode : OpenMode) (next : Option Nat → Parse)
  | pipe (next : Option (Nat × Nat) → Parse)
  | runProgram (call : Call) (inputFd outputFd : Int) (next : Parse)
  | close (fd : Int) (next : Parse)
  | error (fmt : String) (arg : List UInt8) (next : Parse)
  | ret
  /-- A write past the end of `argv`, or a read past the end of the line. -/
  | fault

def perm : Nat := 0o644

def stdinFileno : Int := 0

def stdoutFileno : Int := 1

/-- The cases `NEWLINE` and `SEMICOLON`, and the end of those that fall through to them. -/
def endCommand (type : TokenType) (call : Call) (inputFd outputFd : Int) (pipeFd : Int × Int) (next : Int → Parse) :
    Parse :=
  if call.argv.length = 0 then .ret
  else
    let proceed := fun fd => if type = .newline then Parse.ret else next fd
    .runProgram call inputFd outputFd <|
      if call.doingPipe then .close pipeFd.2 (proceed pipeFd.1) else proceed stdinFileno

/-- The cases `INPUT` and `OUTPUT`, with `file` the token after the `<` or `>`. -/
def redirect (file : Token) (mode : OpenMode) (fmt : String) (next : Int → Parse) : Parse :=
  if file.type ≠ .normal then .error "expected file name: but found %s" file.text .ret
  else .openFile file.text mode fun
    | some fd => next fd
    | none => .error fmt file.text (next (-1))

/-- The loop of `parse_line` on the tokens to come. -/
def parseLoop : List Token → List (List UInt8) → (inputFd outputFd : Int) → (pipeFd : Int × Int) → Parse
  | [], _, _, _, _ => .fault
  | ⟨type, text⟩ :: tokens, argv, inputFd, outputFd, pipeFd =>
    if maxArg < argv.length then .fault
    else match type with
    | .normal => parseLoop tokens (argv ++ [text]) inputFd outputFd pipeFd
    | .input =>
      match tokens with
      | [] => .fault
      | file :: tokens =>
        redirect file .rdonly "cannot read from %s" fun fd => parseLoop tokens argv fd outputFd pipeFd
    | .output =>
      match tokens with
      | [] => .fault
      | file :: tokens =>
        redirect file (.creatWronly perm) "cannot write to %s" fun fd => parseLoop tokens argv inputFd fd pipeFd
    | .pipe => .pipe fun
      | some (consumer, producer) =>
        endCommand .pipe ⟨argv, false, true⟩ inputFd producer (consumer, producer) fun fd =>
          parseLoop tokens [] fd stdoutFileno (consumer, producer)
      -- `pipe_fd` keeps what it held, at first what the stack held
      | none =>
        endCommand .pipe ⟨argv, false, true⟩ inputFd pipeFd.2 pipeFd fun fd =>
          parseLoop tokens [] fd stdoutFileno pipeFd
    | .ampersand =>
      endCommand .ampersand ⟨argv, false, false⟩ inputFd outputFd pipeFd fun fd =>
        parseLoop tokens [] fd stdoutFileno pipeFd
    | .newline =>
      endCommand .newline ⟨argv, true, false⟩ inputFd outputFd pipeFd fun fd =>
        parseLoop tokens [] fd stdoutFileno pipeFd
    | .semicolon =>
      endCommand .semicolon ⟨argv, true, false⟩ inputFd outputFd pipeFd fun fd =>
        parseLoop tokens [] fd stdoutFileno pipeFd

/-- `parse_line` on the line in `input_buf`, with `pipeFd` the contents of the uninitialised array `pipe_fd`. -/
def parseLine (line : List UInt8) (pipeFd : Int × Int) : Parse :=
  parseLoop (gettokens line) [] stdinFileno stdoutFileno pipeFd

/-! ### One token of the loop -/

section Loop

variable {tokens : List Token} {argv : List (List UInt8)} {inputFd outputFd : Int} {pipeFd : Int × Int}
  {text : List UInt8} {file : Token}

theorem parseLoop_over (h : maxArg < argv.length) : parseLoop tokens argv inputFd outputFd pipeFd = .fault := by
  cases tokens with
  | nil => rfl
  | cons token tokens =>
    obtain ⟨type, text⟩ := token
    cases type with
    | input | output => cases tokens with
      | nil | cons => exact if_pos h
    | normal | pipe | ampersand | newline | semicolon => exact if_pos h

theorem parseLoop_normal (h : argv.length ≤ maxArg) :
    parseLoop (⟨.normal, text⟩ :: tokens) argv inputFd outputFd pipeFd =
      parseLoop tokens (argv ++ [text]) inputFd outputFd pipeFd :=
  if_neg (Nat.not_lt.2 h)

theorem parseLoop_input (h : argv.length ≤ maxArg) :
    parseLoop (⟨.input, text⟩ :: file :: tokens) argv inputFd outputFd pipeFd =
      redirect file .rdonly "cannot read from %s" fun fd => parseLoop tokens argv fd outputFd pipeFd :=
  if_neg (Nat.not_lt.2 h)

theorem parseLoop_output (h : argv.length ≤ maxArg) :
    parseLoop (⟨.output, text⟩ :: file :: tokens) argv inputFd outputFd pipeFd =
      redirect file (.creatWronly perm) "cannot write to %s" fun fd => parseLoop tokens argv inputFd fd pipeFd :=
  if_neg (Nat.not_lt.2 h)

/-- The marks that end a command, apart from `|`. -/
theorem parseLoop_end {type : TokenType} (h : argv.length ≤ maxArg)
    (htype : type = .ampersand ∨ type = .newline ∨ type = .semicolon) :
    parseLoop (⟨type, text⟩ :: tokens) argv inputFd outputFd pipeFd =
      endCommand type ⟨argv, type ≠ .ampersand, false⟩ inputFd outputFd pipeFd fun fd =>
        parseLoop tokens [] fd stdoutFileno pipeFd := by
  rcases htype with rfl | rfl | rfl
  · exact if_neg (Nat.not_lt.2 h)
  · exact if_neg (Nat.not_lt.2 h)
  · exact if_neg (Nat.not_lt.2 h)

end Loop

end Edaf35.Shell
