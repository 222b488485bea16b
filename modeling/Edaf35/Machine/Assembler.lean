import Edaf35.Machine.Fac

/-!
# The assembler of `machine.c`

`read_program` reads a source file line by line with `fgets`, takes each line apart with `sscanf` and stores an
instruction for it.  The operands are any `int` values, the fields of an instruction are narrower, and nothing checks
that they fit: a line is assembled to the instruction that it spells if and only if they do (`assembles_iff`).
-/

namespace Edaf35.Machine

/-- `BUFSIZ`, the size of the buffers `buf` and `text`. -/
def bufsiz : Nat := 8192

/-! ### Lines -/

/-- The loop of `fgets` on the characters to come, with `buf` the ones already read. -/
def fgetsLoop : List UInt8 → List UInt8 → List (List UInt8)
  | [], buf => if buf = [] then [] else [buf]
  | ch :: file, buf =>
    let buf := buf ++ [ch]
    if ch = 10 ∨ buf.length + 1 = bufsiz then buf :: fgetsLoop file [] else fgetsLoop file buf

/-- What successive calls of `fgets` put into `buf`. -/
def fgetsLines (file : List UInt8) : List (List UInt8) := fgetsLoop file []

/-- The string in a buffer: it ends at the first null character. -/
def cString (buf : List UInt8) : List UInt8 := buf.takeWhile (· ≠ 0)

def isSpace (ch : UInt8) : Bool := ch = 32 || (9 ≤ ch && ch ≤ 13)

def isDigit (ch : UInt8) : Bool := 48 ≤ ch && ch ≤ 57

/-- `%s` -/
def scanText (s : List UInt8) : Option (List UInt8 × List UInt8) :=
  match (s.dropWhile isSpace).span (fun ch => !isSpace ch) with
  | ([], _) => none
  | (text, s) => some (text, s)

/-- The number that a sequence of digits spells. -/
def digitsValue (digits : List UInt8) : Nat := digits.foldl (fun n ch => 10 * n + (ch.toNat - 48)) 0

/-- The digits of `%d`, after the sign. -/
def scanDigits (s : List UInt8) : Option (Nat × List UInt8) :=
  match s.span isDigit with
  | ([], _) => none
  | (digits, s) => some (digitsValue digits, s)

/-- `%d` -/
def scanInt (s : List UInt8) : Option (Int × List UInt8) :=
  match s.dropWhile isSpace with
  | 45 :: s => (scanDigits s).map fun answer => (-(answer.1 : Int), answer.2)
  | 43 :: s => (scanDigits s).map fun answer => ((answer.1 : Int), answer.2)
  | s => (scanDigits s).map fun answer => ((answer.1 : Int), answer.2)

/-- A comma in the format matches a comma only, with no white space before it. -/
def scanComma : List UInt8 → Option (List UInt8)
  | 44 :: s => some s
  | _ => none

/-- `sscanf(buf, "%s %d,%d,%d", text, &a, &b, &c)`: the word and the integers on the line, when all four are there. -/
def scanLine (buf : List UInt8) : Option (List UInt8 × Int × Int × Int) := do
  let (text, s) ← scanText (cString buf)
  let (a, s) ← scanInt s
  let s ← scanComma s
  let (b, s) ← scanInt s
  let s ← scanComma s
  let (c, _) ← scanInt s
  return (text, a, b, c)

/-- The `int` that `%d` stores for an integer: the conversion is that of `strtol`, and its lowest 32 bits are kept. -/
def storeInt (v : Int) : UInt32 := UInt32.ofInt (max (-2 ^ 63) (min v (2 ^ 63 - 1)))

/-! ### Mnemonics -/

/-- `mnemonics`, as the characters of the strings. -/
def Opcode.mnemonic : Opcode → List UInt8
  | .add => [97, 100, 100]
  | .addi => [97, 100, 100, 105]
  | .sub => [115, 117, 98]
  | .subi => [115, 117, 98, 105]
  | .sge => [115, 103, 101]
  | .sgt => [115, 103, 116]
  | .seq => [115, 101, 113]
  | .seqi => [115, 101, 113, 105]
  | .bt => [98, 116]
  | .bf => [98, 102]
  | .ba => [98, 97]
  | .st => [115, 116]
  | .ld => [108, 100]
  | .call => [99, 97, 108, 108]
  | .jmp => [106, 109, 112]
  | .mul => [109, 117, 108]
  | .halt => [104, 97, 108, 116]

/-- The search for a mnemonic. -/
def Opcode.find (text : List UInt8) : Option Opcode := Opcode.table.find? fun opcode => text = opcode.mnemonic

private theorem Opcode.find_mnemonic (opcode : Opcode) : Opcode.find opcode.mnemonic = some opcode := by
  cases opcode <;> rfl

/-! ### `read_program` -/

/-- A call of `error`: its format and argument. -/
structure ReadError where
  fmt : String
  arg : List UInt8
  deriving DecidableEq

def ReadError.near (arg : List UInt8) : ReadError := ⟨"syntax error near: \"%s\"", arg⟩

/-- The body of the loop: `none` for a comment. -/
def readLine (buf : List UInt8) : Except ReadError (Option SourceLine) :=
  if buf.head? = some 59 then .ok none
  else
    match scanLine buf with
    | none => .error (.near (cString buf))
    | some (text, a, b, c) =>
      match Opcode.find text with
      | none => .error (.near text)
      | some opcode => .ok (some ⟨opcode, storeInt a, storeInt b, storeInt c⟩)

/-- The loop of `read_program`: the lines that it stores, and the error that ends it. -/
def readLines : List (List UInt8) → List SourceLine × Option ReadError
  | [] => ([], none)
  | buf :: bufs =>
    match readLine buf with
    | .error e => ([], some e)
    | .ok none => readLines bufs
    | .ok (some l) => (l :: (readLines bufs).1, (readLines bufs).2)

/-- `read_program` on a file, if there is one: its calls of `write_memory`, and the error that ends it. -/
def readProgramFile : Option (List UInt8) → List Access × Option ReadError
  | none => ([], some ⟨"cannot open file huehue", []⟩)
  | some file => (readProgram (readLines (fgetsLines file)).1, (readLines (fgetsLines file)).2)

/-- The lines before a point of the file do not depend on those after it. -/
private theorem readLines_append {pre post : List (List UInt8)} {stored : List SourceLine}
    (h : readLines pre = (stored, none)) :
    readLines (pre ++ post) = (stored ++ (readLines post).1, (readLines post).2) := by
  induction pre generalizing stored with
  | nil =>
    cases h
    rfl
  | cons buf pre ih =>
    rw [List.cons_append]
    simp only [readLines] at h ⊢
    cases hl : readLine buf with
    | error e =>
      rw [hl] at h
      cases h
    | ok l =>
      rw [hl] at h
      cases l with
      | none => exact ih h
      | some l =>
        have hpre : readLines pre = ((readLines pre).1, none) := Prod.ext rfl (Prod.mk.inj h).2
        have hstored := (Prod.mk.inj h).1
        simp only [ih hpre, ← hstored, List.cons_append]

/-! ### Operands -/

/-- The operands that an instruction has room for. -/
structure Representable (a b c : Int) : Prop where
  dest : 0 ≤ a ∧ a < 32
  source : 0 ≤ b ∧ b < 32
  constant : -2 ^ 15 ≤ c ∧ c < 2 ^ 15

/-- The instruction is decoded to the opcode and the operands. -/
structure Decodes (instr : UInt32) (opcode : Opcode) (a b c : Int) : Prop where
  opcode : extractOpcode instr = opcode.code
  dest : ((extractDest instr).toNat : Int) = a
  source : ((extractSource1 instr).toNat : Int) = b
  constant : (extractConstant instr).toInt32.toInt = c

private theorem extractDest_lt (instr : UInt32) : (extractDest instr).toNat < 32 := by
  simp only [extractDest, UInt32.toNat_and, UInt32.reduceToNat]
  rw [Nat.and_two_pow_sub_one_eq_mod _ 5]
  omega

private theorem extractSource1_lt (instr : UInt32) : (extractSource1 instr).toNat < 32 := by
  simp only [extractSource1, UInt32.toNat_and, UInt32.reduceToNat]
  rw [Nat.and_two_pow_sub_one_eq_mod _ 5]
  omega

/-- A sign-extended word is its lowest 16 bits, as a `short`. -/
theorem signExtend_toInt (x : UInt32) : (signExtend x).toInt32.toInt = (x.toNat : Int).bmod (2 ^ 16) := by
  have hshort : (signExtend x).toInt32.toInt = x.toUInt16.toInt16.toInt := by simp [signExtend]
  have hbits : x.toUInt16.toInt16.toInt = x.toUInt16.toBitVec.toInt := rfl
  have hlow : (x.toUInt16.toBitVec.toNat : Int) = (x.toNat : Int) % (2 ^ 16 : Nat) := by
    rw [UInt16.toNat_toBitVec, UInt32.toNat_toUInt16, Int.natCast_emod]
  rw [hshort, hbits, BitVec.toInt_eq_toNat_bmod, hlow, Int.emod_bmod]

private theorem extractConstant_range (instr : UInt32) :
    -2 ^ 15 ≤ (extractConstant instr).toInt32.toInt ∧ (extractConstant instr).toInt32.toInt < 2 ^ 15 := by
  rw [extractConstant, signExtend_toInt]
  exact ⟨Int.le_bmod (by decide), Int.bmod_lt (by decide)⟩

/-- Whatever is decoded has room in an instruction. -/
private theorem Decodes.representable {instr : UInt32} {opcode : Opcode} {a b c : Int}
    (h : Decodes instr opcode a b c) : Representable a b c := by
  have hdest := extractDest_lt instr
  have hsource := extractSource1_lt instr
  have hconstant := extractConstant_range instr
  rw [← h.dest, ← h.source, ← h.constant]
  exact ⟨by omega, by omega, hconstant⟩

/-! ### Operands that fit -/

/-- An `int` is stored as it is. -/
theorem storeInt_toNat {v : Int} (h₁ : -2 ^ 31 ≤ v) (h₂ : v < 2 ^ 31) : ((storeInt v).toNat : Int) = v % 2 ^ 32 := by
  have hclamp : max (-2 ^ 63) (min v (2 ^ 63 - 1)) = v := by omega
  rw [storeInt, hclamp, UInt32.ofInt, UInt32.toNat_ofNat']
  omega

theorem storeInt_lt {v : Int} (h : 0 ≤ v ∧ v < 32) : storeInt v < 32 := by
  have hv := storeInt_toNat (v := v) (by omega) (by omega)
  rw [UInt32.lt_iff_toNat_lt]
  change _ < 32
  omega

private theorem SourceLine.decodes {opcode : Opcode} {a b c : Int} (h : Representable a b c) :
    Decodes (SourceLine.instr ⟨opcode, storeInt a, storeInt b, storeInt c⟩) opcode a b c := by
  have ho := opcode.code_lt
  have ha := storeInt_lt h.dest
  have hb := storeInt_lt h.source
  obtain ⟨⟨ha₁, ha₂⟩, ⟨hb₁, hb₂⟩, hc₁, hc₂⟩ := h
  have hc := storeInt_toNat (v := c) (by omega) (by omega)
  constructor
  · exact extractOpcode_makeInstr _ ho ha hb
  · rw [SourceLine.instr, extractDest_makeInstr _ ho ha hb, storeInt_toNat (by omega) (by omega)]
    omega
  · rw [SourceLine.instr, extractSource1_makeInstr _ ho ha hb, storeInt_toNat (by omega) (by omega)]
    omega
  · rw [SourceLine.instr, extractConstant_makeInstr _ ho ha hb, signExtend_toInt, hc, Int.bmod_def]
    split <;> omega

/-! ### What is assembled is what is executed -/

/-- What should become of a line with these operands that `n` instructions precede: the word that is stored for it is
decoded to the line, or the line is rejected since no word is. -/
def Assembles (file : List UInt8) (n : Nat) (opcode : Opcode) (a b c : Int) : Prop :=
  let result := readProgramFile (some file)
  (∃ instr, result.1[n]? = some (.write n instr) ∧ Decodes instr opcode a b c) ∨
    (result.1.length = n ∧ result.2.isSome ∧ ¬ Representable a b c)

section Line

variable {file buf text : List UInt8} {pre post : List (List UInt8)} {stored : List SourceLine} {opcode : Opcode}
  {a b c : Int}

theorem readLine_stores (hcomment : buf.head? ≠ some 59) (hscan : scanLine buf = some (text, a, b, c))
    (hfind : Opcode.find text = some opcode) :
    readLine buf = .ok (some ⟨opcode, storeInt a, storeInt b, storeInt c⟩) := by
  rw [readLine, if_neg hcomment]
  simp only [hscan, hfind]

/-- The call of `write_memory` for a line. -/
private theorem readProgramFile_line (hfile : fgetsLines file = pre ++ buf :: post)
    (hpre : readLines pre = (stored, none)) (hcomment : buf.head? ≠ some 59)
    (hscan : scanLine buf = some (text, a, b, c)) (hfind : Opcode.find text = some opcode) :
    (readProgramFile (some file)).1[stored.length]? =
      some (.write stored.length (SourceLine.instr ⟨opcode, storeInt a, storeInt b, storeInt c⟩)) := by
  have hlines : readLines (pre ++ buf :: post) = _ := readLines_append hpre
  simp only [readLines, readLine_stores hcomment hscan hfind] at hlines
  simp [readProgramFile, hfile, hlines, readProgram]

/-- A line with a known mnemonic and three integers is assembled as it should be exactly when the integers fit the
fields of an instruction: nothing else about the line, or the file, matters. -/
theorem assembles_iff (hfile : fgetsLines file = pre ++ buf :: post) (hpre : readLines pre = (stored, none))
    (hcomment : buf.head? ≠ some 59) (hscan : scanLine buf = some (text, a, b, c))
    (hfind : Opcode.find text = some opcode) :
    Assembles file stored.length opcode a b c ↔ Representable a b c := by
  have hcall := readProgramFile_line hfile hpre hcomment hscan hfind
  constructor
  · intro h
    rcases h with ⟨instr, -, hdecodes⟩ | ⟨hlength, -, -⟩
    · exact hdecodes.representable
    · -- the line was not rejected
      have hlt := (List.getElem?_eq_some_iff.1 hcall).1
      omega
  · intro h
    exact Or.inl ⟨_, hcall, SourceLine.decodes h⟩

end Line

/-- The line `add 1,2,-3`. -/
def addLine : List UInt8 := [97, 100, 100, 32, 49, 44, 50, 44, 45, 51, 10]

theorem assembles_addLine : Assembles addLine 0 .add 1 2 (-3) ↔ Representable 1 2 (-3) := by
  have hfile : fgetsLines addLine = [] ++ addLine :: [] := by decide
  have hscan : scanLine addLine = some (Opcode.add.mnemonic, 1, 2, -3) := by decide
  exact assembles_iff hfile rfl (by decide) hscan (Opcode.find_mnemonic .add)

/-- The line `add 32,0,0` is assembled to the instruction of `addi 0,0,0`. -/
theorem not_assembles_add : ¬ Assembles [97, 100, 100, 32, 51, 50, 44, 48, 44, 48, 10] 0 .add 32 0 0 := by
  intro h
  rcases h with ⟨instr, -, hdecodes⟩ | ⟨hlength, -, -⟩
  · exact absurd hdecodes.representable.dest.2 (by decide)
  · revert hlength
    decide

end Edaf35.Machine
