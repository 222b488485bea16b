import Edaf35.Lib.Stutter
import Edaf35.Tracer.Rewrite

/-!
# The trace loop

The loop of `main` continues the child until it stops at a zeroed word, puts the divide instruction back, lets the child
execute it alone and zeroes the word again.  The tracer and the child take turns, so one `tick` is either a step of
`main` between two waits, or one instruction of the child.

The child is a deterministic program with registers and data of type `σ`, which depends on its text only through the
word it executes.  Executing the word 0 stops it and changes nothing.  The calls of `ptrace` and `waitpid` succeed as
long as the child lives.
-/

namespace Edaf35.Tracer

/-- A child: the address of the next instruction, the general registers, and what it does on executing a word, `none`
when it exits. -/
structure Child (σ : Type) where
  nip : σ → UInt32
  gpr : σ → UInt32 → UInt32
  exec : UInt32 → σ → Option σ

/-- Where `main` is in the loop: before `PTRACE_CONT`, in the first `waitpid`, after it, in the second `waitpid`, before
the last `PTRACE_POKEDATA`, after the loop, or after a call of `error`. -/
inductive Phase
  | cont
  | running
  | stopped
  | stepping (addr : UInt32)
  | poke (addr : UInt32)
  | exited
  | failed
deriving DecidableEq, Repr

/-- The child and the variables of `main` that the loop changes; `divfp` holds the lines written to the trace file, if
there is one. -/
structure State (σ : Type) where
  phase : Phase
  child : σ
  text : Text
  hist : Nat → UInt64
  ndivw : UInt64
  divfp : Option (List (UInt32 × UInt32))

/-! ### The loop -/

/-- `MAX_DENOMINATOR`. -/
def maxDenominator : Int32 := 100

/-- `labs`; the smallest number has no absolute value and stays what it is. -/
def labs (x : UInt32) : UInt32 := if x.toInt32 < 0 then -x else x

/-- The element that an index of `hist` denotes, its elements taking 8 bytes of a 32-bit address. -/
def histIndex (i : UInt32) : Nat := (i * 8).toNat / 8

def countDenominator (hist : Nat → UInt64) (d : UInt32) : Nat → UInt64 :=
  if (labs d).toInt32 ≤ maxDenominator then
    Function.update hist (histIndex (labs d)) (hist (histIndex (labs d)) + 1)
  else hist

variable {σ : Type} (C : Child σ) (table : InstrTable)

/-- From `PTRACE_GETREGS` to `PTRACE_SINGLESTEP`, or to the end of the iteration. -/
def examine (s : State σ) : State σ :=
  let addr := C.nip s.child
  if s.text addr = 0 then
    match lookupInstr table addr with
    | .error _ => { s with phase := .failed }
    | .ok instr =>
      if instr ≠ 0 ∧ instrPrimary instr = poX ∧ instrField instr 21 10 = eoDivw then
        let ra := instrField instr 11 5
        let rb := instrField instr 16 5
        { s with
          phase := .stepping addr
          text := Function.update s.text addr instr
          divfp := s.divfp.map fun l => l ++ [(C.gpr s.child ra, C.gpr s.child rb)]
          hist := countDenominator s.hist (C.gpr s.child rb)
          ndivw := s.ndivw + 1 }
      else { s with phase := .cont }
  else { s with phase := .cont }

/-- One step of `main`, or one instruction of the child. -/
def tick (s : State σ) : State σ :=
  let word := s.text (C.nip s.child)
  match s.phase with
  | .cont => { s with phase := .running }
  | .running =>
    if word = 0 then { s with phase := .stopped }
    else
      match C.exec word s.child with
      | none => { s with phase := .exited }
      | some c => { s with child := c }
  | .stopped => examine C table s
  | .stepping addr =>
    if word = 0 then { s with phase := .poke addr }
    else
      match C.exec word s.child with
      | none => { s with phase := .failed } -- the poke into a child that has exited fails
      | some c => { s with phase := .poke addr, child := c }
  | .poke addr => { s with phase := .cont, text := Function.update s.text addr 0 }
  | .exited | .failed => s

/-- The state of the child, if it executes an instruction at this tick. -/
def executes (s : State σ) : Option σ :=
  match s.phase with
  | .running | .stepping _ => if s.text (C.nip s.child) = 0 then none else some s.child
  | _ => none

/-- Before the loop. -/
def start (c : σ) (text : Text) (hist : Nat → UInt64) (divfp : Option (List (UInt32 × UInt32))) : State σ :=
  ⟨.cont, c, text, hist, 0, divfp⟩

/-! ### The child without a tracer -/

/-- The child with the text `text`, and the number of divide instructions it has executed. -/
def plain (text : Text) : Option σ × Nat → Option (σ × (Option σ × Nat))
  | (none, _) => none
  | (some c, m) =>
    let word := text (C.nip c)
    some (c, C.exec word c, if IsDivw word then m + 1 else m)

/-- The tracer after `n` ticks. -/
def ticks (n : Nat) (s : State σ) : State σ := (tick C table)^[n] s

/-- The states of the child before the instructions it executes in `n` ticks. -/
def traced (n : Nat) (s : State σ) : List σ := emitted (tick C table) (executes C) n s

/-- The states of the plain child before each of its first `k` instructions. -/
def untraced (text : Text) (k : Nat) (c : σ) : List σ := produced (plain C text) k (some c, 0)

/-- The plain child after `k` instructions, and the number of divide instructions among them. -/
def plainAfter (text : Text) (k : Nat) (c : σ) : Option σ × Nat := after (plain C text) k (some c, 0)

/-- The text before it was patched. -/
def unpatched (text : Text) (table : InstrTable) : Text := fun p =>
  match lookupInstr table p with
  | .ok w => w
  | .error _ => text p

/-- Whether the table has a word for the address. -/
def inTable (table : InstrTable) (p : UInt32) : Bool := (lookupInstr table p).isOk

/-- The words that hold 0 are those in the table, under which the table has divide words. -/
structure Zeroed (text : Text) (table : InstrTable) : Prop where
  zero_iff : ∀ p, text p = 0 ↔ ∃ w, lookupInstr table p = .ok w
  divw : ∀ p w, lookupInstr table p = .ok w → IsDivw w

/-- No other word is a divide word. -/
structure Patched (text : Text) (table : InstrTable) : Prop extends Zeroed text table where
  rest : ∀ p, ¬IsDivw (text p)

end Edaf35.Tracer
