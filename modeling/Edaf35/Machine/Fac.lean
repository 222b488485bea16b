import Mathlib.Data.Nat.Factorial.Basic
import Edaf35.Machine.Cpu

/-!
# The function FAC of `fac.s`

FAC is executed with a flat memory first, by induction on its parameter: a call that returns at once takes 8 steps,
every other one 12 steps and those of the recursive call (`flat_fac`).  The stack grows by two words for each call.
The paged memory then does the same, until `new_swap_page` runs out of pages (`fac_returns`).
-/

namespace Edaf35.Machine

open Nat (factorial)

/-- A line of an assembly file as `read_program` reads it. -/
structure SourceLine where
  opcode : Opcode
  a : UInt32
  b : UInt32
  c : UInt32

def SourceLine.instr (l : SourceLine) : UInt32 := makeInstr l.opcode.code l.a l.b l.c

/-- The calls of `write_memory` in `read_program`. -/
def readProgram (program : List SourceLine) : List Access :=
  program.mapIdx fun line l => .write line l.instr

/-- `fac.s`: 26 instructions, with FAC at address 3, MAIN at 18 and EXIT at 25. -/
def facSource : List SourceLine :=
  [ ⟨.addi, 1, 0, 1024⟩,
    ⟨.call, 0, 0, 18⟩,
    ⟨.call, 0, 0, 25⟩,
    -- function FAC
    ⟨.st, 31, 1, -1⟩,
    ⟨.st, 3, 1, -2⟩,
    ⟨.subi, 1, 1, 2⟩,
    ⟨.seqi, 4, 3, 1⟩,
    ⟨.bf, 0, 4, 11⟩,
    ⟨.addi, 3, 0, 1⟩,
    ⟨.addi, 1, 1, 2⟩,
    ⟨.jmp, 0, 31, 0⟩,
    ⟨.subi, 3, 3, 1⟩,
    ⟨.call, 0, 0, 3⟩,
    ⟨.ld, 4, 1, 0⟩,
    ⟨.mul, 3, 3, 4⟩,
    ⟨.ld, 5, 1, 1⟩,
    ⟨.addi, 1, 1, 2⟩,
    ⟨.jmp, 0, 5, 0⟩,
    -- function MAIN
    ⟨.st, 31, 1, -1⟩,
    ⟨.subi, 1, 1, 1⟩,
    ⟨.addi, 3, 0, 12⟩,
    ⟨.call, 0, 0, 3⟩,
    ⟨.ld, 5, 1, 0⟩,
    ⟨.addi, 1, 1, 1⟩,
    ⟨.jmp, 0, 5, 0⟩,
    -- function EXIT
    ⟨.halt, 0, 0, 0⟩ ]

/-- The encoded program is in memory, from address 0 on. -/
def Loaded (program : List SourceLine) (f : Nat → Option UInt32) : Prop :=
  ∀ i l, program[i]? = some l → f i = some l.instr

/-- The processor at a call of FAC with parameter `n`, stack pointer `sp` and return address `r`. -/
structure Called (cpu : Cpu) (n sp : Nat) (r : UInt32) : Prop where
  pc : cpu.pc = 3
  zero : cpu.reg 0 = 0
  param : (cpu.reg 3).toNat = n
  ret : cpu.reg 31 = r
  stack : (cpu.reg 1).toNat = sp

/-- The processor when that call returns. -/
structure Returned (cpu : Cpu) (n sp : Nat) (r : UInt32) : Prop where
  pc : cpu.pc = r
  result : (cpu.reg 3).toNat = factorial n % 2 ^ 32
  stack : (cpu.reg 1).toNat = sp

/-! ### Single instructions, with the flat memory -/

section Flat

variable {f : Nat → Option UInt32} {cpu : Cpu} {pc : UInt32} {reg : UInt32 → UInt32}

theorem Loaded.update {program : List SourceLine} {addr : Nat} (h : Loaded program f) (ha : program.length ≤ addr)
    (w : Option UInt32) : Loaded program (Function.update f addr w) := by
  intro i l hl
  have hi : i < program.length := (List.getElem?_eq_some_iff.1 hl).1
  rw [Function.update_of_ne (by omega)]
  exact h i l hl

theorem Loaded.congr {program : List SourceLine} {f' : Nat → Option UInt32} (h : Loaded program f)
    (he : ∀ addr, addr < program.length → f' addr = f addr) : Loaded program f' := by
  intro i l hl
  rw [he i (List.getElem?_eq_some_iff.1 hl).1]
  exact h i l hl

private theorem facSource_fields : ∀ l ∈ facSource, l.a < 32 ∧ l.b < 32 ∧ signExtend l.c = l.c := by decide

/-- A line of `fac.s` is fetched, decoded and executed. -/
private theorem step_line {t : Cpu × (Nat → Option UInt32)} (l : SourceLine) (hcode : Loaded facSource f)
    (hl : facSource[pc.toNat]? = some l)
    (h : execute flatMemory ⟨pc, reg⟩ f l.opcode l.a (reg l.b) (reg (l.c &&& (nReg - 1))) l.c = .ok t) :
    step flatMemory (⟨pc, reg⟩, f) = .ok t := by
  obtain ⟨ha, hb, hc⟩ := facSource_fields l (List.mem_of_getElem? hl)
  have hlt : pc.toNat < facSource.length := (List.getElem?_eq_some_iff.1 hl).1
  have hpc : pc.toNat < virtWords := lt_of_lt_of_le hlt (by decide)
  have hread : flatMemory.read f pc = .ok (l.instr, f) := by
    simp only [flatMemory, if_pos hpc, hcode _ _ hl]
  rw [step_makeInstr ha hb hread, hc, h]

private theorem execute_st {destReg source1 source2 constant addr : UInt32} (he : source1 + constant = addr)
    (ha : addr.toNat < virtWords) : execute flatMemory cpu f .st destReg source1 source2 constant =
      .ok (cpu.incrementPc, Function.update f addr.toNat (some (cpu.reg destReg))) := by
  simp only [execute, he, flatMemory, if_pos ha]

private theorem execute_ld {destReg source1 source2 constant addr w : UInt32} (he : source1 + constant = addr)
    (ha : addr.toNat < virtWords) (hw : f addr.toNat = some w) :
    execute flatMemory cpu f .ld destReg source1 source2 constant =
      .ok ((cpu.writeback destReg w).incrementPc, f) := by
  simp only [execute, he, flatMemory, if_pos ha, hw]

/-! ### The parts of FAC -/

/-- The registers after lines 3 to 6. -/
def entered (reg : UInt32 → UInt32) : UInt32 → UInt32 :=
  Function.update (Function.update reg 1 (reg 1 - 2)) 4 (truth (reg 3 = 1))

/-- The memory after the return address and the parameter were saved. -/
def saved (f : Nat → Option UInt32) (reg : UInt32 → UInt32) : Nat → Option UInt32 :=
  Function.update (Function.update f (reg 1 - 1).toNat (some (reg 31))) (reg 1 - 2).toNat (some (reg 3))

section Saved

variable (h : facSource.length + 2 ≤ (reg 1).toNat)
include h

private theorem ret_toNat : (reg 1 - 1).toNat = (reg 1).toNat - 1 :=
  UInt32.toNat_sub_of_le _ _ (by change 1 ≤ (reg 1).toNat; omega)

private theorem param_toNat : (reg 1 - 2).toNat = (reg 1).toNat - 2 :=
  UInt32.toNat_sub_of_le _ _ (by change 2 ≤ (reg 1).toNat; omega)

private theorem saved_ret : saved f reg (reg 1 - 1).toNat = some (reg 31) := by
  have h₁ := ret_toNat h
  have h₂ := param_toNat h
  rw [saved, Function.update_of_ne (by omega), Function.update_self]

private theorem saved_other {addr : Nat} (ha : addr + 2 < (reg 1).toNat ∨ (reg 1).toNat ≤ addr) :
    saved f reg addr = f addr := by
  have h₁ := ret_toNat h
  have h₂ := param_toNat h
  rw [saved, Function.update_of_ne (by omega), Function.update_of_ne (by omega)]

private theorem Loaded.saved (hcode : Loaded facSource f) : Loaded facSource (saved f reg) := by
  have h₁ := ret_toNat h
  have h₂ := param_toNat h
  exact (hcode.update (by omega) _).update (by omega) _

end Saved

private theorem saved_param : saved f reg (reg 1 - 2).toNat = some (reg 3) := Function.update_self ..

/-- Lines 3 to 7. -/
private theorem flat_enter (hcode : Loaded facSource f) (hlow : facSource.length + 2 ≤ (reg 1).toNat)
    (hhigh : (reg 1).toNat ≤ virtWords) : runFor (step flatMemory) 5 (⟨3, reg⟩, f) =
      .ok (⟨if reg 3 = 1 then 8 else 11, entered reg⟩, saved f reg) := by
  have h₁ := ret_toNat hlow
  have h₂ := param_toNat hlow
  have hcode₁ : Loaded facSource (Function.update f (reg 1 - 1).toNat (some (reg 31))) := hcode.update (by omega) _
  have hcode₂ := hcode.saved hlow
  have hst : step flatMemory (⟨3, reg⟩, f) =
      .ok (⟨4, reg⟩, Function.update f (reg 1 - 1).toNat (some (reg 31))) :=
    step_line ⟨.st, 31, 1, -1⟩ hcode rfl (execute_st (UInt32.sub_eq_add_neg _ _).symm (by omega))
  have hst' : step flatMemory (⟨4, reg⟩, Function.update f (reg 1 - 1).toNat (some (reg 31))) =
      .ok (⟨5, reg⟩, saved f reg) :=
    step_line ⟨.st, 3, 1, -2⟩ hcode₁ rfl (execute_st (UInt32.sub_eq_add_neg _ _).symm (by omega))
  have hsubi : step flatMemory (⟨5, reg⟩, saved f reg) =
      .ok (⟨6, Function.update reg 1 (reg 1 - 2)⟩, saved f reg) := step_line ⟨.subi, 1, 1, 2⟩ hcode₂ rfl rfl
  have hseqi : step flatMemory (⟨6, Function.update reg 1 (reg 1 - 2)⟩, saved f reg) =
      .ok (⟨7, entered reg⟩, saved f reg) := step_line ⟨.seqi, 4, 3, 1⟩ hcode₂ rfl rfl
  have hbf : step flatMemory (⟨7, entered reg⟩, saved f reg) =
      .ok (⟨if reg 3 = 1 then 8 else 11, entered reg⟩, saved f reg) := by
    apply step_line ⟨.bf, 0, 4, 11⟩ hcode₂ rfl
    by_cases hone : reg 3 = 1
    · simp [execute, entered, truth, hone, Cpu.incrementPc]
    · simp [execute, entered, truth, hone]
  rw [runFor_succ hst, runFor_succ hst', runFor_succ hsubi, runFor_succ hseqi, runFor_succ hbf, runFor]

/-- Lines 8 to 10. -/
private theorem flat_one (hcode : Loaded facSource f) (hzero : reg 0 = 0) : runFor (step flatMemory) 3 (⟨8, reg⟩, f) =
    .ok (⟨reg 31, Function.update (Function.update reg 3 1) 1 (reg 1 + 2)⟩, f) := by
  have haddi : step flatMemory (⟨8, reg⟩, f) = .ok (⟨9, Function.update reg 3 (reg 0 + 1)⟩, f) :=
    step_line ⟨.addi, 3, 0, 1⟩ hcode rfl rfl
  have hpop : step flatMemory (⟨9, Function.update reg 3 1⟩, f) =
      .ok (⟨10, Function.update (Function.update reg 3 1) 1 (reg 1 + 2)⟩, f) :=
    step_line ⟨.addi, 1, 1, 2⟩ hcode rfl rfl
  have hjmp : step flatMemory (⟨10, Function.update (Function.update reg 3 1) 1 (reg 1 + 2)⟩, f) =
      .ok (⟨reg 31, Function.update (Function.update reg 3 1) 1 (reg 1 + 2)⟩, f) :=
    step_line ⟨.jmp, 0, 31, 0⟩ hcode rfl rfl
  rw [hzero, UInt32.zero_add] at haddi
  rw [runFor_succ haddi, runFor_succ hpop, runFor_succ hjmp, runFor]

/-- Lines 11 and 12. -/
private theorem flat_recurse (hcode : Loaded facSource f) : runFor (step flatMemory) 2 (⟨11, reg⟩, f) =
    .ok (⟨3, Function.update (Function.update reg 3 (reg 3 - 1)) 31 13⟩, f) := by
  have hsubi : step flatMemory (⟨11, reg⟩, f) = .ok (⟨12, Function.update reg 3 (reg 3 - 1)⟩, f) :=
    step_line ⟨.subi, 3, 3, 1⟩ hcode rfl rfl
  have hcall : step flatMemory (⟨12, Function.update reg 3 (reg 3 - 1)⟩, f) =
      .ok (⟨3, Function.update (Function.update reg 3 (reg 3 - 1)) 31 13⟩, f) :=
    step_line ⟨.call, 0, 0, 3⟩ hcode rfl rfl
  rw [runFor_succ hsubi, runFor_succ hcall, runFor]

/-- The registers after lines 13 to 17, when the parameter `n` and the return address `r` are reloaded. -/
def left (reg : UInt32 → UInt32) (n r : UInt32) : UInt32 → UInt32 :=
  Function.update (Function.update (Function.update (Function.update reg 4 n) 3 (reg 3 * n)) 5 r) 1 (reg 1 + 2)

/-- Lines 13 to 17. -/
private theorem flat_return (hcode : Loaded facSource f) {n r : UInt32} (hlow : (reg 1).toNat < virtWords)
    (hhigh : (reg 1 + 1).toNat < virtWords) (hn : f (reg 1).toNat = some n) (hr : f (reg 1 + 1).toNat = some r) :
    runFor (step flatMemory) 5 (⟨13, reg⟩, f) = .ok (⟨r, left reg n r⟩, f) := by
  have hld : step flatMemory (⟨13, reg⟩, f) = .ok (⟨14, Function.update reg 4 n⟩, f) :=
    step_line ⟨.ld, 4, 1, 0⟩ hcode rfl (execute_ld (UInt32.add_zero _) hlow hn)
  have hmul : step flatMemory (⟨14, Function.update reg 4 n⟩, f) =
      .ok (⟨15, Function.update (Function.update reg 4 n) 3 (reg 3 * n)⟩, f) :=
    step_line ⟨.mul, 3, 3, 4⟩ hcode rfl rfl
  have hld' : step flatMemory (⟨15, Function.update (Function.update reg 4 n) 3 (reg 3 * n)⟩, f) =
      .ok (⟨16, Function.update (Function.update (Function.update reg 4 n) 3 (reg 3 * n)) 5 r⟩, f) :=
    step_line ⟨.ld, 5, 1, 1⟩ hcode rfl (execute_ld rfl hhigh hr)
  have haddi : step flatMemory
      (⟨16, Function.update (Function.update (Function.update reg 4 n) 3 (reg 3 * n)) 5 r⟩, f) =
      .ok (⟨17, left reg n r⟩, f) := step_line ⟨.addi, 1, 1, 2⟩ hcode rfl rfl
  have hjmp : step flatMemory (⟨17, left reg n r⟩, f) = .ok (⟨r, left reg n r⟩, f) :=
    step_line ⟨.jmp, 0, 5, 0⟩ hcode rfl rfl
  rw [runFor_succ hld, runFor_succ hmul, runFor_succ hld', runFor_succ haddi, runFor_succ hjmp, runFor]

/-! ### The recursion -/

/-- The registers when FAC calls itself. -/
def descended (reg : UInt32 → UInt32) : UInt32 → UInt32 :=
  Function.update (Function.update (entered reg) 3 (reg 3 - 1)) 31 13

/-- A parameter above 1: the recursive call. -/
private theorem flat_descend {n : Nat} (hcode : Loaded facSource f) (hzero : reg 0 = 0) (hparam : (reg 3).toNat = n + 1)
    (hn : 1 ≤ n) (hlow : facSource.length + 2 ≤ (reg 1).toNat) (hhigh : (reg 1).toNat ≤ virtWords) :
    runFor (step flatMemory) 7 (⟨3, reg⟩, f) = .ok (⟨3, descended reg⟩, saved f reg) ∧
      Called ⟨3, descended reg⟩ n ((reg 1).toNat - 2) 13 := by
  have hmore : reg 3 ≠ 1 := by
    intro hone
    rw [hone] at hparam
    change 1 = n + 1 at hparam
    omega
  have henter := flat_enter hcode hlow hhigh
  rw [if_neg hmore] at henter
  constructor
  · exact (runFor_add henter 2).trans (flat_recurse (hcode.saved hlow))
  · refine ⟨rfl, hzero, ?_, rfl, param_toNat hlow⟩
    change (reg 3 - 1).toNat = n
    rw [UInt32.toNat_sub_of_le _ _ (by change 1 ≤ (reg 3).toNat; omega), hparam]
    rfl

/-- After the recursive call: the parameter and the return address are still on the stack. -/
private theorem flat_ascend {f' : Nat → Option UInt32} {reg' : UInt32 → UInt32} (hcode : Loaded facSource f')
    (hlow : facSource.length + 2 ≤ (reg 1).toNat) (hhigh : (reg 1).toNat ≤ virtWords) (hsp : reg' 1 = reg 1 - 2)
    (hframe : ∀ addr, (reg 1).toNat - 2 ≤ addr → f' addr = saved f reg addr) :
    runFor (step flatMemory) 5 (⟨13, reg'⟩, f') = .ok (⟨reg 31, left reg' (reg 3) (reg 31)⟩, f') := by
  have hparam := param_toNat hlow
  have hret := ret_toNat hlow
  have hpred : reg' 1 + 1 = reg 1 - 1 := by
    rw [hsp]
    grind
  apply flat_return hcode
  · rw [hsp]
    omega
  · rw [hpred]
    omega
  · rw [hsp, hframe _ (by omega), saved_param]
  · rw [hpred, hframe _ (by omega), saved_ret hlow]

end Flat

/-- A call of FAC with the flat memory returns after `12 n - 4` steps, and changes no words but those of its part of
the stack. -/
private theorem flat_fac {n : Nat} (hn : 1 ≤ n) {cpu : Cpu} {f : Nat → Option UInt32} {sp : Nat} {r : UInt32}
    (hcode : Loaded facSource f) (hcalled : Called cpu n sp r) (hlow : facSource.length + 2 * n ≤ sp)
    (hhigh : sp ≤ virtWords) :
    ∃ cpu' f', runFor (step flatMemory) (12 * n - 4) (cpu, f) = .ok (cpu', f') ∧ Returned cpu' n sp r ∧
      cpu'.reg 0 = 0 ∧ ∀ addr, addr + 2 * n < sp ∨ sp ≤ addr → f' addr = f addr := by
  induction n, hn using Nat.le_induction generalizing cpu f sp r with
  | base =>
    obtain ⟨pc, reg⟩ := cpu
    obtain rfl : pc = 3 := hcalled.pc
    have hzero : reg 0 = 0 := hcalled.zero
    have hparam : (reg 3).toNat = 1 := hcalled.param
    obtain rfl : reg 31 = r := hcalled.ret
    obtain rfl : (reg 1).toNat = sp := hcalled.stack
    have hone : reg 3 = 1 := UInt32.toNat_inj.1 hparam
    have henter := flat_enter hcode hlow hhigh
    rw [if_pos hone] at henter
    have hzero₁ : entered reg 0 = 0 := hzero
    have hreturn := flat_one (hcode.saved hlow) hzero₁
    refine ⟨_, _, (runFor_add henter 3).trans hreturn, ⟨rfl, rfl, ?_⟩, hzero₁, ?_⟩
    · change (reg 1 - 2 + 2).toNat = _
      rw [UInt32.sub_add_cancel]
    · intro addr ha
      exact saved_other hlow ha
  | succ n hn ih =>
    obtain ⟨pc, reg⟩ := cpu
    obtain rfl : pc = 3 := hcalled.pc
    have hzero : reg 0 = 0 := hcalled.zero
    have hparam : (reg 3).toNat = n + 1 := hcalled.param
    obtain rfl : reg 31 = r := hcalled.ret
    obtain rfl : (reg 1).toNat = sp := hcalled.stack
    have hlow₁ : facSource.length + 2 ≤ (reg 1).toNat := by omega
    obtain ⟨hdescend, hcall⟩ := flat_descend hcode hzero hparam hn hlow₁ hhigh
    obtain ⟨⟨pc, reg'⟩, f', hrun, hreturned, hzero', hframe⟩ :=
      ih (hcode.saved hlow₁) hcall (by omega) (by omega)
    obtain rfl : pc = 13 := hreturned.pc
    have hresult : (reg' 3).toNat = factorial n % 2 ^ 32 := hreturned.result
    have hsp : reg' 1 = reg 1 - 2 := UInt32.toNat_inj.1 (hreturned.stack.trans (param_toNat hlow₁).symm)
    have hcode' : Loaded facSource f' := (hcode.saved hlow₁).congr fun addr ha => hframe addr (Or.inl (by omega))
    have hascend := flat_ascend hcode' hlow₁ hhigh hsp fun addr ha => hframe addr (Or.inr ha)
    have hsteps : 12 * (n + 1) - 4 = 7 + ((12 * n - 4) + 5) := by omega
    refine ⟨⟨reg 31, left reg' (reg 3) (reg 31)⟩, f', ?_, ⟨rfl, ?_, ?_⟩, hzero', ?_⟩
    · rw [hsteps, runFor_add hdescend]
      exact (runFor_add hrun 5).trans hascend
    · change (reg' 3 * reg 3).toNat = _
      rw [UInt32.toNat_mul, hresult, hparam, Nat.factorial_succ, Nat.mod_mul_mod, Nat.mul_comm]
    · change (reg' 1 + 2).toNat = _
      rw [hsp, UInt32.sub_add_cancel]
    · intro addr ha
      rw [hframe addr (by omega), saved_other hlow₁ (by omega)]

/-! ### FAC in virtual memory -/

variable {ρ : Type} {P : Policy ρ} {r₀ : ρ} {ws : List (Option UInt32)} {s : Paging ρ}

private theorem lastWritten_readProgram {program : List SourceLine} {i : Nat} {l : SourceLine}
    (h : program[i]? = some l) : lastWritten (readProgram program) i = some l.instr := by
  induction program using List.reverseRecOn with
  | nil => simp at h
  | append_singleton ls l' ih =>
    have hlast : readProgram (ls ++ [l']) = readProgram ls ++ [.write ls.length l'.instr] := by
      simp [readProgram, List.mapIdx_append]
    rw [hlast, lastWritten_write]
    by_cases hi : ls.length = i
    · subst hi
      simp at h
      rw [if_pos rfl, h]
    · have hlt := (List.getElem?_eq_some_iff.1 h).1
      rw [List.length_append, List.length_singleton] at hlt
      rw [List.getElem?_append_left (by omega)] at h
      rw [if_neg hi, ih h]

/-- After `read_program` the program is in virtual memory. -/
theorem loaded_readProgram {program : List SourceLine} (hlen : program.length ≤ virtWords)
    (hrun : run (access P) (initial r₀) (readProgram program) = some (ws, s)) : Loaded program (word s) := by
  have hin : ∀ a ∈ readProgram program, a.InRange := by
    intro a ha
    obtain ⟨i, hi, rfl⟩ := List.mem_mapIdx.1 ha
    exact lt_of_lt_of_le hi hlen
  obtain ⟨-, hagrees⟩ := run_agrees hin hrun
  intro i l hl
  have hi := (List.getElem?_eq_some_iff.1 hl).1
  exact hagrees i l.instr (lt_of_lt_of_le hi hlen) (lastWritten_readProgram hl)

/-- FAC returned: the code is in place, and so is every word at or above the stack pointer that was written before,
by the calls `as`. -/
structure FacReturned (as : List Access) (n sp : Nat) (r : UInt32) (t : Cpu × Paging ρ) : Prop
    extends Returned t.1 n sp r where
  code : Loaded facSource (word t.2)
  written : ∀ addr w, sp ≤ addr → addr < virtWords → lastWritten as addr = some w → word t.2 addr = some w

/-- A call of FAC with parameter `n`, in any reachable state of the paged memory and under every replacement function,
returns `n!` after `12 n - 4` instructions, unless `new_swap_page` runs out of pages before. -/
theorem fac_returns {as : List Access} {cpu : Cpu} {n sp : Nat} {r : UInt32} (hin : ∀ a ∈ as, a.InRange)
    (hrun : run (access P) (initial r₀) as = some (ws, s)) (hcode : Loaded facSource (word s))
    (hcalled : Called cpu n sp r) (hn : 1 ≤ n) (hlow : facSource.length + 2 * n ≤ sp) (hhigh : sp ≤ virtWords) :
    (∃ t, runFor (step (pagedMemory P)) (12 * n - 4) (cpu, s) = .ok t ∧ FacReturned as n sp r t) ∨
      ∃ m t, m < 12 * n - 4 ∧ runFor (step (pagedMemory P)) m (cpu, s) = .ok t ∧
        step (pagedMemory P) t = .error .assertion := by
  obtain ⟨hi, hagrees⟩ := run_agrees hin hrun
  obtain ⟨cpu', f', hflat, hreturned, -, hframe⟩ := flat_fac hn hcode hcalled hlow hhigh
  have hholds : SameCpu HoldsWords (cpu, s) (cpu, word s) := ⟨rfl, hi, fun _ _ _ hw => hw⟩
  rcases (paged_simulates P).step.run hholds hflat with
    ⟨⟨cpu₁, s₁⟩, hpaged, rfl, hheld⟩ | ⟨m, t, stop, hm, ht, he, rfl⟩
  · refine Or.inl ⟨_, hpaged, hreturned, ?_, ?_⟩
    · intro i l hl
      have hlt := (List.getElem?_eq_some_iff.1 hl).1
      apply hheld.word_eq i l.instr (by omega)
      exact (hframe i (Or.inl (by omega))).trans (hcode i l hl)
    · intro addr w ha hv hw
      apply hheld.word_eq addr w hv
      exact (hframe addr (Or.inr ha)).trans (hagrees addr w hv hw)
  · exact Or.inr ⟨m, t, hm, ht, he⟩

/-- The processor at the call in `main` of `fac.s`. -/
def callTwelve : Cpu := ⟨3, fun i => if i = 1 then 1023 else if i = 3 then 12 else if i = 31 then 22 else 0⟩

/-- The call in `main` of `fac.s`, after `read_program`. -/
theorem fac_returns_twelve : ∃ ws s t, run (access secondChance) (initial 0) (readProgram facSource) = some (ws, s) ∧
    runFor (step (pagedMemory secondChance)) 140 (callTwelve, s) = .ok t ∧
      FacReturned (readProgram facSource) 12 1023 22 t := by
  have hok : ((run (access secondChance) (initial 0) (readProgram facSource)).map fun x =>
      (runFor (step (pagedMemory secondChance)) 140 (callTwelve, x.2)).isOk) = some true := by decide +kernel
  obtain ⟨⟨ws, s⟩, hrun, hok⟩ := Option.map_eq_some_iff.1 hok
  have hcalled : Called callTwelve 12 1023 22 := ⟨rfl, rfl, rfl, rfl, rfl⟩
  rcases fac_returns (n := 12) (by decide) hrun (loaded_readProgram (by decide) hrun) hcalled (by decide) (by decide)
      (by decide) with ⟨t, ht, hreturned⟩ | ⟨m, t, hm, ht, he⟩
  · exact ⟨ws, s, t, hrun, ht, hreturned⟩
  · have hfails := runFor_error ht he hm
    rw [hfails] at hok
    cases hok

end Edaf35.Machine
