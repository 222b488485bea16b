import Edaf35.Lib.Forward
import Edaf35.Machine.Transparency

/-!
# The processor of `machine.c`

The loop of `run` fetches an instruction from memory, decodes and executes it.  What it does depends on the memory
only through `read_memory` and `write_memory`, so the memory is a parameter of it (`Memory`): the paged memory, and a
flat memory that knows some of its words.  The processor does the same with both as far as the flat memory goes,
until the assertion of `new_swap_page` fails (`paged_simulates`).

`int` and `unsigned` are 32-bit words, with arithmetic that wraps around.
-/

namespace Edaf35.Machine

def nReg : UInt32 := 32

/-- The opcodes. -/
inductive Opcode
  | add | addi | sub | subi | sge | sgt | seq | bt | bf | ba | st | ld | call | jmp | mul | seqi | halt
  deriving DecidableEq, Repr

def Opcode.code : Opcode → UInt32
  | .add => 0
  | .addi => 1
  | .sub => 2
  | .subi => 3
  | .sge => 4
  | .sgt => 5
  | .seq => 6
  | .bt => 7
  | .bf => 8
  | .ba => 9
  | .st => 10
  | .ld => 11
  | .call => 12
  | .jmp => 13
  | .mul => 14
  | .seqi => 15
  | .halt => 16

/-- The opcodes in the order of `mnemonics`: each stands at the index that is its code. -/
def Opcode.table : List Opcode :=
  [add, addi, sub, subi, sge, sgt, seq, bt, bf, ba, st, ld, call, jmp, mul, seqi, halt]

/-- The cases of the `switch` in `run`. -/
def Opcode.ofCode (code : UInt32) : Option Opcode := Opcode.table[code.toNat]?

theorem Opcode.ofCode_code (opcode : Opcode) : ofCode opcode.code = some opcode := by
  cases opcode <;> rfl

theorem Opcode.code_lt (opcode : Opcode) : opcode.code < 64 := by
  cases opcode <;> decide

/-! ### Instructions -/

def makeInstr (opcode dest s1 s2 : UInt32) : UInt32 :=
  (opcode <<< 26) ||| (dest <<< 21) ||| (s1 <<< 16) ||| (s2 &&& 0xffff)

def extractOpcode (instr : UInt32) : UInt32 := instr >>> 26

def extractDest (instr : UInt32) : UInt32 := (instr >>> 21) &&& 0x1f

def extractSource1 (instr : UInt32) : UInt32 := (instr >>> 16) &&& 0x1f

/-- The conversion to `short` and back to `int`. -/
def signExtend (x : UInt32) : UInt32 := x.toUInt16.toInt16.toInt32.toUInt32

def extractConstant (instr : UInt32) : UInt32 := signExtend (instr &&& 0xffff)

section Fields

variable {opcode dest s1 : UInt32}

/-- A field shifted into place, joined to the lower ones. -/
private theorem shiftLeft_or {x y i : Nat} (hx : x * 2 ^ i < 2 ^ 32) (hy : y < 2 ^ i) :
    x <<< i % 2 ^ 32 ||| y = x * 2 ^ i + y := by
  rw [Nat.mod_eq_of_lt (by rwa [Nat.shiftLeft_eq]), ← Nat.shiftLeft_add_eq_or_of_lt hy, Nat.shiftLeft_eq]

/-- The fields of an instruction do not overlap. -/
private theorem makeInstr_toNat (s2 : UInt32) (ho : opcode < 64) (hd : dest < 32) (hs : s1 < 32) :
    (makeInstr opcode dest s1 s2).toNat =
      opcode.toNat * 2 ^ 26 + (dest.toNat * 2 ^ 21 + (s1.toNat * 2 ^ 16 + s2.toNat % 2 ^ 16)) := by
  have ho' : opcode.toNat < 64 := ho
  have hd' : dest.toNat < 32 := hd
  have hs' : s1.toNat < 32 := hs
  have hmask : s2.toNat &&& 65535 = s2.toNat % 2 ^ 16 := Nat.and_two_pow_sub_one_eq_mod s2.toNat 16
  simp only [makeInstr, UInt32.toNat_or, UInt32.toNat_shiftLeft, UInt32.toNat_and, UInt32.reduceToNat, Nat.reduceMod]
  rw [hmask, Nat.or_assoc, Nat.or_assoc]
  -- from the lowest field up
  rw [shiftLeft_or (x := s1.toNat) (by omega) (by omega)]
  rw [shiftLeft_or (x := dest.toNat) (by omega) (by omega)]
  rw [shiftLeft_or (x := opcode.toNat) (by omega) (by omega)]

theorem extractOpcode_makeInstr (s2 : UInt32) (ho : opcode < 64) (hd : dest < 32) (hs : s1 < 32) :
    extractOpcode (makeInstr opcode dest s1 s2) = opcode := by
  have hd' : dest.toNat < 32 := hd
  have hs' : s1.toNat < 32 := hs
  apply UInt32.toNat_inj.1
  simp only [extractOpcode, UInt32.toNat_shiftRight, UInt32.reduceToNat, Nat.reduceMod, Nat.shiftRight_eq_div_pow]
  rw [makeInstr_toNat s2 ho hd hs]
  omega

theorem extractDest_makeInstr (s2 : UInt32) (ho : opcode < 64) (hd : dest < 32) (hs : s1 < 32) :
    extractDest (makeInstr opcode dest s1 s2) = dest := by
  have hd' : dest.toNat < 32 := hd
  have hs' : s1.toNat < 32 := hs
  apply UInt32.toNat_inj.1
  simp only [extractDest, UInt32.toNat_and, UInt32.toNat_shiftRight, UInt32.reduceToNat, Nat.reduceMod,
    Nat.shiftRight_eq_div_pow]
  rw [Nat.and_two_pow_sub_one_eq_mod _ 5, makeInstr_toNat s2 ho hd hs]
  omega

theorem extractSource1_makeInstr (s2 : UInt32) (ho : opcode < 64) (hd : dest < 32) (hs : s1 < 32) :
    extractSource1 (makeInstr opcode dest s1 s2) = s1 := by
  have hs' : s1.toNat < 32 := hs
  apply UInt32.toNat_inj.1
  simp only [extractSource1, UInt32.toNat_and, UInt32.toNat_shiftRight, UInt32.reduceToNat, Nat.reduceMod,
    Nat.shiftRight_eq_div_pow]
  rw [Nat.and_two_pow_sub_one_eq_mod _ 5, makeInstr_toNat s2 ho hd hs]
  omega

theorem extractConstant_makeInstr (s2 : UInt32) (ho : opcode < 64) (hd : dest < 32) (hs : s1 < 32) :
    extractConstant (makeInstr opcode dest s1 s2) = signExtend s2 := by
  have hlow : (makeInstr opcode dest s1 s2 &&& 0xffff).toUInt16 = s2.toUInt16 := by
    apply UInt16.toNat_inj.1
    simp only [UInt32.toNat_toUInt16, UInt32.toNat_and, UInt32.reduceToNat]
    rw [Nat.and_two_pow_sub_one_eq_mod _ 16, makeInstr_toNat s2 ho hd hs]
    omega
  rw [extractConstant, signExtend, hlow, signExtend]

end Fields

/-! ### The loop of `run` -/

/-- `cpu_t`. -/
structure Cpu where
  pc : UInt32
  reg : UInt32 → UInt32

/-- Why the machine stops: `HALT`, an illegal instruction, a failed assertion, or an access that the memory does not
cover. -/
inductive Stop
  | halt
  | illegal
  | assertion
  | address
  deriving DecidableEq

/-- What the processor sees of a memory: `read_memory` and `write_memory`. -/
structure Memory (μ : Type) where
  read : μ → UInt32 → Except Stop (UInt32 × μ)
  write : μ → UInt32 → UInt32 → Except Stop μ

def Cpu.incrementPc (cpu : Cpu) : Cpu := { cpu with pc := cpu.pc + 1 }

/-- The assignment to the destination register; register 0 is never assigned. -/
def Cpu.writeback (cpu : Cpu) (destReg dest : UInt32) : Cpu :=
  if destReg ≠ 0 then { cpu with reg := Function.update cpu.reg destReg dest } else cpu

/-- The value of a comparison. -/
def truth (b : Bool) : UInt32 := if b then 1 else 0

section Loop

variable {μ : Type}

/-- The `switch` of `run` and what follows it, for a decoded instruction and its operands. -/
def execute (M : Memory μ) (cpu : Cpu) (m : μ) (opcode : Opcode) (destReg source1 source2 constant : UInt32) :
    Except Stop (Cpu × μ) :=
  match opcode with
  | .add => .ok ((cpu.writeback destReg (source1 + source2)).incrementPc, m)
  | .addi => .ok ((cpu.writeback destReg (source1 + constant)).incrementPc, m)
  | .sub => .ok ((cpu.writeback destReg (source1 - source2)).incrementPc, m)
  | .subi => .ok ((cpu.writeback destReg (source1 - constant)).incrementPc, m)
  | .mul => .ok ((cpu.writeback destReg (source1 * source2)).incrementPc, m)
  | .sge => .ok ((cpu.writeback destReg (truth (source1.toInt32 ≥ source2.toInt32))).incrementPc, m)
  | .sgt => .ok ((cpu.writeback destReg (truth (source1.toInt32 > source2.toInt32))).incrementPc, m)
  | .seq => .ok ((cpu.writeback destReg (truth (source1 = source2))).incrementPc, m)
  | .seqi => .ok ((cpu.writeback destReg (truth (source1 = constant))).incrementPc, m)
  | .bt => .ok (if source1 ≠ 0 then { cpu with pc := constant } else cpu.incrementPc, m)
  | .bf => .ok (if source1 = 0 then { cpu with pc := constant } else cpu.incrementPc, m)
  | .ba => .ok ({ cpu with pc := constant }, m)
  | .ld =>
    match M.read m (source1 + constant) with
    | .error stop => .error stop
    | .ok (data, m) => .ok ((cpu.writeback destReg data).incrementPc, m)
  | .st =>
    match M.write m (source1 + constant) (cpu.reg destReg) with
    | .error stop => .error stop
    | .ok m => .ok (cpu.incrementPc, m)
  | .call => .ok (Cpu.writeback { cpu with pc := constant } 31 (cpu.pc + 1), m)
  | .jmp => .ok ({ cpu with pc := source1 }, m)
  | .halt => .error .halt

/-- An instruction that was fetched: decode it, fetch the operands and execute it. -/
def decode (M : Memory μ) (cpu : Cpu) (m : μ) (instr : UInt32) : Except Stop (Cpu × μ) :=
  match Opcode.ofCode (extractOpcode instr) with
  | none => .error .illegal
  | some opcode =>
    execute M cpu m opcode (extractDest instr) (cpu.reg (extractSource1 instr))
      (cpu.reg (extractConstant instr &&& (nReg - 1))) (extractConstant instr)

/-- The body of the loop in `run`. -/
def step (M : Memory μ) (s : Cpu × μ) : Except Stop (Cpu × μ) :=
  match M.read s.2 s.1.pc with
  | .error stop => .error stop
  | .ok (instr, m) => decode M s.1 m instr

/-- What a step does at an instruction that was made by `make_instr`. -/
theorem step_makeInstr {M : Memory μ} {cpu : Cpu} {m m' : μ} {opcode : Opcode} {dest s1 s2 : UInt32} (hd : dest < 32)
    (hs : s1 < 32) (h : M.read m cpu.pc = .ok (makeInstr opcode.code dest s1 s2, m')) :
    step M (cpu, m) = execute M cpu m' opcode dest (cpu.reg s1) (cpu.reg (signExtend s2 &&& (nReg - 1)))
      (signExtend s2) := by
  have ho := opcode.code_lt
  simp only [step, h, decode]
  rw [extractOpcode_makeInstr s2 ho hd hs, extractDest_makeInstr s2 ho hd hs, extractSource1_makeInstr s2 ho hd hs,
    extractConstant_makeInstr s2 ho hd hs, Opcode.ofCode_code]

/-! ### Two memories -/

variable {ν : Type} {M : Memory μ} {N : Memory ν} {R : μ → ν → Prop} {fails : Stop → Prop}

/-- `M` does whatever `N` does, unless it fails in the way `fails`. -/
structure Memory.Simulates (M : Memory μ) (N : Memory ν) (R : μ → ν → Prop) (fails : Stop → Prop) : Prop where
  read : ∀ m n addr w n', R m n → N.read n addr = .ok (w, n') →
    (∃ m', M.read m addr = .ok (w, m') ∧ R m' n') ∨ ∃ stop, M.read m addr = .error stop ∧ fails stop
  write : ∀ m n addr w n', R m n → N.write n addr w = .ok n' →
    (∃ m', M.write m addr w = .ok m' ∧ R m' n') ∨ ∃ stop, M.write m addr w = .error stop ∧ fails stop

/-- The same processor, with related memories. -/
def SameCpu (R : μ → ν → Prop) (s : Cpu × μ) (t : Cpu × ν) : Prop := s.1 = t.1 ∧ R s.2 t.2

theorem Memory.Simulates.execute (h : M.Simulates N R fails) {cpu : Cpu} {m : μ} {n : ν} (hr : R m n)
    {opcode : Opcode} {destReg source1 source2 constant : UInt32} {t : Cpu × ν}
    (ht : execute N cpu n opcode destReg source1 source2 constant = .ok t) :
    (∃ s, execute M cpu m opcode destReg source1 source2 constant = .ok s ∧ SameCpu R s t) ∨
      ∃ stop, execute M cpu m opcode destReg source1 source2 constant = .error stop ∧ fails stop := by
  cases opcode with
  | ld =>
    simp only [Machine.execute] at ht ⊢
    cases hn : N.read n (source1 + constant) with
    | error stop =>
      rw [hn] at ht
      cases ht
    | ok answer =>
      obtain ⟨data, n'⟩ := answer
      rw [hn] at ht
      cases ht
      rcases h.read m n _ data n' hr hn with ⟨m', hm, hr'⟩ | ⟨stop, hm, hfail⟩
      · exact Or.inl ⟨_, by rw [hm], rfl, hr'⟩
      · exact Or.inr ⟨stop, by rw [hm], hfail⟩
  | st =>
    simp only [Machine.execute] at ht ⊢
    cases hn : N.write n (source1 + constant) (cpu.reg destReg) with
    | error stop =>
      rw [hn] at ht
      cases ht
    | ok n' =>
      rw [hn] at ht
      cases ht
      rcases h.write m n _ _ n' hr hn with ⟨m', hm, hr'⟩ | ⟨stop, hm, hfail⟩
      · exact Or.inl ⟨_, by rw [hm], rfl, hr'⟩
      · exact Or.inr ⟨stop, by rw [hm], hfail⟩
  | halt => cases ht
  | _ =>
    -- the memory is not used
    cases ht
    exact Or.inl ⟨_, rfl, rfl, hr⟩

theorem Memory.Simulates.step (h : M.Simulates N R fails) : SimUpTo (step M) (step N) (SameCpu R) fails := by
  intro s t t' hst ht
  obtain ⟨hcpu, hr⟩ := hst
  simp only [Machine.step, hcpu] at ht ⊢
  cases hn : N.read t.2 t.1.pc with
  | error stop =>
    rw [hn] at ht
    cases ht
  | ok answer =>
    obtain ⟨instr, n'⟩ := answer
    rw [hn] at ht
    rcases h.read s.2 t.2 _ instr n' hr hn with ⟨m', hm, hr'⟩ | ⟨stop, hm, hfail⟩
    · rw [hm]
      simp only [decode] at ht ⊢
      cases ho : Opcode.ofCode (extractOpcode instr) with
      | none =>
        rw [ho] at ht
        cases ht
      | some opcode =>
        rw [ho] at ht
        exact h.execute hr' ht
    · exact Or.inr ⟨stop, by rw [hm], hfail⟩

end Loop

/-! ### The paged memory and a flat one -/

/-- The number of words that the page table covers. -/
def virtWords : Nat := nPages * pageSize

/-- The paged memory as the processor uses it. -/
def pagedMemory {ρ : Type} (P : Policy ρ) : Memory (Paging ρ) where
  read s addr :=
    if addr.toNat < virtWords then
      match readMemory P s addr.toNat with
      | none => .error .assertion
      | some answer => .ok answer
    else .error .address
  write s addr data :=
    if addr.toNat < virtWords then
      match writeMemory P s addr.toNat data with
      | none => .error .assertion
      | some s => .ok s
    else .error .address

/-- A flat memory that knows some of its words. -/
def flatMemory : Memory (Nat → Option UInt32) where
  read f addr :=
    if addr.toNat < virtWords then
      match f addr.toNat with
      | none => .error .address
      | some w => .ok (w, f)
    else .error .address
  write f addr data :=
    if addr.toNat < virtWords then .ok (Function.update f addr.toNat (some data)) else .error .address

/-- The word at a virtual address. -/
def word {ρ : Type} (s : Paging ρ) (addr : Nat) : Option UInt32 := contents s (addr / pageSize) (addr % pageSize)

/-- The paged memory holds the words that the flat one knows. -/
structure HoldsWords {ρ : Type} (s : Paging ρ) (f : Nat → Option UInt32) : Prop where
  repInv : RepInv none s
  word_eq : ∀ addr w, addr < virtWords → f addr = some w → word s addr = some w

/-- Words that are kept are still held. -/
private theorem HoldsWords.keeps {ρ : Type} {s s' : Paging ρ} {f : Nat → Option UInt32} (h : HoldsWords s f)
    (hi : RepInv none s') (hk : Keeps s s') : HoldsWords s' f :=
  ⟨hi, fun addr w ha hw => hk _ _ w (page_lt ha) (offset_lt addr) (h.word_eq addr w ha hw)⟩

private theorem HoldsWords.update {ρ : Type} {s s₁ s' : Paging ρ} {f : Nat → Option UInt32} {addr : Nat} {data : UInt32}
    (h : HoldsWords s f) (hi : RepInv none s') (hk : Keeps s s₁)
    (hc : ∀ v k, v < nPages → k < pageSize →
      contents s' v k = if v = addr / pageSize ∧ k = addr % pageSize then some data else contents s₁ v k) :
    HoldsWords s' (Function.update f addr (some data)) := by
  refine ⟨hi, ?_⟩
  intro x w hx hw
  rw [word, hc _ _ (page_lt hx) (offset_lt x)]
  by_cases he : x = addr
  · subst he
    rw [Function.update_self] at hw
    rw [if_pos ⟨rfl, rfl⟩, hw]
  · rw [Function.update_of_ne he] at hw
    rw [if_neg]
    · exact hk _ _ w (page_lt hx) (offset_lt x) (h.word_eq x w hx hw)
    · intro hsame
      apply he
      rw [← Nat.div_add_mod x pageSize, ← Nat.div_add_mod addr pageSize, hsame.1, hsame.2]

/-- The paged memory does what the flat memory does, until `new_swap_page` runs out of pages. -/
theorem paged_simulates {ρ : Type} (P : Policy ρ) :
    (pagedMemory P).Simulates flatMemory HoldsWords fun stop => stop = .assertion := by
  constructor
  · intro s f addr w f' hs hread
    simp only [flatMemory, pagedMemory] at hread ⊢
    by_cases haddr : addr.toNat < virtWords
    · rw [if_pos haddr] at hread ⊢
      cases hf : f addr.toNat with
      | none =>
        rw [hf] at hread
        cases hread
      | some w' =>
        rw [hf] at hread
        cases hread
        cases hr : readMemory P s addr.toNat with
        | none => exact Or.inr ⟨_, rfl, rfl⟩
        | some answer =>
          obtain ⟨w', s'⟩ := answer
          obtain ⟨hi, hk, hc⟩ := readMemory_spec hs.repInv haddr hr
          have hs' := hs.keeps hi hk
          have hw : some w' = some w := hc.symm.trans (hs'.word_eq _ w haddr hf)
          cases hw
          exact Or.inl ⟨s', rfl, hs'⟩
    · rw [if_neg haddr] at hread
      cases hread
  · intro s f addr w f' hs hwrite
    simp only [flatMemory, pagedMemory] at hwrite ⊢
    by_cases haddr : addr.toNat < virtWords
    · rw [if_pos haddr] at hwrite ⊢
      cases hwrite
      cases hw : writeMemory P s addr.toNat w with
      | none => exact Or.inr ⟨_, rfl, rfl⟩
      | some s' =>
        obtain ⟨hi, s₁, hk, hc⟩ := writeMemory_spec hs.repInv haddr hw
        exact Or.inl ⟨s', rfl, hs.update hi hk hc⟩
    · rw [if_neg haddr] at hwrite
      cases hwrite

end Edaf35.Machine
