import Edaf35.Lib.Probe
import Mathlib.Data.List.Nodup
import Mathlib.Data.Nat.Bitwise

/-!
# The table of instructions

`instr_table.c` keeps the instructions that the tracer replaced in a table with open addressing: the slot of address
`addr` is `(addr / 4) & (size-1)`, a slot with address 0 is free, and the table doubles when more than half of it is
used.  The tracer is a 32-bit program, so a `size_t` has 32 bits.

In a well-formed table (`WellFormed`) every instruction is found under its address, and `install_instr` keeps the table
well formed.
-/

namespace Edaf35.Tracer

/-- The ways in which the tracer ends before its time: two calls of `error`, and an access outside an array or a loop
without end. -/
inductive Failure
  | outOfMemory
  | notInTable (addr : UInt32)
  | fault
deriving DecidableEq, Repr

/-- `instr_t`. -/
structure Instr where
  instr : UInt32
  addr : UInt32
deriving DecidableEq, Repr

/-- `sizeof(instr_t)`. -/
def sizeofInstr : Nat := 8

/-- `instr_table_t`. -/
structure InstrTable where
  n : Nat
  size : Nat
  a : List Instr
deriving DecidableEq, Repr

/-- `sizeof(instr_table_t)`. -/
def sizeofInstrTable : Nat := 12

/-! ### The functions -/

/-- `calloc(1, bytes)` for an array of instructions; `calloc` tells for which sizes there is memory. -/
def callocInstrs (calloc : Nat → Bool) (bytes : Nat) : Except Failure (List Instr) :=
  if calloc (bytes % 2 ^ 32) then .ok (List.replicate (bytes % 2 ^ 32 / sizeofInstr) ⟨0, 0⟩)
  else .error .outOfMemory

def newInstrTable (calloc : Nat → Bool) : Except Failure InstrTable := do
  if calloc sizeofInstrTable then
    let a ← callocInstrs calloc (8 * sizeofInstr)
    pure ⟨0, 8, a⟩
  else .error .outOfMemory

def slot (size : Nat) (addr : UInt32) : Nat := (addr / 4).toNat &&& (size - 1)

def nextSlot (size i : Nat) : Nat := (i + 1) &&& (size - 1)

def install (a : List Instr) (size : Nat) (addr instr : UInt32) : Except Failure (List Instr) :=
  match probe (a[·]?) (nextSlot size) (fun x => x.addr == 0) size (slot size addr) with
  | none => .error .fault
  | some (i, _) => .ok (a.set i ⟨instr, addr⟩)

/-- The loop of `install_instr` that moves the instructions in `l` to the larger array `b`. -/
def reinstall (size : Nat) : List Instr → List Instr → Except Failure (List Instr)
  | [], b => .ok b
  | x :: l, b =>
    if x.addr ≠ 0 then do
      let b ← install b size x.addr x.instr
      reinstall size l b
    else reinstall size l b

/-- The part of `install_instr` that doubles the table. -/
def grow (calloc : Nat → Bool) (t : InstrTable) : Except Failure InstrTable :=
  if t.n * 2 > t.size then do
    let b ← callocInstrs calloc (2 * t.size * sizeofInstr)
    let b ← reinstall (2 * t.size) t.a b
    pure ⟨t.n, 2 * t.size, b⟩
  else pure t

def installInstr (calloc : Nat → Bool) (t : InstrTable) (addr instr : UInt32) : Except Failure InstrTable := do
  let a ← install t.a t.size addr instr
  grow calloc ⟨t.n + 1, t.size, a⟩

def lookupInstr (t : InstrTable) (addr : UInt32) : Except Failure UInt32 :=
  match probe (t.a[·]?) (nextSlot t.size) (fun x => x.addr == 0 || x.addr == addr) t.size (slot t.size addr) with
  | none => .error .fault
  | some (_, x) => if x.addr = 0 then .error (.notInTable addr) else .ok x.instr

/-! ### Well-formed tables -/

def Instr.used (x : Instr) : Bool := x.addr != 0

@[simp] theorem Instr.used_iff {x : Instr} : x.used = true ↔ x.addr ≠ 0 := by simp [used]

/-- The instructions in the table. -/
def entries (a : List Instr) : List Instr := a.filter Instr.used

theorem mem_entries {a : List Instr} {x : Instr} : x ∈ entries a ↔ x ∈ a ∧ x.addr ≠ 0 := by
  rw [entries, List.mem_filter, Instr.used_iff]

/-- Every instruction is reached from its slot, no address occurs twice, and half of the table is free. -/
structure WellFormed (t : InstrTable) : Prop where
  pow : ∃ k, t.size = 2 ^ k
  probed : Probed Instr.used (fun x => slot t.size x.addr) t.size t.a
  distinct : ((entries t.a).map Instr.addr).Nodup
  count : (entries t.a).length = t.n
  half : 2 * t.n ≤ t.size

variable {t t' : InstrTable} {a b : List Instr} {addr instr : UInt32} {size k : Nat} {calloc : Nat → Bool}

private theorem slot_lt (hsize : size = 2 ^ k) : slot size addr < size := by
  rw [slot, hsize, Nat.and_two_pow_sub_one_eq_mod]
  exact Nat.mod_lt _ (Nat.two_pow_pos k)

private theorem nextSlot_eq (hsize : size = 2 ^ k) : nextSlot size = fun i => (i + 1) % size := by
  funext i
  rw [nextSlot, hsize, Nat.and_two_pow_sub_one_eq_mod]

/-- A table that is not full has a free slot. -/
private theorem exists_free (hlen : a.length = size) (hfree : (entries a).length < size) : ∃ x ∈ a, x.addr = 0 := by
  by_contra hne
  have hall : entries a = a := List.filter_eq_self.2 fun x hx => by
    rw [Instr.used_iff]
    exact fun h0 => hne ⟨x, hx, h0⟩
  rw [hall] at hfree
  omega

/-- `install` adds an instruction to a table that is not full. -/
private theorem install_spec (hsize : size = 2 ^ k) (ha : Probed Instr.used (fun x => slot size x.addr) size a)
    (hfree : (entries a).length < size) (haddr : addr ≠ 0) (instr : UInt32) :
    ∃ a', install a size addr instr = .ok a' ∧ Probed Instr.used (fun x => slot size x.addr) size a' ∧
      (entries a').Perm (⟨instr, addr⟩ :: entries a) := by
  obtain ⟨x, hx, hx0⟩ := exists_free ha.length_eq hfree
  have hstop : ∃ x ∈ a, (fun x : Instr => x.addr == 0) x = true := ⟨x, hx, by simp [hx0]⟩
  have hslot : slot size addr < size := slot_lt hsize
  obtain ⟨d, y, -, hprobe, hy, hy0, hpass⟩ := probe_first ha.length_eq hslot hstop
  have hyfree : y.used = false := by simpa [Instr.used] using hy0
  have hused : Instr.used ⟨instr, addr⟩ = true := Instr.used_iff.2 haddr
  refine ⟨_, ?_, ha.set hused hy fun e he => ?_, filter_set_perm hy hyfree hused⟩
  · rw [install, nextSlot_eq hsize, hprobe]
  · obtain ⟨z, hz, hz0⟩ := hpass e he
    exact ⟨z, hz, by simpa [Instr.used] using hz0⟩

/-- Moving the instructions of `l` to a table with room for them. -/
private theorem reinstall_spec (hsize : size = 2 ^ k) {l : List Instr}
    (hb : Probed Instr.used (fun x => slot size x.addr) size b)
    (hfree : (entries l).length + (entries b).length < size) :
    ∃ b', reinstall size l b = .ok b' ∧ Probed Instr.used (fun x => slot size x.addr) size b' ∧
      (entries b').Perm (entries l ++ entries b) := by
  induction l generalizing b with
  | nil => exact ⟨b, rfl, hb, List.Perm.refl _⟩
  | cons x l ih =>
    rw [reinstall]
    by_cases hx : x.addr ≠ 0
    · have hcons : entries (x :: l) = x :: entries l := List.filter_cons_of_pos (Instr.used_iff.2 hx)
      rw [hcons, List.length_cons] at hfree
      obtain ⟨b₁, hins, hb₁, hperm₁⟩ := install_spec hsize hb (by omega) hx x.instr
      have hlen := hperm₁.length_eq
      rw [List.length_cons] at hlen
      obtain ⟨b', hre, hb', hperm⟩ := ih hb₁ (by omega)
      refine ⟨b', ?_, hb', ?_⟩
      · rw [if_pos hx, hins]
        exact hre
      · rw [hcons]
        exact hperm.trans ((hperm₁.append_left _).trans List.perm_middle)
    · have hcons : entries (x :: l) = entries l := List.filter_cons_of_neg (by rw [Instr.used_iff]; exact hx)
      rw [hcons] at hfree ⊢
      rw [if_neg hx]
      exact ih hb hfree

/-- Nothing can be moved to an array without slots. -/
private theorem reinstall_nil (hsize : 0 < size) {l : List Instr} (hl : entries l ≠ []) :
    reinstall size l [] = .error .fault := by
  obtain ⟨s, rfl⟩ : ∃ s, size = s + 1 := ⟨size - 1, by omega⟩
  induction l with
  | nil => exact absurd rfl hl
  | cons x l ih =>
    rw [reinstall]
    by_cases hx : x.addr ≠ 0
    · rw [if_pos hx]
      rfl
    · rw [if_neg hx]
      refine ih fun h => hl ?_
      rw [entries, List.filter_cons_of_neg (by rw [Instr.used_iff]; exact hx)]
      exact h

/-- Doubling a table that is not full keeps its instructions, or there is no memory for the larger table. -/
private theorem grow_spec (calloc : Nat → Bool) (hsize : t.size = 2 ^ k)
    (ha : Probed Instr.used (fun x => slot t.size x.addr) t.size t.a)
    (hdistinct : ((entries t.a).map Instr.addr).Nodup) (hcount : (entries t.a).length = t.n) (hfree : t.n ≤ t.size)
    (hpos : 0 < t.n) :
    (∃ t', grow calloc t = .ok t' ∧ WellFormed t' ∧ (entries t'.a).Perm (entries t.a)) ∨
      (∃ e, grow calloc t = .error e) ∧ ((∃ bytes, calloc bytes = false) ∨ 2 ^ 27 < t.n) := by
  have hsize' : 2 * t.size = 2 ^ (k + 1) := by rw [hsize, Nat.pow_succ, Nat.mul_comm]
  unfold grow
  by_cases hgrow : t.n * 2 > t.size
  · rw [if_pos hgrow]
    by_cases hmem : calloc (2 * t.size * sizeofInstr % 2 ^ 32)
    · have halloc : callocInstrs calloc (2 * t.size * sizeofInstr) =
          .ok (List.replicate (2 * t.size * sizeofInstr % 2 ^ 32 / sizeofInstr) ⟨0, 0⟩) := if_pos hmem
      rw [halloc]
      by_cases hsmall : k < 28
      · -- the size of the array does not wrap
        have hle : t.size ≤ 2 ^ 27 := by rw [hsize]; exact Nat.pow_le_pow_right (by decide) (by omega)
        have hwidth : 2 * t.size * sizeofInstr % 2 ^ 32 / sizeofInstr = 2 * t.size := by
          unfold sizeofInstr
          omega
        have hempty : entries (List.replicate (2 * t.size) ⟨0, 0⟩) = [] := by simp [entries, Instr.used]
        obtain ⟨b, hre, hb, hperm⟩ := reinstall_spec (l := t.a) hsize' (Probed.replicate (2 * t.size) (x := ⟨0, 0⟩) rfl)
          (by rw [hempty, List.length_nil]; omega)
        rw [hempty, List.append_nil] at hperm
        refine Or.inl ⟨⟨t.n, 2 * t.size, b⟩, ?_, ⟨⟨k + 1, hsize'⟩, hb, ?_, ?_, ?_⟩, hperm⟩
        · rw [hwidth]
          show (reinstall (2 * t.size) t.a _ >>= fun b => pure _) = _
          rw [hre]
          rfl
        · exact (hperm.map Instr.addr).nodup_iff.2 hdistinct
        · rw [hperm.length_eq, hcount]
        · exact Nat.mul_le_mul_left 2 hfree
      · -- the size wraps to 0
        have hdvd : 2 ^ 28 ∣ t.size := by rw [hsize]; exact pow_dvd_pow 2 (by omega)
        have hwidth : 2 * t.size * sizeofInstr % 2 ^ 32 / sizeofInstr = 0 := by
          unfold sizeofInstr
          omega
        have hne : entries t.a ≠ [] := by
          intro hnil
          rw [hnil, List.length_nil] at hcount
          omega
        have hle : 2 ^ 28 ≤ t.size := Nat.le_of_dvd (by omega) hdvd
        refine Or.inr ⟨⟨.fault, ?_⟩, Or.inr (by omega)⟩
        rw [hwidth, List.replicate_zero]
        show (reinstall (2 * t.size) t.a [] >>= fun b => pure _) = _
        rw [reinstall_nil (by omega) hne]
        rfl
    · have halloc : callocInstrs calloc (2 * t.size * sizeofInstr) = .error .outOfMemory := if_neg hmem
      rw [halloc]
      exact Or.inr ⟨⟨_, rfl⟩, Or.inl ⟨_, by simpa using hmem⟩⟩
  · rw [if_neg hgrow]
    exact Or.inl ⟨t, rfl, ⟨⟨k, hsize⟩, ha, hdistinct, hcount, by omega⟩, List.Perm.refl _⟩

/-- `install_instr` adds a new address to a well-formed table, or there is no memory for a larger table. -/
theorem installInstr_spec (calloc : Nat → Bool) (h : WellFormed t) (haddr : addr ≠ 0) (hnew : ∀ x ∈ t.a, x.addr ≠ addr)
    (instr : UInt32) :
    (∃ t', installInstr calloc t addr instr = .ok t' ∧ WellFormed t' ∧
        (entries t'.a).Perm (⟨instr, addr⟩ :: entries t.a)) ∨
      (∃ e, installInstr calloc t addr instr = .error e) ∧ ((∃ bytes, calloc bytes = false) ∨ 2 ^ 27 ≤ t.n) := by
  obtain ⟨k, hk⟩ := h.pow
  have hpos : 0 < t.size := by rw [hk]; exact Nat.two_pow_pos k
  have hhalf := h.half
  have hcount := h.count
  obtain ⟨a, hins, ha, hperm⟩ := install_spec hk h.probed (by omega) haddr instr
  have hlen := hperm.length_eq
  rw [List.length_cons, hcount] at hlen
  have hdistinct : ((entries a).map Instr.addr).Nodup := by
    refine (hperm.map Instr.addr).nodup_iff.2 (List.nodup_cons.2 ⟨fun hm => ?_, h.distinct⟩)
    obtain ⟨x, hx, hxa⟩ := List.mem_map.1 hm
    exact hnew x (mem_entries.1 hx).1 hxa
  have hstep : installInstr calloc t addr instr = grow calloc ⟨t.n + 1, t.size, a⟩ := by
    unfold installInstr
    rw [hins]
    rfl
  rw [hstep]
  have hfree : t.n + 1 ≤ t.size := by omega
  rcases grow_spec (t := ⟨t.n + 1, t.size, a⟩) calloc hk ha hdistinct hlen hfree (Nat.succ_pos _) with
    ⟨t', ht', hwf, hperm'⟩ | ⟨herr, hwhy⟩
  · exact Or.inl ⟨t', ht', hwf, hperm'.trans hperm⟩
  · exact Or.inr ⟨herr, hwhy.imp_right fun hlt => Nat.le_of_lt_succ hlt⟩

/-- `lookup_instr` returns the instruction of an address in the table, and reports any other address. -/
private theorem lookupInstr_spec (h : WellFormed t) (haddr : addr ≠ 0) :
    (∃ x ∈ t.a, x.addr = addr ∧ lookupInstr t addr = .ok x.instr) ∨
      (∀ x ∈ t.a, x.addr ≠ addr) ∧ lookupInstr t addr = .error (.notInTable addr) := by
  obtain ⟨k, hk⟩ := h.pow
  have hhalf := h.half
  have hpos : 0 < t.size := by rw [hk]; exact Nat.two_pow_pos k
  unfold lookupInstr
  rw [nextSlot_eq hk]
  by_cases hin : ∃ x ∈ t.a, x.addr = addr
  · obtain ⟨x, hx, rfl⟩ := hin
    have hunique : ∀ y ∈ t.a, y.used = true → (y.addr == 0 || y.addr == x.addr) = true → y = x := by
      intro y hy hyu hstop
      rw [Instr.used_iff] at hyu
      have heq : y.addr = x.addr := by simpa [hyu] using hstop
      exact List.inj_on_of_nodup_map h.distinct (mem_entries.2 ⟨hy, hyu⟩) (mem_entries.2 ⟨hx, haddr⟩) heq
    have hstop : (fun y : Instr => y.addr == 0 || y.addr == x.addr) x = true := by simp
    obtain ⟨p, hp⟩ := h.probed.probe_eq_some (slot_lt hk) hx (Instr.used_iff.2 haddr) hstop hunique
    refine Or.inl ⟨x, hx, rfl, ?_⟩
    rw [hp]
    exact if_neg haddr
  · have hnot : ∀ x ∈ t.a, x.addr ≠ addr := fun x hx hxa => hin ⟨x, hx, hxa⟩
    obtain ⟨z, hz, hz0⟩ := exists_free h.probed.length_eq (by rw [h.count]; omega)
    have hends : ∃ x ∈ t.a, (fun y : Instr => y.addr == 0 || y.addr == addr) x = true := ⟨z, hz, by simp [hz0]⟩
    have hslot : slot t.size addr < t.size := slot_lt hk
    obtain ⟨d, y, -, hp, hy, hstop, -⟩ := probe_first h.probed.length_eq hslot hends
    have hy0 : y.addr = 0 := by simpa [hnot y (List.mem_of_getElem? hy)] using hstop
    refine Or.inr ⟨hnot, ?_⟩
    rw [hp]
    exact if_pos hy0

/-- The addresses that a lookup finds are those of the instructions in the table. -/
theorem lookupInstr_eq_ok_iff (h : WellFormed t) : lookupInstr t addr = .ok instr ↔ ⟨instr, addr⟩ ∈ entries t.a := by
  by_cases haddr : addr = 0
  · subst haddr
    refine ⟨fun hlookup => ?_, fun hx => absurd rfl (mem_entries.1 hx).2⟩
    -- the search for address 0 ends at a free slot
    unfold lookupInstr at hlookup
    simp only [Bool.or_self] at hlookup
    cases hp : probe (t.a[·]?) (nextSlot t.size) (fun x => x.addr == 0) t.size (slot t.size 0) with
    | none => rw [hp] at hlookup; cases hlookup
    | some y =>
      have hstop : y.2.addr = 0 := by simpa using probe_stops hp
      rw [hp] at hlookup
      simp only [hstop, if_true] at hlookup
      cases hlookup
  · rcases lookupInstr_spec h haddr with ⟨x, hx, rfl, hlookup⟩ | ⟨hnot, hlookup⟩
    · rw [hlookup, Except.ok.injEq]
      constructor
      · rintro rfl
        exact mem_entries.2 ⟨hx, haddr⟩
      · intro hy
        have heq := List.inj_on_of_nodup_map h.distinct (mem_entries.2 ⟨hx, haddr⟩) hy rfl
        rw [heq]
    · rw [hlookup]
      exact ⟨nofun, fun hx => absurd rfl (hnot _ (mem_entries.1 hx).1)⟩

/-- The table of `new_instr_table` is empty. -/
theorem newInstrTable_wellFormed (ht : newInstrTable calloc = .ok t) :
    WellFormed t ∧ t.n = 0 ∧ ∀ x ∈ t.a, x.addr = 0 := by
  obtain rfl : t = ⟨0, 8, List.replicate 8 ⟨0, 0⟩⟩ := by
    unfold newInstrTable callocInstrs at ht
    split at ht
    · split at ht
      · exact (Except.ok.inj ht).symm
      · cases ht
    · cases ht
  exact ⟨⟨⟨3, rfl⟩, Probed.replicate 8 rfl, by decide, by decide, by decide⟩, rfl, by decide⟩

/-! ### Sequences of installations -/

/-- `install_instr` for each address with its instruction. -/
def installAll (calloc : Nat → Bool) : InstrTable → List (UInt32 × UInt32) → Except Failure InstrTable
  | t, [] => .ok t
  | t, (addr, instr) :: ps => do
    let t ← installInstr calloc t addr instr
    installAll calloc t ps

/-- The instructions to be installed. -/
private def instrs (ps : List (UInt32 × UInt32)) : List Instr := ps.map fun p => ⟨p.2, p.1⟩

private theorem addr_instrs (ps : List (UInt32 × UInt32)) : (instrs ps).map Instr.addr = ps.map Prod.fst := by
  simp [instrs, Function.comp_def]

/-- Up to 2^27 instructions can be added to a table while there is memory: the array for one more would have
2^32 bytes. -/
private theorem installAll_spec (hcalloc : ∀ bytes, calloc bytes = true) {ps : List (UInt32 × UInt32)}
    (h : WellFormed t) (hdistinct : ((instrs ps ++ entries t.a).map Instr.addr).Nodup) (hne : ∀ p ∈ ps, p.1 ≠ 0)
    (hsize : t.n + ps.length ≤ 2 ^ 27) :
    ∃ t', installAll calloc t ps = .ok t' ∧ WellFormed t' ∧ (entries t'.a).Perm (instrs ps ++ entries t.a) := by
  induction ps generalizing t with
  | nil => exact ⟨t, rfl, h, List.Perm.refl _⟩
  | cons p ps ih =>
    obtain ⟨addr, instr⟩ := p
    rw [List.length_cons] at hsize
    have hcons : instrs ((addr, instr) :: ps) ++ entries t.a = ⟨instr, addr⟩ :: (instrs ps ++ entries t.a) := rfl
    rw [hcons, List.map_cons, List.nodup_cons] at hdistinct
    have haddr : addr ≠ 0 := hne _ List.mem_cons_self
    have hnew : ∀ x ∈ t.a, x.addr ≠ addr := by
      rintro x hx rfl
      refine hdistinct.1 (List.mem_map.2 ⟨x, List.mem_append_right _ (mem_entries.2 ⟨hx, haddr⟩), rfl⟩)
    rcases installInstr_spec calloc h haddr hnew instr with ⟨t₁, hins, hwf, hperm⟩ | ⟨-, ⟨bytes, hfail⟩ | hlarge⟩
    · have hmid : (instrs ps ++ entries t₁.a).Perm (⟨instr, addr⟩ :: (instrs ps ++ entries t.a)) :=
        (hperm.append_left _).trans List.perm_middle
      have hn : t₁.n = t.n + 1 := by rw [← hwf.count, ← h.count, hperm.length_eq, List.length_cons]
      obtain ⟨t', hall, hwf', hperm'⟩ := ih hwf
        ((hmid.map Instr.addr).nodup_iff.2 (by rw [List.map_cons, List.nodup_cons]; exact hdistinct))
        (fun q hq => hne q (List.mem_cons_of_mem _ hq)) (by omega)
      refine ⟨t', ?_, hwf', ?_⟩
      · rw [installAll, hins]
        exact hall
      · rw [hcons]
        exact hperm'.trans hmid
    · exact absurd (hcalloc bytes) (by rw [hfail]; decide)
    · omega

/-- After distinct addresses were installed in a new table, each of them is found with its instruction, every other
one is reported, the size is a power of two, and half of the slots are free. -/
theorem lookupInstr_installAll (hcalloc : ∀ bytes, calloc bytes = true) {ps : List (UInt32 × UInt32)}
    (hdistinct : (ps.map Prod.fst).Nodup) (hne : ∀ p ∈ ps, p.1 ≠ 0) (hsize : ps.length ≤ 2 ^ 27) :
    ∃ t₀ t, newInstrTable calloc = .ok t₀ ∧ installAll calloc t₀ ps = .ok t ∧
      (∃ k, t.size = 2 ^ k) ∧ t.a.length = t.size ∧ 2 * (t.a.filter fun x => x.addr ≠ 0).length ≤ t.size ∧
      (∀ p ∈ ps, lookupInstr t p.1 = .ok p.2) ∧
      ∀ addr, addr ≠ 0 → addr ∉ ps.map Prod.fst → lookupInstr t addr = .error (.notInTable addr) := by
  have hnew : newInstrTable calloc = .ok ⟨0, 8, List.replicate 8 ⟨0, 0⟩⟩ := by
    simp only [newInstrTable, callocInstrs, hcalloc, if_true]
    rfl
  obtain ⟨hwf, hn, hempty⟩ := newInstrTable_wellFormed hnew
  have hentries : entries (List.replicate 8 (⟨0, 0⟩ : Instr)) = [] := rfl
  obtain ⟨t, hall, hwf', hperm⟩ := installAll_spec hcalloc hwf
    (by rw [hentries, List.append_nil, addr_instrs]; exact hdistinct) hne (by simpa using hsize)
  rw [hentries, List.append_nil] at hperm
  have hmem : ∀ p ∈ ps, ⟨p.2, p.1⟩ ∈ entries t.a := fun p hp => hperm.mem_iff.2 (List.mem_map_of_mem hp)
  have hcount : (t.a.filter fun x => x.addr ≠ 0) = entries t.a := by
    unfold entries
    apply List.filter_congr
    intro x _
    by_cases hx : x.addr = 0 <;> simp [Instr.used, hx]
  refine ⟨_, t, hnew, hall, hwf'.pow, hwf'.probed.length_eq, ?_, fun p hp => ?_, fun addr haddr hnot => ?_⟩
  · rw [hcount, hwf'.count]
    exact hwf'.half
  · exact (lookupInstr_eq_ok_iff hwf').2 (hmem p hp)
  · rcases lookupInstr_spec hwf' haddr with ⟨x, hx, rfl, -⟩ | ⟨-, hlookup⟩
    · refine absurd ?_ hnot
      rw [← addr_instrs]
      exact List.mem_map_of_mem (hperm.mem_iff.1 (mem_entries.2 ⟨hx, haddr⟩))
    · exact hlookup

/-- Five addresses with the same slot, so that the table doubles. -/
theorem lookupInstr_installAll_doubled :
    ∃ t₀ t, newInstrTable (fun _ => true) = .ok t₀ ∧
      installAll (fun _ => true) t₀ [(32, 1), (64, 2), (96, 3), (128, 4), (160, 5)] = .ok t ∧
      t.size = 16 ∧ lookupInstr t 160 = .ok 5 ∧ lookupInstr t 192 = .error (.notInTable 192) := by
  have hall := @lookupInstr_installAll (fun _ => true) (fun _ => rfl)
    [(32, 1), (64, 2), (96, 3), (128, 4), (160, 5)] (by decide) (by simp) (by decide)
  obtain ⟨t₀, t, hnew, hins, -, -, -, hfound, hnot⟩ := hall
  refine ⟨t₀, t, hnew, hins, ?_, hfound (160, 5) (by decide), hnot 192 (by decide) (by decide)⟩
  have hsizes : (newInstrTable (fun _ => true) >>= fun t₀ =>
      installAll (fun _ => true) t₀ [(32, 1), (64, 2), (96, 3), (128, 4), (160, 5)]).map InstrTable.size = .ok 16 := by
    decide
  rw [hnew] at hsizes
  change (installAll (fun _ => true) t₀ _).map InstrTable.size = .ok 16 at hsizes
  rw [hins] at hsizes
  exact Except.ok.inj hsizes

end Edaf35.Tracer
