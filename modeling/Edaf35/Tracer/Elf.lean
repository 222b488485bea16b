import Edaf35.Tracer.Simulation

/-!
# Rewriting the sections of a program

`rewrite_text` reads the section headers of the ELF file that the child executes, and calls `rewrite_instr` for every
section of instructions.  The file is the list of its bytes.  The tracer runs on the machine of the child, so `fread`
fills a header with words of which the first byte is the highest; a `long` has 32 bits, as the file offsets that `fseek`
takes.
-/

namespace Edaf35.Tracer

/-! ### The headers -/

/-- `SHT_PROGBITS`. -/
def shtProgbits : UInt32 := 1

/-- `SHF_EXECINSTR`. -/
def shfExecinstr : UInt32 := 4

/-- `sizeof(Elf32_Ehdr)`. -/
def sizeofEhdr : Nat := 52

/-- `sizeof(Elf32_Shdr)`. -/
def sizeofShdr : Nat := 40

/-- The fields of an `Elf32_Ehdr` that are used. -/
structure Ehdr where
  shoff : UInt32
  shnum : UInt16
deriving DecidableEq, Repr

/-- The fields of an `Elf32_Shdr` that are used. -/
structure Shdr where
  type : UInt32
  flags : UInt32
  addr : UInt32
  size : UInt32
deriving DecidableEq, Repr

/-- The number in the `n` bytes from `pos` on. -/
def number (file : List UInt8) (pos n : Nat) : Nat :=
  ((file.drop pos).take n).foldl (fun v byte => 256 * v + byte.toNat) 0

def word (file : List UInt8) (pos : Nat) : UInt32 := .ofNat (number file pos 4)

/-- The first `fread`. -/
def readEhdr (file : List UInt8) : Option Ehdr :=
  if sizeofEhdr ≤ file.length then some ⟨word file 32, .ofNat (number file 48 2)⟩ else none

/-- A `fread` of a section header at `pos`. -/
def readShdr (file : List UInt8) (pos : Nat) : Option Shdr :=
  if pos + sizeofShdr ≤ file.length then
    some ⟨word file (pos + 4), word file (pos + 8), word file (pos + 12), word file (pos + 20)⟩
  else none

/-! ### The functions -/

/-- The calls of `error` in `rewrite_text`, and those in what it calls. -/
inductive TextFailure
  | cannotOpen
  | cannotReadEhdr
  | cannotSeek
  | cannotReadShdr
  | rewrite (e : Failure)
deriving DecidableEq, Repr

/-- The section holds instructions. -/
def Shdr.Executable (shdr : Shdr) : Prop := shdr.type = shtProgbits ∧ shdr.flags &&& shfExecinstr ≠ 0

instance (shdr : Shdr) : Decidable shdr.Executable := inferInstanceAs (Decidable (_ ∧ _))

/-- The loop of `rewrite_text` with `k` headers to read from `pos` on. -/
def rewriteSections (calloc : Nat → Bool) (file : List UInt8) :
    Nat → Nat → Text → InstrTable → Nat → Except TextFailure (Nat × Text × InstrTable)
  | 0, _, text, table, n => .ok (n, text, table)
  | k + 1, pos, text, table, n =>
    match readShdr file pos with
    | none => .error .cannotReadShdr
    | some shdr =>
      if shdr.Executable then
        match rewriteInstr calloc text shdr.addr shdr.size table with
        | .error e => .error (.rewrite e)
        | .ok (m, text, table) => rewriteSections calloc file k (pos + sizeofShdr) text table (n + m)
      else rewriteSections calloc file k (pos + sizeofShdr) text table n

/-- `rewrite_text`, for a file that can be opened or not. -/
def rewriteText (calloc : Nat → Bool) (program : Option (List UInt8)) (text : Text) (table : InstrTable) :
    Except TextFailure (Nat × Text × InstrTable) :=
  match program with
  | none => .error .cannotOpen
  | some file =>
    match readEhdr file with
    | none => .error .cannotReadEhdr
    | some ehdr =>
      -- as a `long` the offset is negative
      if 2 ^ 31 ≤ ehdr.shoff.toNat then .error .cannotSeek
      else rewriteSections calloc file ehdr.shnum.toNat ehdr.shoff.toNat text table 0

/-! ### What the file says -/

/-- The `k` headers from `pos` on. -/
def shdrs (file : List UInt8) : Nat → Nat → Option (List Shdr)
  | 0, _ => some []
  | k + 1, pos => do
    let shdr ← readShdr file pos
    let rest ← shdrs file k (pos + sizeofShdr)
    pure (shdr :: rest)

/-- A part of the address space: its first address and its size. -/
abbrev Section := UInt32 × UInt32

/-- The sections of instructions among those with the given headers. -/
def codeSections (l : List Shdr) : List Section := (l.filter (·.Executable)).map fun shdr => (shdr.addr, shdr.size)

/-- The sections of instructions of a file, if all its headers can be read. -/
def sections (file : List UInt8) : Option (List Section) := do
  let ehdr ← readEhdr file
  if 2 ^ 31 ≤ ehdr.shoff.toNat then none
  else
    let l ← shdrs file ehdr.shnum.toNat ehdr.shoff.toNat
    pure (codeSections l)

/-- The address `p` of a word in one of the sections. -/
def Covers (secs : List Section) (p : UInt32) : Prop := ∃ s ∈ secs, InRange s.1 s.2.toNat p

instance (secs : List Section) (p : UInt32) : Decidable (Covers secs p) :=
  List.decidableBEx (fun s : Section => InRange s.1 s.2.toNat p) secs

/-- The number of divide words in the sections. -/
def totalDivw (text : Text) (secs : List Section) : Nat := (secs.map fun s => countDivw text s.1 (s.2.toNat / 4)).sum

/-- Sections of words that end before the last address, do not hold the address 0 and do not overlap. -/
structure Laid (secs : List Section) : Prop where
  aligned : ∀ s ∈ secs, 4 ∣ s.1.toNat ∧ 4 ∣ s.2.toNat
  ends : ∀ s ∈ secs, s.1.toNat + s.2.toNat < 2 ^ 32
  nonzero : ¬Covers secs 0
  apart : secs.Pairwise fun s s' => ∀ p, InRange s.1 s.2.toNat p → ¬InRange s'.1 s'.2.toNat p

variable {calloc : Nat → Bool} {file : List UInt8} {secs : List Section} {text text' : Text} {t t' : InstrTable}

private theorem covers_cons {s : Section} {p : UInt32} :
    Covers (s :: secs) p ↔ InRange s.1 s.2.toNat p ∨ Covers secs p := by
  simp [Covers]

private theorem Laid.tail {s : Section} (h : Laid (s :: secs)) : Laid secs := by
  refine ⟨fun x hx => h.aligned x (by simp [hx]), fun x hx => h.ends x (by simp [hx]), fun h0 => ?_,
    (List.pairwise_cons.1 h.apart).2⟩
  exact h.nonzero (covers_cons.2 (Or.inr h0))

private theorem Laid.head_apart {s : Section} (h : Laid (s :: secs)) {p : UInt32} (hp : InRange s.1 s.2.toNat p) :
    ¬Covers secs p := by
  rintro ⟨s', hs', hp'⟩
  exact (List.pairwise_cons.1 h.apart).1 s' hs' p hp hp'

/-! ### Rewriting them all -/

/-- The addresses of the words that are counted lie in the range. -/
private theorem inRange_ofNat {start : UInt32} {size i : Nat} (hal : 4 ∣ start.toNat)
    (hlt : start.toNat + size < 2 ^ 32) (hi : i < size / 4) : InRange start size (.ofNat (start.toNat + 4 * i)) := by
  have hword : (UInt32.ofNat (start.toNat + 4 * i)).toNat = start.toNat + 4 * i :=
    UInt32.toNat_ofNat_of_lt' (by show _ < 2 ^ 32; omega)
  refine ⟨?_, ?_, ?_⟩ <;> rw [hword] <;> omega

private theorem countDivw_congr {start : UInt32} {size : Nat} (hal : 4 ∣ start.toNat)
    (hlt : start.toNat + size < 2 ^ 32) (h : ∀ p, InRange start size p → text' p = text p) :
    countDivw text' start (size / 4) = countDivw text start (size / 4) := by
  refine List.countP_congr fun i hi => ?_
  rw [h _ (inRange_ofNat hal hlt (List.mem_range.1 hi))]

private theorem totalDivw_congr (hlaid : Laid secs) (h : ∀ p, Covers secs p → text' p = text p) :
    totalDivw text' secs = totalDivw text secs := by
  refine congrArg List.sum (List.map_congr_left fun s hs => ?_)
  exact countDivw_congr (hlaid.aligned s hs).1 (hlaid.ends s hs) fun p hp => h p ⟨s, hs, hp⟩

/-- The table grows by the number of divide words. -/
private theorem Rewritten.size_eq {addr : UInt32} {k : Nat} (h : Rewritten text t addr k text' t') (ht : WellFormed t)
    (hal : 4 ∣ addr.toNat) (hlt : addr.toNat + 4 * k < 2 ^ 32)
    (hnew : ∀ x ∈ entries t.a, ¬InRange addr (4 * k) x.addr) : t'.n = t.n + countDivw text addr k := by
  obtain ⟨word, hword⟩ : ∃ word : Nat → UInt32, word = fun i => .ofNat (addr.toNat + 4 * i) := ⟨_, rfl⟩
  obtain ⟨new, hnewDef⟩ : ∃ new : List Instr, new =
      ((List.range k).filter fun i => IsDivw (text (word i))).map fun i => ⟨text (word i), word i⟩ := ⟨_, rfl⟩
  have hval : ∀ i < k, (word i).toNat = addr.toNat + 4 * i := fun i hi => by
    rw [hword]
    exact UInt32.toNat_ofNat_of_lt' (by show _ < 2 ^ 32; omega)
  have hmemNew : ∀ x, x ∈ new ↔ InRange addr (4 * k) x.addr ∧ IsDivw (text x.addr) ∧ x.instr = text x.addr := by
    intro x
    rw [hnewDef, List.mem_map]
    constructor
    · rintro ⟨i, hi, rfl⟩
      rw [List.mem_filter, List.mem_range, decide_eq_true_eq] at hi
      refine ⟨?_, hi.2, rfl⟩
      rw [hword]
      exact inRange_ofNat hal hlt (by omega)
    · rintro ⟨⟨hdvd, hlo, hup⟩, hdivw, hinstr⟩
      have hi : (x.addr.toNat - addr.toNat) / 4 < k := by omega
      have hx : word ((x.addr.toNat - addr.toNat) / 4) = x.addr := by
        rw [← UInt32.toNat_inj, hval _ hi]
        omega
      refine ⟨(x.addr.toNat - addr.toNat) / 4, ?_, ?_⟩
      · rw [List.mem_filter, List.mem_range, hx, decide_eq_true_eq]
        exact ⟨hi, hdivw⟩
      · rw [hx, ← hinstr]
  have hnd : new.Nodup := by
    rw [hnewDef]
    refine (List.nodup_range.filter _).map_on fun i hi j hj heq => ?_
    rw [List.mem_filter, List.mem_range] at hi hj
    have := congrArg (UInt32.toNat ∘ Instr.addr) heq
    simp only [Function.comp_apply, hval i hi.1, hval j hj.1] at this
    omega
  have hperm : (entries t'.a).Perm (entries t.a ++ new) := by
    refine (List.perm_ext_iff_of_nodup (List.Nodup.of_map _ h.wellFormed.distinct)
      (List.nodup_append'.2 ⟨List.Nodup.of_map _ ht.distinct, hnd, fun x hx hx' => ?_⟩)).2 fun x => ?_
    · exact hnew x hx ((hmemNew x).1 hx').1
    · rw [h.mem_iff, List.mem_append, hmemNew]
  have hlen := hperm.length_eq
  rw [List.length_append, h.wellFormed.count, ht.count] at hlen
  rw [hlen, hnewDef, List.length_map, ← List.countP_eq_length_filter, hword]
  rfl

/-- What `rewrite_text` has done to the sections. -/
structure RewrittenAll (text : Text) (t : InstrTable) (secs : List Section) (text' : Text) (t' : InstrTable) :
    Prop where
  wellFormed : WellFormed t'
  text_eq : ∀ p, text' p = if Covers secs p ∧ instrField (text p) 21 10 = eoDivw then 0 else text p
  mem_iff : ∀ x, x ∈ entries t'.a ↔
    x ∈ entries t.a ∨ Covers secs x.addr ∧ IsDivw (text x.addr) ∧ x.instr = text x.addr

private theorem Laid.inRange_head {s : Section} (h : Laid (s :: secs)) {p : UInt32} :
    InRange s.1 (4 * (s.2.toNat / 4)) p ↔ InRange s.1 s.2.toNat p := by
  rw [Nat.mul_div_cancel' (h.aligned s (by simp)).2]

/-- The other sections are left alone. -/
private theorem Rewritten.text_other {s : Section} (h : Rewritten text t s.1 (s.2.toNat / 4) text' t')
    (hlaid : Laid (s :: secs)) {p : UInt32} (hp : Covers secs p) : text' p = text p := by
  rw [h.text_eq p, if_neg]
  rintro ⟨hin, -⟩
  exact hlaid.head_apart (hlaid.inRange_head.1 hin) hp

/-- The first section, and then the others. -/
private theorem RewrittenAll.cons {s : Section} {text₁ : Text} {t₁ : InstrTable} (hlaid : Laid (s :: secs))
    (hfirst : Rewritten text t s.1 (s.2.toNat / 4) text₁ t₁) (h : RewrittenAll text₁ t₁ secs text' t') :
    RewrittenAll text t (s :: secs) text' t' := by
  have hrange : ∀ p, InRange s.1 (4 * (s.2.toNat / 4)) p ↔ InRange s.1 s.2.toNat p := fun _ => hlaid.inRange_head
  have hother : ∀ p, Covers secs p → text₁ p = text p := fun _ hp => hfirst.text_other hlaid hp
  refine ⟨h.wellFormed, fun p => ?_, fun x => ?_⟩
  · rw [h.text_eq p]
    by_cases hp : Covers secs p
    · rw [hother p hp]
      exact if_congr (by rw [covers_cons]; tauto) rfl rfl
    · rw [if_neg fun hc => hp hc.1, hfirst.text_eq p]
      exact if_congr (by rw [covers_cons, hrange]; tauto) rfl rfl
  · rw [h.mem_iff, hfirst.mem_iff, hrange, covers_cons]
    by_cases hp : Covers secs x.addr
    · rw [hother _ hp]
      tauto
    · tauto

/-- The sections of a file are rewritten one after the other, unless memory runs out. -/
private theorem rewriteSections_spec (calloc : Nat → Bool) {k pos n : Nat} {l : List Shdr}
    (hl : shdrs file k pos = some l) (hlaid : Laid (codeSections l)) (ht : WellFormed t)
    (hnew : ∀ x ∈ entries t.a, ¬Covers (codeSections l) x.addr) :
    (∃ text' t', rewriteSections calloc file k pos text t n = .ok (n + totalDivw text (codeSections l), text', t') ∧
        RewrittenAll text t (codeSections l) text' t') ∨
      (∃ e, rewriteSections calloc file k pos text t n = .error e) ∧
        ((∃ bytes, calloc bytes = false) ∨ 2 ^ 27 < t.n + totalDivw text (codeSections l)) := by
  induction k generalizing pos l text t n with
  | zero =>
    cases hl
    refine Or.inl ⟨text, t, rfl, ht, fun p => ?_, fun x => ?_⟩
    · rw [if_neg]
      rintro ⟨⟨s, hs, -⟩, -⟩
      cases hs
    · refine ⟨Or.inl, fun hx => hx.resolve_right ?_⟩
      rintro ⟨⟨s, hs, -⟩, -⟩
      cases hs
  | succ k ih =>
    obtain ⟨shdr, hshdr, hl⟩ := Option.bind_eq_some_iff.1 hl
    obtain ⟨rest, hrest, hl⟩ := Option.bind_eq_some_iff.1 hl
    cases hl
    rw [rewriteSections, hshdr]
    by_cases hcode : shdr.Executable
    · have hcons : codeSections (shdr :: rest) = (shdr.addr, shdr.size) :: codeSections rest := by
        rw [codeSections, List.filter_cons_of_pos (by simpa using hcode)]
        rfl
      rw [hcons] at hlaid hnew ⊢
      have hmem : (shdr.addr, shdr.size) ∈ (shdr.addr, shdr.size) :: codeSections rest := List.mem_cons_self ..
      obtain ⟨hal, hsize⟩ : 4 ∣ shdr.addr.toNat ∧ 4 ∣ shdr.size.toNat := hlaid.aligned _ hmem
      have hends : shdr.addr.toNat + shdr.size.toNat < 2 ^ 32 := hlaid.ends _ hmem
      have hzero : ¬InRange shdr.addr shdr.size.toNat 0 := fun h0 => hlaid.nonzero (covers_cons.2 (Or.inl h0))
      have hfree : ∀ x ∈ t.a, ¬InRange shdr.addr shdr.size.toNat x.addr := fun x hx hin => by
        have hx0 : x.addr ≠ 0 := fun h0 => hzero (h0 ▸ hin)
        exact hnew x (mem_entries.2 ⟨hx, hx0⟩) (covers_cons.2 (Or.inl hin))
      have htotal : totalDivw text ((shdr.addr, shdr.size) :: codeSections rest) =
          countDivw text shdr.addr (shdr.size.toNat / 4) + totalDivw text (codeSections rest) := by
        simp [totalDivw]
      simp only [if_pos hcode]
      rcases rewriteInstr_spec calloc text ht hal hsize hends hzero hfree with
        ⟨text₁, t₁, hok, hfirst⟩ | ⟨⟨e, he⟩, hwhy⟩
      · have hsame : totalDivw text₁ (codeSections rest) = totalDivw text (codeSections rest) :=
          totalDivw_congr hlaid.tail fun p hp => hfirst.text_other hlaid hp
        have hgrown : t₁.n = t.n + countDivw text shdr.addr (shdr.size.toNat / 4) := by
          refine hfirst.size_eq ht hal (by omega) fun x hx hin => ?_
          exact hfree x (mem_entries.1 hx).1 (hlaid.inRange_head.1 hin)
        have hnew₁ : ∀ x ∈ entries t₁.a, ¬Covers (codeSections rest) x.addr := fun x hx hc => by
          rcases (hfirst.mem_iff x).1 hx with hx | ⟨hin, -⟩
          · exact hnew x hx (covers_cons.2 (Or.inr hc))
          · exact hlaid.head_apart (hlaid.inRange_head.1 hin) hc
        simp only [hok]
        rcases ih (n := n + countDivw text shdr.addr (shdr.size.toNat / 4)) hrest hlaid.tail hfirst.wellFormed
          hnew₁ with ⟨text', t', hok', hall⟩ | ⟨⟨e, he⟩, hwhy⟩
        · refine Or.inl ⟨text', t', ?_, hall.cons hlaid hfirst⟩
          rw [hok', hsame, htotal, Nat.add_assoc]
        · refine Or.inr ⟨⟨e, he⟩, hwhy.imp_right fun hb => ?_⟩
          rw [hsame, hgrown] at hb
          omega
      · simp only [he]
        exact Or.inr ⟨⟨_, rfl⟩, hwhy.imp_right fun hb => by omega⟩
    · have hskip : codeSections (shdr :: rest) = codeSections rest := by
        rw [codeSections, List.filter_cons_of_neg (by simpa using hcode)]
        rfl
      rw [hskip] at hlaid hnew ⊢
      simp only [if_neg hcode]
      exact ih hrest hlaid ht hnew

/-- A header that cannot be read ends the loop, if nothing before it does. -/
private theorem rewriteSections_none {k pos n : Nat} (hl : shdrs file k pos = none) :
    ∃ e, rewriteSections calloc file k pos text t n = .error e := by
  induction k generalizing pos text t n with
  | zero => cases hl
  | succ k ih =>
    rw [rewriteSections]
    cases hshdr : readShdr file pos with
    | none => exact ⟨_, rfl⟩
    | some shdr =>
      have hrest : shdrs file k (pos + sizeofShdr) = none := by
        rw [shdrs, hshdr] at hl
        exact Option.eq_none_iff_forall_ne_some.2 (by simpa using hl)
      simp only
      by_cases hcode : shdr.Executable
      · simp only [if_pos hcode]
        cases rewriteInstr calloc text shdr.addr shdr.size t with
        | error e => exact ⟨_, rfl⟩
        | ok r => exact ih hrest
      · simp only [if_neg hcode]
        exact ih hrest

/-- With a new table, `rewrite_text` rewrites the sections of instructions of the file if it can read all headers and
there is memory for at most 2^27 divide words. -/
theorem rewriteText_spec {secs : List Section} (hread : sections file = some secs) (hlaid : Laid secs)
    (ht : WellFormed t) (hn : t.n = 0) (hempty : ∀ x ∈ t.a, x.addr = 0) (hcalloc : ∀ bytes, calloc bytes = true)
    (hfew : totalDivw text secs ≤ 2 ^ 27) :
    ∃ text' t', rewriteText calloc (some file) text t = .ok (totalDivw text secs, text', t') ∧
      RewrittenAll text t secs text' t' := by
  obtain ⟨ehdr, hehdr, hread⟩ := Option.bind_eq_some_iff.1 hread
  split at hread
  · cases hread
  · next hoff =>
    obtain ⟨l, hl, hread⟩ := Option.bind_eq_some_iff.1 hread
    cases hread
    have hnew : ∀ x ∈ entries t.a, ¬Covers (codeSections l) x.addr := fun x hx =>
      absurd (hempty x (mem_entries.1 hx).1) (mem_entries.1 hx).2
    simp only [rewriteText, hehdr, if_neg hoff]
    rcases rewriteSections_spec calloc (n := 0) hl hlaid ht hnew with ⟨text', t', hok, hall⟩ | ⟨-, ⟨bytes, hb⟩ | hb⟩
    · rw [Nat.zero_add] at hok
      exact ⟨text', t', hok, hall⟩
    · rw [hcalloc] at hb
      cases hb
    · omega

/-- A file of which a header cannot be read is refused. -/
theorem rewriteText_none (hread : sections file = none) : ∃ e, rewriteText calloc (some file) text t = .error e := by
  cases hehdr : readEhdr file with
  | none => exact ⟨.cannotReadEhdr, by simp only [rewriteText, hehdr]⟩
  | some ehdr =>
    by_cases hoff : 2 ^ 31 ≤ ehdr.shoff.toNat
    · exact ⟨.cannotSeek, by simp only [rewriteText, hehdr, if_pos hoff]⟩
    · simp only [rewriteText, hehdr, if_neg hoff]
      apply rewriteSections_none
      rw [sections, hehdr, Option.bind_eq_bind, Option.bind_some, if_neg hoff] at hread
      exact Option.eq_none_iff_forall_ne_some.2 (by simpa using hread)

/-! ### The patched program -/

/-- Every section patched by `rewrite_text`. -/
theorem RewrittenAll.patchedFrom {A : UInt32 → Prop} (h : RewrittenAll text t secs text' t')
    (hempty : ∀ x ∈ t.a, x.addr = 0)
    (hA : ∀ p, A p → text p ≠ 0 ∧ (Covers secs p → instrField (text p) 21 10 = eoDivw → IsDivw (text p))) :
    PatchedFrom A text text' t' :=
  patchedFrom_of_lookup (fun _ _ => lookupInstr_new_iff h.wellFormed h.mem_iff hempty) h.text_eq hA

/-- The words in the table are the divide words of the sections. -/
theorem RewrittenAll.inTable_iff (h : RewrittenAll text t secs text' t') (hempty : ∀ x ∈ t.a, x.addr = 0) {p : UInt32} :
    inTable t' p ↔ Covers secs p ∧ IsDivw (text p) := by
  rw [inTable_eq_true_iff]
  constructor
  · rintro ⟨w, hw⟩
    obtain ⟨hcov, hdivw, -⟩ := (lookupInstr_new_iff h.wellFormed h.mem_iff hempty).1 hw
    exact ⟨hcov, hdivw⟩
  · rintro ⟨hcov, hdivw⟩
    exact ⟨_, (lookupInstr_new_iff h.wellFormed h.mem_iff hempty).2 ⟨hcov, hdivw, rfl⟩⟩

end Edaf35.Tracer
