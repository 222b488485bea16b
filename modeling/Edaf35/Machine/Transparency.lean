import Edaf35.Machine.Fault
import Edaf35.Machine.Replace

/-!
# Paging is transparent

`lastWritten as addr` is what a flat memory would hold: the word of the last write to `addr` among the calls `as`.
After any run the contents of every page agree with it, so a read of an address that was written returns the word
written last, whatever the replacement function does.
-/

namespace Edaf35.Machine

variable {ρ : Type}

/-- The word of the last write to `addr` among the calls `as`; `none` when there is none. -/
def lastWritten (as : List Access) (addr : Nat) : Option UInt32 :=
  as.foldl (fun w a => match a with
    | .read _ => w
    | .write addr' data => if addr' = addr then some data else w) none

theorem lastWritten_read (as : List Access) (a addr : Nat) :
    lastWritten (as ++ [.read a]) addr = lastWritten as addr := by
  simp [lastWritten, List.foldl_append]

theorem lastWritten_write (as : List Access) (a addr : Nat) (data : UInt32) :
    lastWritten (as ++ [.write a data]) addr = if a = addr then some data else lastWritten as addr := by
  simp [lastWritten, List.foldl_append]

/-- The paged memory holds, for every address written, the word written last. -/
def Agrees (as : List Access) (s : Paging ρ) : Prop :=
  ∀ addr w, addr < nPages * pageSize → lastWritten as addr = some w →
    contents s (addr / pageSize) (addr % pageSize) = some w

theorem page_lt {addr : Nat} (h : addr < nPages * pageSize) : addr / pageSize < nPages :=
  Nat.div_lt_of_lt_mul (by rwa [Nat.mul_comm])

theorem offset_lt (addr : Nat) : addr % pageSize < pageSize := Nat.mod_lt _ (by decide)

private theorem Agrees.keeps {as : List Access} {s s' : Paging ρ} (h : Agrees as s) (hk : Keeps s s') : Agrees as s' :=
  fun addr w ha hw => hk _ _ w (page_lt ha) (offset_lt addr) (h addr w ha hw)

/-! ### Storing a word in a resident page -/

section Store

variable {s : Paging ρ} {v off : Nat} {data : UInt32}

/-- The state after `memory[phys_addr] = data`. -/
def stored (s : Paging ρ) (v off : Nat) (data : UInt32) : Paging ρ :=
  { s with memory := Function.update s.memory ((s.pageTable v).page * pageSize + off) data }

theorem word_inj {p q j k : Nat} (hj : j < pageSize) (hk : k < pageSize)
    (h : p * pageSize + j = q * pageSize + k) : p = q ∧ j = k := by
  simp only [pageSize_eq] at *; omega

/-- Two resident pages in one frame are the same page. -/
theorem frame_inj (hi : RepInv none s) {w : Nat} (hv : v < nPages) (hw : w < nPages)
    (hmv : (s.pageTable v).inmemory = true) (hmw : (s.pageTable w).inmemory = true)
    (hp : (s.pageTable w).page = (s.pageTable v).page) : w = v := by
  have hf := (hi.frame_lt v hv hmv).1
  have h₁ := (hi.owner_iff _ v hf (by simp)).2 ⟨hv, hmv, rfl⟩
  have h₂ := (hi.owner_iff _ w hf (by simp)).2 ⟨hw, hmw, hp⟩
  rw [h₁] at h₂
  exact (Option.some.inj h₂).symm

theorem stored_contents (hi : RepInv none s) (hv : v < nPages) (hoff : off < pageSize)
    (hm : (s.pageTable v).inmemory = true) {w k : Nat} (hw : w < nPages) (hk : k < pageSize) :
    contents (stored s v off data) w k = if w = v ∧ k = off then some data else contents s w k := by
  by_cases hmw : (s.pageTable w).inmemory = true
  · simp only [contents, stored, hmw, if_true, Function.update_apply]
    by_cases he : (s.pageTable w).page * pageSize + k = (s.pageTable v).page * pageSize + off
    · obtain ⟨hp, hko⟩ := word_inj hk hoff he
      rw [if_pos he, if_pos ⟨frame_inj hi hv hw hm hmw hp, hko⟩]
    · rw [if_neg he, if_neg]
      rintro ⟨rfl, rfl⟩; exact he rfl
  · have hne : ¬(w = v ∧ k = off) := by
      rintro ⟨rfl, -⟩; exact hmw hm
    rw [if_neg hne]
    simp only [contents, stored, hmw, Bool.false_eq_true, if_false]
    rfl

private theorem stored_repInv (hi : RepInv none s) (hv : v < nPages) (hoff : off < pageSize)
    (hm : (s.pageTable v).inmemory = true) (hmod : (s.pageTable v).modified = true) :
    RepInv none (stored s v off data) := by
  refine ⟨hi.owner_iff, hi.frame_lt, hi.count_le, hi.slot_lt, hi.slot_inj, ?_⟩
  intro w hw hmw hd hmodw k hk
  have hne : w ≠ v := by
    rintro rfl
    exact absurd (hmod.symm.trans hmodw) (by decide)
  show Function.update s.memory _ data _ = _
  rw [Function.update_apply, if_neg]
  · exact hi.clean w hw hmw hd hmodw k hk
  · intro he
    exact hne (frame_inj hi hv hw hm hmw (word_inj hk hoff he).1)

end Store

/-! ### One access, and whole runs -/

theorem readMemory_spec {P : Policy ρ} {s s' : Paging ρ} {addr : Nat} {w : UInt32} (hi : RepInv none s)
    (ha : addr < nPages * pageSize) (h : readMemory P s addr = some (w, s')) :
    RepInv none s' ∧ Keeps s s' ∧ contents s' (addr / pageSize) (addr % pageSize) = some w := by
  unfold readMemory at h
  split at h
  · cases h
  · rename_i phys s₁ ht
    cases h
    obtain ⟨htr, rfl⟩ := translate_spec hi ha ht
    exact ⟨htr.repInv, htr.keeps, by simp [contents, htr.inmemory]⟩

theorem writeMemory_spec {P : Policy ρ} {s s' : Paging ρ} {addr : Nat} {data : UInt32} (hi : RepInv none s)
    (ha : addr < nPages * pageSize) (h : writeMemory P s addr data = some s') :
    RepInv none s' ∧ ∃ s₁, Keeps s s₁ ∧ ∀ v k, v < nPages → k < pageSize →
      contents s' v k = if v = addr / pageSize ∧ k = addr % pageSize then some data else contents s₁ v k := by
  have hsame : SameStore s { s with numDiscWrites := s.numDiscWrites + 1 } :=
    ⟨rfl, rfl, rfl, rfl, fun _ => rfl, fun _ => rfl, fun _ => rfl, fun _ => rfl⟩
  unfold writeMemory at h
  simp only at h
  split at h
  · cases h
  · rename_i phys s₁ ht
    cases h
    obtain ⟨htr, rfl⟩ := translate_spec (hsame.repInv hi) ha ht
    exact ⟨stored_repInv htr.repInv (page_lt ha) (offset_lt addr) htr.inmemory (htr.modified rfl), s₁,
      hsame.keeps.trans htr.keeps,
      fun v k hv hk => stored_contents htr.repInv (page_lt ha) (offset_lt addr) htr.inmemory hv hk⟩

/-- One call keeps the invariant and the agreement with the flat memory, and a read answers from it. -/
theorem access_agrees {P : Policy ρ} {as : List Access} {s s' : Paging ρ} {a : Access} {b : Option UInt32}
    (hi : RepInv none s) (hag : Agrees as s) (ha : a.InRange) (h : access P s a = some (b, s')) :
    (RepInv none s' ∧ Agrees (as ++ [a]) s') ∧
      ∀ addr w, a = .read addr → lastWritten as addr = some w → b = some w := by
  cases a with
  | read addr =>
    simp only [access, Option.map_eq_some_iff, Prod.mk.injEq] at h
    obtain ⟨⟨w, s₁⟩, hr, rfl, rfl⟩ := h
    obtain ⟨hi₁, hk, hc⟩ := readMemory_spec hi ha hr
    refine ⟨⟨hi₁, fun x y hx hy => ?_⟩, ?_⟩
    · rw [lastWritten_read] at hy
      exact hag.keeps hk x y hx hy
    · intro addr' w' he hw'
      cases he
      rw [← hc]
      exact hag.keeps hk addr w' ha hw'
  | write addr data =>
    simp only [access, Option.map_eq_some_iff, Prod.mk.injEq] at h
    obtain ⟨s₁, hw, rfl, rfl⟩ := h
    change addr < nPages * pageSize at ha
    obtain ⟨hi₁, s₀, hk, hc⟩ := writeMemory_spec hi ha hw
    refine ⟨⟨hi₁, fun x y hx hy => ?_⟩, fun _ _ he => by cases he⟩
    rw [lastWritten_write] at hy
    rw [hc _ _ (page_lt hx) (offset_lt x)]
    by_cases he : addr = x
    · subst he
      rw [if_pos rfl] at hy
      rw [if_pos ⟨rfl, rfl⟩]; exact hy
    · rw [if_neg he] at hy
      rw [if_neg, hag.keeps hk x y hx hy]
      rintro ⟨h₁, h₂⟩
      exact he (by rw [← Nat.div_add_mod addr pageSize, ← Nat.div_add_mod x pageSize, h₁, h₂])

private theorem agrees_initial (r : ρ) : RepInv none (initial r) ∧ Agrees [] (initial r) :=
  ⟨repInv_initial r, fun _ _ _ h => by simp [lastWritten] at h⟩

/-- The invariant and the agreement with the flat memory hold after every run. -/
theorem run_agrees {P : Policy ρ} {r : ρ} {as : List Access} {ws : List (Option UInt32)} {s : Paging ρ}
    (hin : ∀ a ∈ as, a.InRange) (hrun : run (access P) (initial r) as = some (ws, s)) : RepInv none s ∧ Agrees as s :=
  (run_history (I := fun as s => RepInv none s ∧ Agrees as s) (Q := fun _ _ _ => True)
    (fun _ _ _ _ _ hI ha hs => ⟨(access_agrees hI.1 hI.2 ha hs).1, trivial⟩) (agrees_initial r) hin hrun).1

/-- In every run of reads and writes from the initial state, under every replacement function, a read of an address
that was written before returns the word written to it last.  A run that a failed assertion stops is covered up to
that point, as the run of the calls made before. -/
theorem read_eq_lastWritten (P : Policy ρ) (r : ρ) (as : List Access) (hin : ∀ a ∈ as, a.InRange)
    {ws : List (Option UInt32)} {s : Paging ρ} (hrun : run (access P) (initial r) as = some (ws, s))
    {i addr : Nat} {w : UInt32} (hread : as[i]? = some (.read addr))
    (hlast : lastWritten (as.take i) addr = some w) : ws[i]? = some (some w) := by
  obtain ⟨-, hQ⟩ := run_history (I := fun as s => RepInv none s ∧ Agrees as s)
    (Q := fun as a b => ∀ addr w, a = .read addr → lastWritten as addr = some w → b = some w)
    (fun _ _ _ _ _ hI ha hs => access_agrees hI.1 hI.2 ha hs) (agrees_initial r) hin hrun
  have hlen := run_length hrun
  have hlt : i < ws.length := by
    rw [hlen]; exact (List.getElem?_eq_some_iff.1 hread).1
  have hb : ws[i]? = some ws[i] := List.getElem?_eq_getElem hlt
  rw [hb, hQ i _ _ hread hb addr w rfl hlast]

/-- Nine pages are written, so that the first one is evicted, and the first one is read back. -/
theorem read_eq_lastWritten_evicted :
    ∃ ws s, run (access fifo) (initial 0)
        ((List.range 9).map (fun v => .write (4 * v + 1) (7 + v.toUInt32)) ++ [.read 1]) = some (ws, s) ∧
      ws[9]? = some (some 7) := by
  have hsome : (run (access fifo) (initial 0)
      ((List.range 9).map (fun v => .write (4 * v + 1) (7 + v.toUInt32)) ++ [.read 1])).isSome = true := by
    decide
  obtain ⟨⟨ws, s⟩, h⟩ := Option.isSome_iff_exists.1 hsome
  exact ⟨ws, s, h, read_eq_lastWritten fifo 0 _ (by decide) h (i := 9) rfl rfl⟩

end Edaf35.Machine
