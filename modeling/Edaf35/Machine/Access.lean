import Edaf35.Machine.Fault

/-!
# What an access does

An access brings its page into RAM (`fetch`) and then reads or writes the word (`serve`).  `Fetched` lists what
`fetch` can do: the page is resident, the frame taken is free, or the owner of the frame is evicted.  `victim` is the
page that an access evicts.
-/

namespace Edaf35.Machine

variable {ρ : Type} {P : Policy ρ} {s s' : Paging ρ} {v w : Nat} {a : Access}

/-- The virtual page of an access. -/
def Access.page (a : Access) : Nat := a.addr / pageSize

theorem Access.page_lt (h : a.InRange) : a.page < nPages := Nat.div_lt_of_lt_mul (by rwa [Nat.mul_comm])

/-- The state in which `translate` is called: `write_memory` counts a disc write before. -/
def Access.start (a : Access) (s : Paging ρ) : Paging ρ :=
  match a with
  | .read _ => s
  | .write _ _ => { s with numDiscWrites := s.numDiscWrites + 1 }

/-- The state in which the replacement function is called. -/
def countFault (s : Paging ρ) : Paging ρ := { s with numPagefault := s.numPagefault + 1 }

/-- The first part of `translate`. -/
def fetch (P : Policy ρ) (s : Paging ρ) (v : Nat) : Option (Paging ρ) :=
  if (s.pageTable v).inmemory then some s else pagefault P s v

/-- The second part of `translate`, after the page is in RAM. -/
def mark (s : Paging ρ) (v : Nat) (write : Bool) : Paging ρ :=
  let s := s.setEntry v fun e => { e with referenced := true }
  if write then s.setEntry v fun e => { e with modified := true } else s

/-- An access after its page is in RAM: the answer and the state. -/
def serve (s : Paging ρ) : Access → Option UInt32 × Paging ρ
  | .read addr =>
    (some ((mark s (addr / pageSize) false).memory
      ((s.pageTable (addr / pageSize)).page * pageSize + (addr &&& (pageSize - 1)))), mark s (addr / pageSize) false)
  | .write addr data =>
    (none, { mark s (addr / pageSize) true with
      memory := Function.update (mark s (addr / pageSize) true).memory
        ((s.pageTable (addr / pageSize)).page * pageSize + (addr &&& (pageSize - 1))) data })

theorem mark_page (s : Paging ρ) (v w : Nat) (write : Bool) :
    ((mark s v write).pageTable w).page = (s.pageTable w).page := by
  cases write <;> by_cases hw : w = v <;> simp [mark, setEntry_pageTable, hw]

def Access.isWrite : Access → Bool
  | .read _ => false
  | .write _ _ => true

theorem mark_entry (s : Paging ρ) (v w : Nat) (write : Bool) :
    (mark s v write).pageTable w = if w = v then
      { s.pageTable v with referenced := true, modified := write || (s.pageTable v).modified } else s.pageTable w := by
  cases write <;> by_cases hw : w = v <;> simp [mark, setEntry_pageTable, hw]

private theorem translate_eq (P : Policy ρ) (s : Paging ρ) (addr : Nat) (write : Bool) :
    translate P s addr write = (fetch P s (addr / pageSize)).map fun s =>
      ((s.pageTable (addr / pageSize)).page * pageSize + (addr &&& (pageSize - 1)),
        mark s (addr / pageSize) write) := by
  cases h : fetch P s (addr / pageSize) with
  | none =>
    unfold fetch at h
    simp only [translate, h, Option.map_none]
  | some s₁ =>
    unfold fetch at h
    rw [Option.map_some, ← mark_page s₁ (addr / pageSize) (addr / pageSize) write]
    simp only [translate, h]
    rfl

theorem access_eq (P : Policy ρ) (s : Paging ρ) (a : Access) :
    access P s a = (fetch P (a.start s) a.page).map fun s => serve s a := by
  cases a with
  | read addr =>
    rw [access, readMemory, translate_eq]
    change _ = (fetch P s (addr / pageSize)).map _
    cases fetch P s (addr / pageSize) <;> rfl
  | write addr data =>
    rw [access, writeMemory, translate_eq]
    change _ = (fetch P { s with numDiscWrites := s.numDiscWrites + 1 } (addr / pageSize)).map _
    cases fetch P { s with numDiscWrites := s.numDiscWrites + 1 } (addr / pageSize) <;> rfl

/-! ### What `serve` leaves alone -/

@[simp] theorem serve_coremap (s : Paging ρ) (a : Access) : (serve s a).2.coremap = s.coremap := by
  cases a <;> rfl

@[simp] theorem serve_count (s : Paging ρ) (a : Access) : (serve s a).2.count = s.count := by
  cases a <;> rfl

@[simp] theorem serve_static (s : Paging ρ) (a : Access) : (serve s a).2.static = s.static := by
  cases a <;> rfl

private theorem serve_pageTable (s : Paging ρ) (a : Access) :
    (serve s a).2.pageTable = (mark s a.page a.isWrite).pageTable := by
  cases a <;> rfl

@[simp] theorem serve_inmemory (s : Paging ρ) (a : Access) (w : Nat) :
    ((serve s a).2.pageTable w).inmemory = (s.pageTable w).inmemory := by
  rw [serve_pageTable, mark_entry]
  split
  · next hw => rw [hw]
  · rfl

@[simp] theorem serve_ondisk (s : Paging ρ) (a : Access) (w : Nat) :
    ((serve s a).2.pageTable w).ondisk = (s.pageTable w).ondisk := by
  rw [serve_pageTable, mark_entry]
  split
  · next hw => rw [hw]
  · rfl

theorem serve_referenced (s : Paging ρ) (a : Access) (w : Nat) :
    ((serve s a).2.pageTable w).referenced = if w = a.page then true else (s.pageTable w).referenced := by
  rw [serve_pageTable, mark_entry]
  split <;> rfl

/-! ### What `fetch` can do -/

/-- The page that an access evicts. -/
def victim (P : Policy ρ) (s : Paging ρ) (a : Access) : Option Nat :=
  let s := a.start s
  if (s.pageTable a.page).inmemory then none
  else ((P.replace (countFault s)).2.coremap (P.replace (countFault s)).1).owner

theorem start_pageTable (a : Access) (s : Paging ρ) : (a.start s).pageTable = s.pageTable := by
  cases a <;> rfl

theorem victim_of_hit (hm : (s.pageTable a.page).inmemory = true) : victim P s a = none := by
  rw [← start_pageTable a s] at hm
  exact if_pos hm

theorem victim_of_fault {f : Nat} {s₁ : Paging ρ} (hm : (s.pageTable a.page).inmemory = false)
    (hr : P.replace (countFault (a.start s)) = (f, s₁)) : victim P s a = (s₁.coremap f).owner := by
  rw [← start_pageTable a s] at hm
  unfold victim
  rw [if_neg (by rw [hm]; decide), hr]

/-- What bringing page `v` into RAM does when it does not fail. -/
inductive Fetched (P : Policy ρ) (s : Paging ρ) (v : Nat) : Paging ρ → Prop
  | hit : (s.pageTable v).inmemory = true → Fetched P s v s
  | free {f : Nat} {s₁ : Paging ρ} : (s.pageTable v).inmemory = false → P.replace (countFault s) = (f, s₁) →
      (s₁.coremap f).owner = none → Fetched P s v (install s₁ v f)
  | evict {f w : Nat} {s₁ s₂ : Paging ρ} : (s.pageTable v).inmemory = false → P.replace (countFault s) = (f, s₁) →
      (s₁.coremap f).owner = some w → Machine.evict s₁ f w = some s₂ → Fetched P s v (install s₂ v f)

private theorem fetch_of_fault (hm : (s.pageTable v).inmemory = false) :
    fetch P s v = (takePhysPage P (countFault s)).map fun taken => install taken.2 v taken.1 := by
  have hfault : pagefault P s v = (takePhysPage P (countFault s)).map fun taken => install taken.2 v taken.1 := by
    cases h : takePhysPage P (countFault s) with
    | none =>
      unfold countFault at h
      simp only [pagefault, h, Option.map_none]
    | some taken =>
      unfold countFault at h
      simp only [pagefault, h, Option.map_some]
  rw [fetch, if_neg (by rw [hm]; decide), hfault]

private theorem takePhysPage_free {f : Nat} {s₁ : Paging ρ} (hr : P.replace s = (f, s₁))
    (ho : (s₁.coremap f).owner = none) : takePhysPage P s = some (f, s₁) := by
  simp only [takePhysPage, hr, ho]

private theorem takePhysPage_owned {f w : Nat} {s₁ : Paging ρ} (hr : P.replace s = (f, s₁))
    (ho : (s₁.coremap f).owner = some w) :
    takePhysPage P s = (Machine.evict s₁ f w).map fun s₂ => (f, s₂) := by
  simp only [takePhysPage, hr, ho]
  cases Machine.evict s₁ f w with
  | none => rfl
  | some s₂ => rfl

theorem fetch_eq_some (h : fetch P s v = some s') : Fetched P s v s' := by
  cases hm : (s.pageTable v).inmemory with
  | true =>
    unfold fetch at h
    rw [if_pos hm] at h
    cases h
    exact .hit hm
  | false =>
    rw [fetch_of_fault hm] at h
    obtain ⟨taken, htaken, rfl⟩ := Option.map_eq_some_iff.1 h
    obtain ⟨⟨f, s₁⟩, hr⟩ : ∃ r, P.replace (countFault s) = r := ⟨_, rfl⟩
    cases ho : (s₁.coremap f).owner with
    | none =>
      rw [takePhysPage_free hr ho] at htaken
      cases htaken
      exact .free hm hr ho
    | some w =>
      rw [takePhysPage_owned hr ho] at htaken
      obtain ⟨s₂, he, rfl⟩ := Option.map_eq_some_iff.1 htaken
      exact .evict hm hr ho he

/-- `fetch` fails when a page without a swap slot is to be evicted and no slot is left. -/
theorem fetch_eq_none (h : fetch P s v = none) :
    (s.pageTable v).inmemory = false ∧ ∃ f w s₁, P.replace (countFault s) = (f, s₁) ∧
      (s₁.coremap f).owner = some w ∧ (s₁.pageTable w).ondisk = false ∧ swapPages ≤ s₁.count := by
  cases hm : (s.pageTable v).inmemory with
  | true =>
    unfold fetch at h
    rw [if_pos hm] at h
    cases h
  | false =>
    rw [fetch_of_fault hm, Option.map_eq_none_iff] at h
    obtain ⟨⟨f, s₁⟩, hr⟩ : ∃ r, P.replace (countFault s) = r := ⟨_, rfl⟩
    cases ho : (s₁.coremap f).owner with
    | none =>
      rw [takePhysPage_free hr ho] at h
      cases h
    | some w =>
      rw [takePhysPage_owned hr ho, Option.map_eq_none_iff] at h
      unfold Machine.evict at h
      by_cases hd : (s₁.pageTable w).ondisk = true
      · simp only [hd, if_true] at h
        cases h
      · simp only [hd, Bool.false_eq_true, if_false, newSwapPage] at h
        by_cases hc : s₁.count < swapPages
        · simp only [hc, if_true] at h
          cases h
        · exact ⟨rfl, f, w, s₁, hr, ho, by simpa using hd, by omega⟩

end Edaf35.Machine
