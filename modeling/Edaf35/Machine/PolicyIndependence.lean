import Edaf35.Machine.FifoQueue
import Edaf35.Machine.SecondChanceQueue

/-!
# The same answers under both policies

`pagefault` leaves the words of the frame in place when the new page is not on disk, so a word that was never written
reads as whatever the frame held.  Both policies take the free frames first, whose words are zero: a page first
accessed while a frame is free reads as zeros until it is written, and so do the words of such a page under any
policy of the kind (`FreeFirst`).
-/

namespace Edaf35.Machine

variable {ρ : Type} {P : Policy ρ} {s s' : Paging ρ} {v w : Nat} {a : Access} {as : List Access}

/-! ### The contents after an access -/

private theorem Fetched.keeps (hi : RepInv none s) (h : Fetched P s v s') : Keeps s s' := by
  cases h with
  | hit => exact fun _ _ _ _ _ hc => hc
  | @free f s₁ hm hr ho =>
    obtain ⟨hf, hsame⟩ := replace_spec hr
    rw [← hsame.inmemory] at hm
    exact hsame.keeps.trans ((install_spec s₁ hf).keeps (repInv_of_free (hsame.repInv hi) hf ho) hm)
  | @evict f w s₁ s₂ hm hr ho he =>
    obtain ⟨hf, hsame⟩ := replace_spec hr
    have hi₁ := hsame.repInv hi
    obtain ⟨sl, hev⟩ := evict_spec hi₁ hf ho he
    have hne : v ≠ w := by
      rintro rfl
      rw [← hsame.inmemory, ((hi₁.owner_iff f v hf (by simp)).1 ho).2.1] at hm
      cases hm
    have hm₂ : (s₂.pageTable v).inmemory = false := by rw [hev.other v hne, hsame.inmemory]; exact hm
    have hevict : Keeps s₁ s₂ := fun x k y hx hk hc => by rw [hev.contents_eq hi₁ hf ho hx hk]; exact hc
    exact (hsame.keeps.trans hevict).trans ((install_spec s₂ hf).keeps (hev.repInv hi₁ hf ho) hm₂)

theorem Fetched.inmemory (h : Fetched P s v s') : (s'.pageTable v).inmemory = true := by
  cases h with
  | hit hm => exact hm
  | @free f s₁ hm hr ho => rw [(install_spec s₁ (replace_spec hr).1).entry]
  | @evict f w s₁ s₂ hm hr ho he => rw [(install_spec s₂ (replace_spec hr).1).entry]

private theorem mark_contents (s : Paging ρ) (v : Nat) (write : Bool) (w k : Nat) :
    contents (mark s v write) w k = contents s w k := by
  have hpage := mark_page s v w write
  have hentry := mark_entry s v w write
  have hmemory : (mark s v write).memory = s.memory := by cases write <;> rfl
  have hswap : (mark s v write).swap = s.swap := by cases write <;> rfl
  have hflags : ((mark s v write).pageTable w).inmemory = (s.pageTable w).inmemory ∧
      ((mark s v write).pageTable w).ondisk = (s.pageTable w).ondisk := by
    rw [hentry]
    split
    · next hw => rw [hw]; exact ⟨rfl, rfl⟩
    · exact ⟨rfl, rfl⟩
  rw [contents, contents, hpage, hmemory, hswap, hflags.1, hflags.2]

private theorem mark_repInv (hi : RepInv none s) (v : Nat) (write : Bool) : RepInv none (mark s v write) := by
  have hi₁ := (sameStore_setReferenced s v true).repInv hi
  cases write with
  | false => exact hi₁
  | true => exact setModified_repInv hi₁ v

/-- Serving an access changes no word but the one that it writes. -/
private theorem serve_contents (hi : RepInv none s) (ha : a.InRange) (hm : (s.pageTable a.page).inmemory = true)
    {addr : Nat} (hin : addr < nPages * pageSize) (hne : ∀ data, a ≠ .write addr data) :
    contents (serve s a).2 (addr / pageSize) (addr % pageSize) = contents s (addr / pageSize) (addr % pageSize) := by
  cases a with
  | read addr' => exact mark_contents s _ false _ _
  | write addr' data =>
    have hv : addr' / pageSize < nPages := Access.page_lt ha
    have hm₁ : ((mark s (addr' / pageSize) true).pageTable (addr' / pageSize)).inmemory = true := by
      rw [mark_entry, if_pos rfl]
      exact hm
    have hserve : (serve s (.write addr' data)).2 =
        stored (mark s (addr' / pageSize) true) (addr' / pageSize) (addr' % pageSize) data := by
      rw [serve, stored, mark_page, and_offset]
    have hw : addr / pageSize < nPages := Access.page_lt (a := .read addr) hin
    have haddr : ¬(addr / pageSize = addr' / pageSize ∧ addr % pageSize = addr' % pageSize) := by
      rintro ⟨h₁, h₂⟩
      apply hne data
      rw [← Nat.div_add_mod addr pageSize, ← Nat.div_add_mod addr' pageSize, h₁, h₂]
    rw [hserve, stored_contents (mark_repInv hi _ true) hv (offset_lt addr') hm₁ hw (offset_lt addr), if_neg haddr,
      mark_contents]

/-! ### Frames that were never used -/

/-- The words of the free frames are zero. -/
def FreeZero (s : Paging ρ) : Prop :=
  ∀ f k, f < ramPages → (s.coremap f).owner = none → k < pageSize → s.memory (f * pageSize + k) = 0

private theorem SameStore.freeZero (h : SameStore s s') (hz : FreeZero s) : FreeZero s' := by
  intro f k hf ho hk
  rw [h.coremap] at ho
  rw [h.memory]
  exact hz f k hf ho hk

private theorem Installed.freeZero {f : Nat} (h : Installed s v f s') (hz : FreeZero s) : FreeZero s' := by
  intro g k hg ho hk
  have hgf : g ≠ f := by
    rintro rfl
    rw [h.owner] at ho
    cases ho
  rw [h.core g hgf] at ho
  rw [h.memory g k hgf hk]
  exact hz g k hg ho hk

private theorem Fetched.freeZero (hi : RepInv none s) (hz : FreeZero s) (h : Fetched P s v s') : FreeZero s' := by
  cases h with
  | hit => exact hz
  | @free f s₁ hm hr ho =>
    obtain ⟨hf, hsame⟩ := replace_spec hr
    exact (install_spec s₁ hf).freeZero (hsame.freeZero hz)
  | @evict f w s₁ s₂ hm hr ho he =>
    obtain ⟨hf, hsame⟩ := replace_spec hr
    obtain ⟨sl, hev⟩ := evict_spec (hsame.repInv hi) hf ho he
    have hz₂ : FreeZero s₂ := by
      intro g k hg hog hk
      rw [hev.coremap] at hog
      rw [hev.memory]
      exact hsame.freeZero hz g k hg hog hk
    exact (install_spec s₂ hf).freeZero hz₂

/-- A write goes to a frame that has an owner. -/
private theorem serve_freeZero (hi : RepInv none s) (ha : a.InRange) (hm : (s.pageTable a.page).inmemory = true)
    (hz : FreeZero s) : FreeZero (serve s a).2 := by
  intro f k hf ho hk
  rw [serve_coremap] at ho
  cases a with
  | read addr => exact hz f k hf ho hk
  | write addr data =>
    have hne : f * pageSize + k ≠ (s.pageTable (addr / pageSize)).page * pageSize + (addr &&& (pageSize - 1)) := by
      intro he
      rw [and_offset] at he
      obtain ⟨rfl, -⟩ := word_inj hk (offset_lt addr) he
      rw [(hi.owner_iff _ (addr / pageSize) hf (by simp)).2 ⟨Access.page_lt ha, hm, rfl⟩] at ho
      cases ho
    show Function.update _ _ _ _ = _
    rw [Function.update_apply, if_neg hne]
    exact hz f k hf ho hk

/-- A page never seen before that gets a free frame reads as zeros. -/
private theorem Fetched.fresh (hz : FreeZero s) (hseen : ¬Seen s v)
    (hfree : ∀ f s₁, P.replace (countFault s) = (f, s₁) → (s₁.coremap f).owner = none) (h : Fetched P s v s') {k : Nat}
    (hk : k < pageSize) : contents s' v k = some 0 := by
  cases h with
  | hit hm => exact absurd (Or.inl hm) hseen
  | @free f s₁ hm hr ho =>
    obtain ⟨hf, hsame⟩ := replace_spec hr
    have hd : (s₁.pageTable v).ondisk = false := by
      rw [hsame.ondisk]
      exact Bool.eq_false_iff.2 fun hd => hseen (Or.inr hd)
    have hmemory : (install s₁ v f).memory = s₁.memory := by
      unfold install
      simp [hd]
    rw [contents, (install_spec s₁ hf).entry, if_pos rfl, hmemory, hsame.freeZero hz f k hf ho hk]
  | @evict f w s₁ s₂ hm hr ho he =>
    rw [hfree f s₁ hr] at ho
    cases ho

/-! ### Policies that take the free frames first -/

/-- No page is evicted while a frame is free. -/
def FreeFirst (P : Policy ρ) (r : ρ) : Prop :=
  ∀ {as ws s a b s'}, (∀ x ∈ as, x.InRange) → a.InRange → run (access P) (initial r) as = some (ws, s) →
    access P s a = some (b, s') → victim P s a ≠ none → ∀ f, f < ramPages → (s.coremap f).owner ≠ none

private theorem freeFirst_fifo : FreeFirst fifo 0 := by
  intro as ws s a b s' hin ha hrun hs hvictim f hf ho
  obtain ⟨hi, q, hq⟩ := run_invariant (I := fun s => RepInv none s ∧ ∃ q, FifoHolds s q)
    (fun s a b s' hI ha hs => ⟨access_repInv hI.1 ha hs, _, (hI.2.choose_spec.step hI.1 ha hs).2⟩)
    ⟨repInv_initial 0, [], fifoHolds_initial⟩ hin hrun
  have hfull : q.length = ramPages := by
    rw [(hq.step hi ha hs).1, fifoRefer] at hvictim
    split at hvictim
    · exact absurd rfl hvictim
    split at hvictim
    · exact absurd rfl hvictim
    have := hq.length_le
    omega
  have hmem : none ∈ fifoFrames s := (mem_turn (s.static + 1 : Hand).isLt).2 ⟨f, hf, ho⟩
  rw [hq.frames, hfull] at hmem
  simp at hmem

private theorem freeFirst_secondChance : FreeFirst secondChance 0 := by
  intro as ws s a b s' hin ha hrun hs hvictim f hf ho
  obtain ⟨hi, c, hc⟩ := run_invariant (I := fun s => RepInv none s ∧ ∃ c, Holds s c)
    (fun s a b s' hI ha hs => ⟨access_repInv hI.1 ha hs, _, (hI.2.choose_spec.inPlace hI.1 ha hs).2⟩)
    ⟨repInv_initial 0, [], holds_initial⟩ hin hrun
  have hfull : c.length = ramPages := by
    rw [(hc.inPlace hi ha hs).1] at hvictim
    unfold SecondChance.referInPlace at hvictim
    split at hvictim
    · exact absurd rfl hvictim
    split at hvictim
    · exact absurd (by split <;> rfl) hvictim
    have := hc.length_le
    omega
  have hmem : none ∈ framesOf s := (mem_turn s.static.isLt).2 ⟨f, hf, by rw [ho]; rfl⟩
  rw [hc.frames, layout_full hfull] at hmem
  simp at hmem

/-- The page was first accessed while fewer than `ramPages` pages had been. -/
def Early (as : List Access) (v : Nat) : Prop :=
  ∃ l a l', as = l ++ a :: l' ∧ a.page = v ∧ (touched l).card < ramPages

private theorem early_append : Early (as ++ [a]) v ↔ Early as v ∨ (a.page = v ∧ (touched as).card < ramPages) := by
  constructor
  · rintro ⟨l, a', l', he, hp, hc⟩
    rcases List.eq_nil_or_concat l' with rfl | ⟨l', x, rfl⟩
    · obtain ⟨rfl, rfl⟩ : as = l ∧ a = a' := by simpa using List.append_inj' he rfl
      exact Or.inr ⟨hp, hc⟩
    · obtain ⟨rfl, -⟩ : as = l ++ a' :: l' ∧ a = x := by
        have he : as ++ [a] = (l ++ a' :: l') ++ [x] := by simpa using he
        simpa using List.append_inj' he rfl
      exact Or.inl ⟨l, a', l', rfl, hp, hc⟩
  · rintro (⟨l, a', l', rfl, hp, hc⟩ | ⟨hp, hc⟩)
    · exact ⟨l, a', l' ++ [a], by simp, hp, hc⟩
    · exact ⟨as, a, [], rfl, hp, hc⟩

/-- A page accessed before, when fewer than `ramPages` pages have been accessed by now. -/
private theorem early_of_mem (hv : v ∈ touched as) (hcard : (touched as).card < ramPages) : Early as v := by
  obtain ⟨a, ha, hp⟩ := mem_touched.1 hv
  obtain ⟨l, l', rfl⟩ := List.append_of_mem ha
  refine ⟨l, a, l', rfl, hp, Nat.lt_of_le_of_lt (Finset.card_le_card fun x hx => ?_) hcard⟩
  obtain ⟨y, hy, hyx⟩ := mem_touched.1 hx
  exact mem_touched.2 ⟨y, List.mem_append_left _ hy, hyx⟩

/-- While fewer than `ramPages` pages have been accessed, a frame is free. -/
private theorem exists_free (hi : RepInv none s) (hseen : ∀ v, Seen s v ↔ v ∈ touched as)
    (hcard : (touched as).card < ramPages) : ∃ f, f < ramPages ∧ (s.coremap f).owner = none := by
  by_contra hall
  have howner : ∀ f, f < ramPages → ∃ v, (s.coremap f).owner = some v := by
    intro f hf
    exact Option.ne_none_iff_exists'.1 fun ho => hall ⟨f, hf, ho⟩
  have hle : (Finset.range ramPages).card ≤ (touched as).card := by
    refine Finset.card_le_card_of_injOn (fun f => ((s.coremap f).owner).getD 0) ?_ ?_
    · intro f hf
      obtain ⟨v, hv⟩ := howner f (Finset.mem_range.1 hf)
      have hown := (hi.owner_iff f v (Finset.mem_range.1 hf) (by simp)).1 hv
      show ((s.coremap f).owner).getD 0 ∈ touched as
      rw [hv]
      exact (hseen v).1 (Or.inl hown.2.1)
    · intro f hf g hg he
      have hf := Finset.mem_range.1 hf
      have hg := Finset.mem_range.1 hg
      obtain ⟨v, hv⟩ := howner f hf
      obtain ⟨w, hw⟩ := howner g hg
      simp only [hv, hw, Option.getD_some] at he
      subst he
      exact ((hi.owner_iff f v hf (by simp)).1 hv).2.2.symm.trans ((hi.owner_iff g v hg (by simp)).1 hw).2.2
  rw [Finset.card_range] at hle
  omega

/-- After the calls `as` the early pages hold zero where they were not written. -/
structure Zeroed (as : List Access) (s : Paging ρ) : Prop where
  freeZero : FreeZero s
  early : ∀ addr, addr < nPages * pageSize → Early as (addr / pageSize) → lastWritten as addr = none →
    contents s (addr / pageSize) (addr % pageSize) = some 0

private theorem zeroed_initial (r : ρ) : Zeroed [] (initial r) := by
  refine ⟨fun _ _ _ _ _ => rfl, ?_⟩
  rintro addr - ⟨l, a, l', he, -⟩
  simp at he

private theorem lastWritten_eq_none {addr : Nat} (h : lastWritten (as ++ [a]) addr = none) :
    lastWritten as addr = none ∧ ∀ data, a ≠ .write addr data := by
  cases a with
  | read addr' => exact ⟨by rwa [lastWritten_read] at h, fun data he => by cases he⟩
  | write addr' data =>
    rw [lastWritten_write] at h
    split at h
    · cases h
    · next hne => exact ⟨h, fun data' he => hne (by cases he; rfl)⟩

private theorem Zeroed.step {r : ρ} {ws : List (Option UInt32)} {b : Option UInt32} (hP : FreeFirst P r)
    (hz : Zeroed as s) (hin : ∀ a ∈ as, a.InRange) (hrun : run (access P) (initial r) as = some (ws, s))
    (ha : a.InRange) (h : access P s a = some (b, s')) : Zeroed (as ++ [a]) s' := by
  obtain ⟨hi, hseen⟩ := run_repInv P r hin hrun
  have hstart := start_sameStore a s
  obtain ⟨s₁, hf, hs⟩ := access_cases h
  obtain rfl : (serve s₁ a).2 = s' := by rw [hs]
  have hi₁ := hf.repInv (hstart.repInv hi) (Access.page_lt ha)
  refine ⟨serve_freeZero hi₁ ha hf.inmemory (hf.freeZero (hstart.repInv hi) (hstart.freeZero hz.freeZero)), ?_⟩
  intro addr haddr hearly hlast
  obtain ⟨hlast, hne⟩ := lastWritten_eq_none hlast
  rw [serve_contents hi₁ ha hf.inmemory haddr hne]
  have hold : Early as (addr / pageSize) → contents s₁ (addr / pageSize) (addr % pageSize) = some 0 := fun hearly =>
    hstart.keeps.trans (hf.keeps (hstart.repInv hi)) _ _ _ (Access.page_lt (a := .read addr) haddr) (offset_lt addr)
      (hz.early addr haddr hearly hlast)
  rcases early_append.1 hearly with hearly | ⟨hp, hcard⟩
  · exact hold hearly
  by_cases htouched : a.page ∈ touched as
  · exact hold (hp ▸ early_of_mem htouched hcard)
  · -- the page is new and a frame is free, so that nothing is evicted
    have hnew : ¬Seen (a.start s) a.page := by
      rw [hstart.seen_iff, hseen]
      exact htouched
    obtain ⟨g, hg, ho⟩ := exists_free hi hseen hcard
    have hvictim : victim P s a = none := by
      by_contra hvictim
      exact hP hin ha hrun h hvictim g hg ho
    rw [← hp]
    refine hf.fresh (hstart.freeZero hz.freeZero) hnew ?_ (offset_lt addr)
    intro f s₂ hr
    rw [← hvictim, victim_of_fault ?_ hr]
    exact Bool.eq_false_iff.2 fun hm => hnew (Or.inl (by rw [start_pageTable]; exact hm))

private theorem run_zeroed {r : ρ} (hP : FreeFirst P r) {ws : List (Option UInt32)} (hin : ∀ a ∈ as, a.InRange)
    (hrun : run (access P) (initial r) as = some (ws, s)) : Zeroed as s := by
  refine run_snoc (zeroed_initial r) ?_ hin hrun
  intro as ws s a b s' hin hrun hz ha hs
  exact hz.step hP hin hrun ha hs

/-! ### Reads -/

/-- A read whose answer the calls before it determine: the word was written, or its page is an early one. -/
def Settled (as : List Access) (addr : Nat) : Prop :=
  lastWritten as addr ≠ none ∨ Early (as ++ [.read addr]) (addr / pageSize)

/-- Under a policy that takes the free frames first, a settled read returns the word written last, and zero when there
is none. -/
private theorem read_settled {r : ρ} (hP : FreeFirst P r) {ws : List (Option UInt32)} (hin : ∀ a ∈ as, a.InRange)
    (hrun : run (access P) (initial r) as = some (ws, s)) {i addr : Nat} (hread : as[i]? = some (.read addr))
    (hset : Settled (as.take i) addr) : ws[i]? = some (some ((lastWritten (as.take i) addr).getD 0)) := by
  obtain ⟨l, l', rfl, rfl⟩ : ∃ l l', as = l ++ .read addr :: l' ∧ l.length = i := by
    obtain ⟨hlt, he⟩ := List.getElem?_eq_some_iff.1 hread
    refine ⟨as.take i, as.drop (i + 1), ?_, List.length_take_of_le (Nat.le_of_lt hlt)⟩
    rw [← he, List.getElem_cons_drop, List.take_append_drop]
  rw [List.take_left] at hset ⊢
  obtain ⟨s₁, ws₁, ws₂, hl, hrest, rfl⟩ := run_append.1 hrun
  obtain ⟨b, s₂, ws₃, hs, -, rfl⟩ := run_cons.1 hrest
  have hinl : ∀ a ∈ l, a.InRange := fun a ha => hin a (List.mem_append_left _ ha)
  have ha : (Access.read addr).InRange := hin _ (by simp)
  rw [← run_length hl, List.getElem?_append_right (Nat.le_refl _), Nat.sub_self, List.getElem?_cons_zero]
  have hagree : RepInv none s₁ ∧ Agrees l s₁ :=
    (run_history (I := fun as s => RepInv none s ∧ Agrees as s) (Q := fun _ _ _ => True)
      (fun _ _ _ _ _ hI ha hs => ⟨(access_agrees hI.1 hI.2 ha hs).1, trivial⟩)
      ⟨repInv_initial r, fun _ _ _ h => by cases h⟩ hinl hl).1
  cases hlast : lastWritten l addr with
  | some w => rw [(access_agrees hagree.1 hagree.2 ha hs).2 addr w rfl hlast]; rfl
  | none =>
    have hearly : Early (l ++ [.read addr]) (addr / pageSize) := hset.resolve_left fun hne => hne hlast
    rw [← lastWritten_read] at hlast
    have hzero := ((run_zeroed hP hinl hl).step hP hinl hl ha hs).early addr ha hearly hlast
    simp only [access, Option.map_eq_some_iff, Prod.mk.injEq] at hs
    obtain ⟨⟨w, s₃⟩, hr, rfl, rfl⟩ := hs
    have hread : some w = some 0 := (readMemory_spec hagree.1 ha hr).2.2.symm.trans hzero
    exact congrArg some hread

/-- In every sequence of calls whose reads are all settled, every read returns the same word under
`fifo_page_replace` and under `second_chance_replace`: the word written to its address last, or zero.  A read that is
not settled is of a word never written, in a page first loaded into a frame that another page had used. -/
theorem policy_independent {ws ws' : List (Option UInt32)} {s s' : Paging Hand} (hin : ∀ a ∈ as, a.InRange)
    (hrun : run (access fifo) (initial 0) as = some (ws, s))
    (hrun' : run (access secondChance) (initial 0) as = some (ws', s'))
    (hset : ∀ i addr, as[i]? = some (.read addr) → Settled (as.take i) addr) :
    ∀ i addr, as[i]? = some (.read addr) →
      ws[i]? = ws'[i]? ∧ ws[i]? = some (some ((lastWritten (as.take i) addr).getD 0)) := by
  intro i addr hread
  have hfifo := read_settled freeFirst_fifo hin hrun hread (hset i addr hread)
  have hsecond := read_settled freeFirst_secondChance hin hrun' hread (hset i addr hread)
  exact ⟨hfifo.trans hsecond.symm, hfifo⟩

/-- Nine pages are written, another word of the first one and the word of the ninth are read. -/
def mixed : List Access := (List.range 9).map (fun v => .write (4 * v) (100 + v.toUInt32)) ++ [.read 1, .read 32]

theorem policy_independent_mixed : ∃ ws s ws' s', run (access fifo) (initial 0) mixed = some (ws, s) ∧
    run (access secondChance) (initial 0) mixed = some (ws', s') ∧ ws[9]? = ws'[9]? ∧ ws[9]? = some (some 0) := by
  have hsome : (run (access fifo) (initial 0) mixed).isSome = true := by decide
  have hsome' : (run (access secondChance) (initial 0) mixed).isSome = true := by decide
  obtain ⟨⟨ws, s⟩, hrun⟩ := Option.isSome_iff_exists.1 hsome
  obtain ⟨⟨ws', s'⟩, hrun'⟩ := Option.isSome_iff_exists.1 hsome'
  have hset : ∀ i addr, mixed[i]? = some (.read addr) → Settled (mixed.take i) addr := by
    have hreads : ∀ i < 11, ∀ a ∈ mixed[i]?, a.isWrite = false → i = 9 ∧ a = .read 1 ∨ i = 10 ∧ a = .read 32 := by
      decide
    intro i addr hread
    rcases hreads i (List.getElem?_eq_some_iff.1 hread).1 _ hread rfl with ⟨rfl, he⟩ | ⟨rfl, he⟩
    · cases he
      exact Or.inr ⟨[], _, _, rfl, rfl, by decide⟩
    · cases he
      exact Or.inl (by decide)
  exact ⟨ws, s, ws', s', hrun, hrun', policy_independent (by decide) hrun hrun' hset 9 1 rfl⟩

/-- Eight pages are written, the first one is read, and then a word of a ninth page that nobody wrote. -/
def exposed : List Access := (List.range 8).map (fun v => .write (4 * v) (100 + v.toUInt32)) ++ [.read 0, .read 32]

/-- The word of the ninth page reads as the word of the page that was evicted for it, which is the first page under
one policy and the second page under the other. -/
theorem policy_exposed : (∀ a ∈ exposed, a.InRange) ∧
    (run (access fifo) (initial 0) exposed).map (fun x => x.1[9]?) = some (some (some 100)) ∧
    (run (access secondChance) (initial 0) exposed).map (fun x => x.1[9]?) = some (some (some 101)) := by
  decide

end Edaf35.Machine
