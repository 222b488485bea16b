import Edaf35.Machine.Paging

/-!
# The two replacement functions of `machine.c`

Both keep the number of a frame as static data.  `fifo_page_replace` moves on by one frame at each call;
`second_chance_replace` moves on while the owner of the frame was referenced, clearing the bit of each owner it
passes.  Its loop runs at most once round the frames before a cleared bit stops it; the fuel `RAM_PAGES + 1` is what
that takes.
-/

namespace Edaf35.Machine

/-- A frame number, the value of the static variable `page`. -/
abbrev Hand := Fin ramPages

instance : NeZero ramPages := ⟨by decide⟩

private theorem SameButReferenced.refl {ρ : Type} (s : Paging ρ) : SameButReferenced s s :=
  ⟨⟨rfl, rfl, rfl, rfl, fun _ => rfl, fun _ => rfl, fun _ => rfl, fun _ => rfl⟩, rfl, rfl, rfl, rfl⟩

private theorem SameButReferenced.trans {ρ : Type} {s₁ s₂ s₃ : Paging ρ} (h : SameButReferenced s₁ s₂)
    (h' : SameButReferenced s₂ s₃) : SameButReferenced s₁ s₃ :=
  ⟨⟨h'.coremap.trans h.coremap, h'.memory.trans h.memory, h'.swap.trans h.swap, h'.count.trans h.count,
    fun v => (h'.page v).trans (h.page v), fun v => (h'.inmemory v).trans (h.inmemory v),
    fun v => (h'.ondisk v).trans (h.ondisk v), fun v => (h'.modified v).trans (h.modified v)⟩,
    h'.numPagefault.trans h.numPagefault, h'.numDiscWrites.trans h.numDiscWrites,
    h'.numPageWrites.trans h.numPageWrites, h'.numPageReads.trans h.numPageReads⟩

/-! ### First in, first out -/

def fifoPageReplace (s : Paging Hand) : Nat × Paging Hand :=
  let page := s.static + 1
  (page, { s with static := page })

def fifo : Policy Hand where
  replace := fifoPageReplace
  frame_lt s := (s.static + 1).isLt
  only_referenced _ :=
    ⟨⟨rfl, rfl, rfl, rfl, fun _ => rfl, fun _ => rfl, fun _ => rfl, fun _ => rfl⟩, rfl, rfl, rfl, rfl⟩

/-! ### Second chance -/

/-- The body of the loop: clear the bit of the owner `v` of the frame under the hand, move the hand. -/
def passOver (s : Paging Hand) (v : Nat) : Paging Hand :=
  { s.setEntry v fun e => { e with referenced := false } with static := s.static + 1 }

def secondChanceLoop : Nat → Paging Hand → Paging Hand
  | 0, s => s
  | fuel + 1, s =>
    match (s.coremap s.static).owner with
    | none => s
    | some v => if (s.pageTable v).referenced then secondChanceLoop fuel (passOver s v) else s

def secondChanceReplace (s : Paging Hand) : Nat × Paging Hand :=
  let s := secondChanceLoop (ramPages + 1) s
  (s.static, s)

theorem passOver_sameButReferenced (s : Paging Hand) (v : Nat) : SameButReferenced s (passOver s v) := by
  refine ⟨⟨rfl, rfl, rfl, rfl, ?_, ?_, ?_, ?_⟩, rfl, rfl, rfl, rfl⟩ <;>
    (intro w; simp only [passOver, Paging.setEntry, Function.update_apply]; split <;> simp_all)

theorem secondChanceLoop_sameButReferenced (fuel : Nat) (s : Paging Hand) :
    SameButReferenced s (secondChanceLoop fuel s) := by
  induction fuel generalizing s with
  | zero => exact SameButReferenced.refl s
  | succ fuel ih =>
    unfold secondChanceLoop
    split
    · exact SameButReferenced.refl s
    · split
      · exact (passOver_sameButReferenced s _).trans (ih _)
      · exact SameButReferenced.refl s

def secondChance : Policy Hand where
  replace := secondChanceReplace
  frame_lt s := (secondChanceLoop (ramPages + 1) s).static.isLt
  only_referenced s := secondChanceLoop_sameButReferenced _ s

end Edaf35.Machine
