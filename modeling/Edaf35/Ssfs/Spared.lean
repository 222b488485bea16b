import Edaf35.Ssfs.Refinement

/-!
# Requests spare the files that they do not name

A request changes only the files that it names, also when blocks are taken from the free list or given back, and when
the removal of a file moves the entries of the others.  So after any run of requests that do not name a file, the
program answers questions about it as before.
-/

namespace Edaf35.Ssfs

variable {bs : Nat}

/-- The request names the file `f` in no call that could change it. -/
def Request.Spares (f : List UInt8) : Request bs → Prop
  | .call (.read _ _ _ _) => True
  | .call c => c.name.take fsNameLen ≠ f.take fsNameLen
  | .rename o nm _ _ => o.take fsNameLen ≠ f.take fsNameLen ∧ nm.take fsNameLen ≠ f.take fsNameLen
  | _ => True

/-! ### Lists -/

section Lists

variable {α : Type*} {p : α → Bool} {l : List α} {i : Nat} {a b : α}

private theorem find?_set (hi : l[i]? = some a) (ha : p a = false) (hb : p b = false) :
    (l.set i b).find? p = l.find? p := by
  obtain ⟨hlt, hget⟩ := List.getElem?_eq_some_iff.1 hi
  conv_rhs => rw [← List.take_append_drop i l, List.drop_eq_getElem_cons hlt, hget]
  rw [List.set_eq_take_append_cons_drop, if_pos hlt, List.find?_append, List.find?_append,
    List.find?_cons_of_neg (by simp [hb]), List.find?_cons_of_neg (by simp [ha])]

private theorem find?_eraseIdx (hi : l[i]? = some a) (ha : p a = false) : (l.eraseIdx i).find? p = l.find? p := by
  obtain ⟨hlt, hget⟩ := List.getElem?_eq_some_iff.1 hi
  conv_rhs => rw [← List.take_append_drop i l, List.drop_eq_getElem_cons hlt, hget]
  rw [List.eraseIdx_eq_take_drop_succ, List.find?_append, List.find?_append, List.find?_cons_of_neg (by simp [ha])]

private theorem find?_snoc (hb : p b = false) : (l ++ [b]).find? p = l.find? p := by
  rw [List.find?_append, List.find?_cons_of_neg (by simp [hb]), List.find?_nil, Option.or_none]

end Lists

namespace Store

/-- The file with the name. -/
def file (σ : Store bs) (f : List UInt8) : Option (File bs) := σ.files.find? fun g => g.name = f.take fsNameLen

variable {σ σ' : Store bs} {f name : List UInt8} {i : Nat} {g : File bs}

private theorem find_map_snd (σ : Store bs) (f : List UInt8) : (σ.find f).map Prod.snd = σ.file f := by
  cases hf : σ.find f with
  | none =>
    rw [find_eq_none, List.findIdx?_eq_none_iff] at hf
    exact (List.find?_eq_none.2 fun x hx => by simpa using hf x hx).symm
  | some x =>
    obtain ⟨i, g⟩ := x
    obtain ⟨hidx, hg⟩ := find_eq_some.1 hf
    obtain ⟨hlt, hp, hbefore⟩ := List.findIdx?_eq_some_iff_getElem.1 hidx
    obtain ⟨_, hget⟩ := List.getElem?_eq_some_iff.1 hg
    refine (List.find?_eq_some_iff_getElem.2 ⟨by rw [← hget]; exact hp, i, hlt, hget, fun j hj => ?_⟩).symm
    simpa using hbefore j hj

private theorem find_name (h : σ.find name = some (i, g)) : σ.files[i]? = some g ∧ g.name = name.take fsNameLen := by
  obtain ⟨hidx, hg⟩ := find_eq_some.1 h
  obtain ⟨hlt, hp, -⟩ := List.findIdx?_eq_some_iff_getElem.1 hidx
  obtain ⟨_, hget⟩ := List.getElem?_eq_some_iff.1 hg
  exact ⟨hg, by rw [← hget]; simpa using hp⟩

/-- A change of a file with another name that keeps its name. -/
private theorem file_set {free : List (Block bs)} {g' : File bs} (h : σ.find name = some (i, g))
    (hne : name.take fsNameLen ≠ f.take fsNameLen) (hg' : g'.name ≠ f.take fsNameLen) :
    (Store.mk (σ.files.set i g') free).file f = σ.file f := by
  obtain ⟨hi, hname⟩ := find_name h
  exact find?_set hi (by simpa [hname] using hne) (by simpa using hg')

private theorem file_unlink (hne : name.take fsNameLen ≠ f.take fsNameLen) : (σ.unlink name).2.file f = σ.file f := by
  unfold unlink
  cases h : σ.find name with
  | none => rfl
  | some x =>
    obtain ⟨hi, hname⟩ := find_name h
    exact find?_eraseIdx hi (by simpa [hname] using hne)

private theorem grow_name (g : File bs) (newSize : Nat) (now : UInt64) : (g.grow newSize now).name = g.name := by
  unfold File.grow
  split <;> rfl

/-- A request keeps the files that it does not name. -/
private theorem handle_file {req : Request bs} {a : Response} (h : σ.handle req = some (a, σ')) (hs : req.Spares f) :
    σ'.file f = σ.file f := by
  cases req with
  | getattr name st uid gid now =>
    cases h
    rfl
  | readdir stack =>
    cases h
    rfl
  | remount bdir bmap =>
    cases h
    rfl
  | rename o nm now now' =>
    obtain ⟨⟨r, σ₁⟩, hren, hans⟩ := Option.map_eq_some_iff.1 h
    cases hans
    unfold rename at hren
    cases ho : σ.find o with
    | none =>
      simp only [ho] at hren
      cases hren
      rfl
    | some x =>
      obtain ⟨i, g⟩ := x
      simp only [ho] at hren
      split at hren
      · rename_i hafter
        cases hren
        obtain ⟨hi, hname⟩ := find_name ho
        have hi' : (σ.unlink nm).2.files[i]? = some g := by
          unfold unlink
          cases hnm : σ.find nm with
          | none => exact hi
          | some y =>
            have hlt : i < y.1 := by simpa [hnm] using hafter
            exact (List.getElem?_eraseIdx_of_lt hlt).trans hi
        refine Eq.trans ?_ (file_unlink hs.2)
        exact find?_set hi' (by simpa [hname] using hs.1) (by simpa using hs.2)
      · cases hren
  | call c =>
    cases c with
    | read name size offset stack =>
      obtain ⟨b, -, hans⟩ := Option.map_eq_some_iff.1 h
      cases hans
      rfl
    | create name m now =>
      cases h
      unfold create
      split
      · have hne : name.take fsNameLen ≠ f.take fsNameLen := hs
        exact find?_snoc (by simpa using hne)
      · rfl
    | truncate name now =>
      cases h
      unfold truncate
      cases hn : σ.find name with
      | none => rfl
      | some x =>
        refine file_set hn hs ?_
        rw [(find_name hn).2]
        exact hs
    | unlink name now =>
      cases h
      exact file_unlink hs
    | write name buffer size offset now stack =>
      obtain ⟨⟨r, σ₁⟩, hw, hans⟩ := Option.map_eq_some_iff.1 h
      cases hans
      unfold write at hw
      split at hw
      · cases hw
      · cases hn : σ.find name with
        | none =>
          simp only [hn, Option.some.injEq, Prod.mk.injEq] at hw
          rw [hw.2]
        | some x =>
          obtain ⟨i, g⟩ := x
          have hname : ∀ newSize, (g.grow newSize now).name ≠ f.take fsNameLen := by
            intro newSize
            rw [grow_name, (find_name hn).2]
            exact hs
          simp only [hn] at hw
          split at hw
          · split at hw
            · simp only [Option.some.injEq, Prod.mk.injEq] at hw
              rw [hw.2]
            · cases hw
          · split at hw
            · simp only [Option.some.injEq, Prod.mk.injEq] at hw
              rw [hw.2]
            · split at hw
              · split at hw
                · cases hw
                · simp only [Option.some.injEq, Prod.mk.injEq] at hw
                  rw [← hw.2]
                  exact file_set hn hs (hname _)
              · simp only [Option.some.injEq, Prod.mk.injEq] at hw
                rw [← hw.2]
                exact file_set hn hs (hname _)

private theorem getattr_congr (h : σ'.file f = σ.file f) (st : Stat) (uid gid : UInt32) (now : UInt64) :
    σ'.getattr f st uid gid now = σ.getattr f st uid gid now := by
  rw [← find_map_snd, ← find_map_snd] at h
  unfold getattr
  split
  · rfl
  · cases hf : σ.find f with
    | none =>
      rw [hf, Option.map_none, Option.map_eq_none_iff] at h
      simp only [h]
    | some x =>
      rw [hf] at h
      obtain ⟨y, hy, hxy⟩ := Option.map_eq_some_iff.1 h
      simp only [hy, hxy]

private theorem read_congr (h : σ'.file f = σ.file f) (size : UInt64) (offset : Int64) :
    σ'.read f size offset = σ.read f size offset := by
  rw [← find_map_snd, ← find_map_snd] at h
  unfold read
  split
  · rfl
  · cases hf : σ.find f with
    | none =>
      rw [hf, Option.map_none, Option.map_eq_none_iff] at h
      simp only [h]
    | some x =>
      rw [hf] at h
      obtain ⟨y, hy, hxy⟩ := Option.map_eq_some_iff.1 h
      simp only [hy, hxy]

end Store

/-! ### Runs -/

variable {δ : Type} [RawDisk bs δ] [LawfulRawDisk bs δ] {s : Fs bs δ} {σ σ' : Store bs} {f : List UInt8}

/-- An answer that leaves nothing open. -/
private theorem Response.Meets.eq {expected actual : Response} (h : expected.Meets actual)
    (hdata : ∀ r, expected ≠ .data r none) : actual = expected := by
  cases expected with
  | data r bytes =>
    cases bytes with
    | none => exact absurd rfl (hdata r)
    | some bytes => exact h
  | _ => exact h

/-- What the program answers when it is asked about a file. -/
private theorem handle_getattr {fuel : Nat} (h : HoldsFiles s.disk σ) (hfuel : fsNblocks ≤ fuel) (hf : IsName f)
    (st : Stat) (uid gid : UInt32) (now : UInt64) :
    ∃ t, handle fuel s (.getattr f st uid gid now) = some (σ.getattr f st uid gid now, t) := by
  have hreq : σ.handle (.getattr f st uid gid now) = some (σ.getattr f st uid gid now, σ) := rfl
  have hnamed : Request.Named (.getattr f st uid gid now : Request bs) := Or.inr hf
  obtain ⟨a, t, hs, hmeets, -⟩ := handle_refines h hfuel hnamed hreq
  have hattr : ∀ r, σ.getattr f st uid gid now ≠ .data r none := by
    intro r hr
    unfold Store.getattr at hr
    split at hr
    · cases hr
    · split at hr <;> cases hr
  rw [hmeets.eq hattr] at hs
  exact ⟨t, hs⟩

/-- What the program answers when it reads a file that has data. -/
private theorem handle_read {fuel : Nat} (h : HoldsFiles s.disk σ) (hfuel : fsNblocks ≤ fuel) (hf : IsName f)
    (size : UInt64) {offset : Int64} (stack : Block bs) (hoff : 0 ≤ offset.toInt)
    (hdata : ∀ g, σ.file f = some g → g.blocks ≠ []) :
    ∃ a t, σ.read f size offset = some a ∧ handle fuel s (.call (.read f size offset stack)) = some (a, t) := by
  obtain ⟨a, hread, hclosed⟩ : ∃ a, σ.read f size offset = some a ∧ ∀ r, a ≠ .data r none := by
    unfold Store.read
    rw [if_neg (not_lt.2 hoff)]
    cases hfind : σ.find f with
    | none => exact ⟨_, rfl, fun r hr => by cases hr⟩
    | some x =>
      have hfile : σ.file f = some x.2 := by rw [← Store.find_map_snd, hfind, Option.map_some]
      obtain ⟨b, bs', hb⟩ := List.exists_cons_of_ne_nil (hdata x.2 hfile)
      refine ⟨_, rfl, fun r hr => ?_⟩
      simp only [hb, List.head?_cons, Option.map_some] at hr
      cases hr
  have hreq : σ.handle (.call (.read f size offset stack)) = some (a, σ) := by
    simp only [Store.handle, hread, Option.map_some]
  have hnamed : Request.Named (.call (.read f size offset stack)) := hf
  obtain ⟨a', t, hs, hmeets, -⟩ := handle_refines h hfuel hnamed hreq
  rw [hmeets.eq hclosed] at hs
  exact ⟨a, t, hread, hs⟩

/-- After a run of requests that do not name a file, the program answers `getattr` and, when the file has data, `read`
as it did before the run. -/
theorem spared_answers {fuel : Nat} {reqs : List (Request bs)} {expected : List Response} (h : HoldsFiles s.disk σ)
    (hfuel : fsNblocks ≤ fuel) (hf : IsName f) (hnamed : ∀ req ∈ reqs, req.Named)
    (hspares : ∀ req ∈ reqs, req.Spares f) (hrun : run Store.handle σ reqs = some (expected, σ')) :
    ∃ actual s', run (handle fuel) s reqs = some (actual, s') ∧
      (∀ st uid gid now, ∃ a t t', handle fuel s (.getattr f st uid gid now) = some (a, t) ∧
        handle fuel s' (.getattr f st uid gid now) = some (a, t')) ∧
      ((∀ g, σ.file f = some g → g.blocks ≠ []) → ∀ size offset stack, 0 ≤ offset.toInt →
        ∃ a t t', handle fuel s (.call (.read f size offset stack)) = some (a, t) ∧
          handle fuel s' (.call (.read f size offset stack)) = some (a, t')) := by
  obtain ⟨actual, s', hrun', -, h'⟩ := refines h hfuel hnamed hrun
  have hstep : ∀ (τ : Store bs) req b τ', τ.file f = σ.file f → req.Spares f → τ.handle req = some (b, τ') →
      τ'.file f = σ.file f := fun τ req b τ' hτ hs hreq => (Store.handle_file hreq hs).trans hτ
  have hfile : σ'.file f = σ.file f := run_invariant hstep rfl hspares hrun
  refine ⟨actual, s', hrun', fun st uid gid now => ?_, fun hdata size offset stack hoff => ?_⟩
  · obtain ⟨t, ht⟩ := handle_getattr h hfuel hf st uid gid now
    obtain ⟨t', ht'⟩ := handle_getattr h' hfuel hf st uid gid now
    rw [Store.getattr_congr hfile] at ht'
    exact ⟨_, t, t', ht, ht'⟩
  · obtain ⟨a, t, hread, ht⟩ := handle_read h hfuel hf size stack hoff hdata
    obtain ⟨a', t', hread', ht'⟩ := handle_read h' hfuel hf size stack hoff (by rw [hfile]; exact hdata)
    rw [Store.read_congr hfile, hread] at hread'
    cases hread'
    exact ⟨a, t, t', ht, ht'⟩

/-- Another file comes and goes. -/
def otherFile : List (Request 512) :=
  [.call (.create [97] 0o644 6), .call (.write [97] (fun _ => 7) 2 0 7 fun _ => 0), .call (.unlink [97] 8)]

theorem spared_answers_otherFile : ∃ (s s' : Fs 512 (RamDisk 512)) (actual : List Response) (a : Response)
    (t t' : Fs 512 (RamDisk 512)), run (handle fsNblocks) s otherFile = some (actual, s') ∧
      handle fsNblocks s (.call (.read [98] 2 1 fun _ => 0)) = some (a, t) ∧
      handle fsNblocks s' (.call (.read [98] 2 1 fun _ => 0)) = some (a, t') := by
  have hbefore : ∀ req ∈ twoBlocks, req.Named := by simp [twoBlocks, Request.Named, Call.name, IsName]
  have hnamed : ∀ req ∈ otherFile, req.Named := by simp [otherFile, Request.Named, Call.name, IsName]
  have hspares : ∀ req ∈ otherFile, req.Spares [98] := by
    simp [otherFile, Request.Spares, Call.name, fsNameLen]
  obtain ⟨-, s, -, -, h⟩ := refines mounted_holdsFiles (Nat.le_refl _) hbefore rfl
  obtain ⟨actual, s', hrun, -, hread⟩ := spared_answers h (Nat.le_refl _) (by decide) hnamed hspares rfl
  obtain ⟨a, t, t', ha, ha'⟩ := hread (by intro g hg; cases hg; exact List.cons_ne_nil _ _) 2 1 (fun _ => 0) (by decide)
  exact ⟨s, s', actual, a, t, t', hrun, ha, ha'⟩

end Edaf35.Ssfs
