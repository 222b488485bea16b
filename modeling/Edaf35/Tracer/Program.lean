import Edaf35.Tracer.Elf
import Edaf35.Tracer.Histogram

/-!
# A whole run of the tracer

The tracer reads the headers of the program, rewrites its sections and traces it.  A child that executes no zero word,
and in the sections no word that only looks like a divide word, executes what it would have executed alone, and the file
of the option `-t` has a line for each division in the sections in the order of execution, with the numbers that are
divided.  What the rest of the address space holds does not matter.
-/

namespace Edaf35.Tracer

variable {σ : Type} {C : Child σ} {secs : List Section} {text text' : Text} {t t' : InstrTable}

/-- The divisions in the sections among the instructions executed in the given states of the child. -/
def divisions (C : Child σ) (secs : List Section) (text : Text) (l : List σ) : List (UInt32 × UInt32) :=
  (l.filter fun c => Covers secs (C.nip c) ∧ IsDivw (text (C.nip c))).map fun c => operands C (text (C.nip c)) c

/-- A program that can be rewritten: all headers of its file can be read, and its sections of instructions do not have
more divide words than the table can take. -/
structure Traceable (file : List UInt8) (secs : List Section) (text : Text) : Prop where
  read : sections file = some secs
  laid : Laid secs
  few : totalDivw text secs ≤ 2 ^ 27

/-- The word at `p` is not 0, and it is a divide word if it is in a section and has the field `EO_DIVW`. -/
def Regular (secs : List Section) (text : Text) (p : UInt32) : Prop :=
  text p ≠ 0 ∧ (Covers secs p → instrField (text p) 21 10 = eoDivw → IsDivw (text p))

/-- In the rewritten sections the words in the table are the divide words. -/
private theorem RewrittenAll.handled_eq (h : RewrittenAll text t secs text' t') (hempty : ∀ x ∈ t.a, x.addr = 0)
    (l : List σ) : handled C t' l = l.filter fun c => Covers secs (C.nip c) ∧ IsDivw (text (C.nip c)) := by
  refine List.filter_congr fun c _ => Bool.eq_iff_iff.2 ?_
  rw [h.inTable_iff hempty, decide_eq_true_eq]

/-- If there is memory, `rewrite_text` succeeds and returns the number of divide words.  A child that only executes
regular words then executes the same instructions in the same states as without the tracer; and when it has exited, the
lines of the trace file are the divisions in the sections that it executed, and `ndivw` is their number. -/
theorem traced_program {calloc : Nat → Bool} {file : List UInt8} {secs : List Section} {text : Text}
    (hcalloc : ∀ bytes, calloc bytes = true) (h : Traceable file secs text) :
    ∃ t text' t', newInstrTable calloc = .ok t ∧
      rewriteText calloc (some file) text t = .ok (totalDivw text secs, text', t') ∧
      ∀ (σ : Type) (C : Child σ) (c : σ) (lines : Option (List (UInt32 × UInt32))),
        (∀ k, ∀ d ∈ untraced C text k c, Regular secs text (C.nip d)) →
        (∀ n, ∃ k, traced C t' n (start c text' (fun _ => 0) lines) = untraced C text k c) ∧
        (∀ k, ∃ n, traced C t' n (start c text' (fun _ => 0) lines) = untraced C text k c) ∧
        ∀ n, (ticks C t' n (start c text' (fun _ => 0) lines)).phase = .exited ∨
            (ticks C t' n (start c text' (fun _ => 0) lines)).phase = .failed →
          ∃ k, traced C t' n (start c text' (fun _ => 0) lines) = untraced C text k c ∧
            (plainAfter C text k c).1 = none ∧
            (ticks C t' n (start c text' (fun _ => 0) lines)).divfp =
              lines.map (fun first => first ++ divisions C secs text (untraced C text k c)) ∧
            (ticks C t' n (start c text' (fun _ => 0) lines)).ndivw =
              .ofNat (divisions C secs text (untraced C text k c)).length := by
  obtain ⟨t, ht⟩ : ∃ t, newInstrTable calloc = .ok t := by
    unfold newInstrTable callocInstrs
    rw [hcalloc, hcalloc]
    exact ⟨_, rfl⟩
  obtain ⟨hwf, hn, hempty⟩ := newInstrTable_wellFormed ht
  obtain ⟨text', t', hok, hall⟩ := rewriteText_spec h.read h.laid hwf hn hempty hcalloc h.few
  refine ⟨t, text', t', ht, hok, fun σ C c lines hregular => ?_⟩
  have hfrom := hall.patchedFrom (A := Regular secs text) hempty fun _ hp => hp
  have hstays : Stays C text (Regular secs text) (some c, 0) := hregular
  refine ⟨fun n => ?_, fun k => (simulation hfrom).live (.cont hstays) k, fun n hgone => ?_⟩
  · obtain ⟨k, hk, -⟩ := related_ticks hfrom hstays (fun _ => 0) lines n
    exact ⟨k, hk⟩
  · obtain ⟨k, hk, hr⟩ := related_ticks hfrom hstays (fun _ => 0) lines n
    have haccount := accounted_ticks hfrom hstays (fun _ => 0) lines n
    have hndivw := haccount.ndivw
    have hdivfp := haccount.divfp
    rw [announced_of_gone hgone, List.append_nil, hall.handled_eq hempty, hk] at hndivw hdivfp
    refine ⟨k, hk, hr.none_of_gone hgone, hdivfp, ?_⟩
    rw [divisions, List.length_map]
    exact hndivw

/-! ### A file with one section -/

/-- The headers of a file whose section of instructions is at 4 and has two words. -/
def divwFile : List UInt8 :=
  List.replicate 32 0 ++ [0, 0, 0, 52] ++ List.replicate 12 0 ++ [0, 1, 0, 0] ++
    [0, 0, 0, 0, 0, 0, 0, 1, 0, 0, 0, 6, 0, 0, 0, 4, 0, 0, 0, 52, 0, 0, 0, 8] ++ List.replicate 16 0

private theorem traceable_divwFile : Traceable divwFile [(4, 8)] divwText :=
  ⟨by decide, ⟨List.forall_mem_singleton.2 ⟨by decide, by decide⟩, List.forall_mem_singleton.2 (by decide),
    by decide, List.pairwise_singleton _ _⟩, by decide⟩

/-- A child that divides 3 by 3 twice. -/
theorem traced_program_looping : ∃ t text' t', newInstrTable (fun _ => true) = .ok t ∧
    rewriteText (fun _ => true) (some divwFile) divwText t = .ok (1, text', t') ∧
      (∃ n, traced looping t' n (start (3, 4) text' (fun _ => 0) (some [])) = [(3, 4), (2, 8), (1, 4), (0, 8)]) ∧
      ∀ n, (ticks looping t' n (start (3, 4) text' (fun _ => 0) (some []))).phase = .exited →
        (ticks looping t' n (start (3, 4) text' (fun _ => 0) (some []))).divfp = some [(3, 3), (3, 3)] := by
  obtain ⟨t, text', t', ht, hok, hruns⟩ := traced_program (fun _ => rfl) traceable_divwFile
  obtain ⟨-, hlive, hexit⟩ := hruns _ looping (3, 4) (some []) fun _ d _ =>
    ⟨(divwText_word (looping.nip d)).1, fun _ => (divwText_word (looping.nip d)).2⟩
  refine ⟨t, text', t', ht, hok, ?_, fun n hn => ?_⟩
  · obtain ⟨n, hn⟩ := hlive 4
    exact ⟨n, hn.trans (by decide)⟩
  · obtain ⟨k, -, hnone, hlines, -⟩ := hexit n (Or.inl hn)
    match k with
    | 0 | 1 | 2 | 3 => exact absurd hnone (by decide)
    | k + 4 =>
      have hfour : untraced looping divwText (k + 4) (3, 4) = [(3, 4), (2, 8), (1, 4), (0, 8)] := by
        cases k with
        | zero | succ => rfl
      rw [hlines, hfour]
      decide

end Edaf35.Tracer
