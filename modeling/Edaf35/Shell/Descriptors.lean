import Mathlib.Data.Finset.SymmDiff
import Edaf35.Shell.RunProgram

/-!
# The descriptors that a line leaves open

The shell closes no descriptor but the one in `pipe_fd[1]`, after each command before a `|`.  So the set of open
descriptors can differ at the return from `parse_line` in every descriptor that `open` returned and in every read
end of a pipe, and it is the same again only when that one number, by accident, made up for each of them.
-/

namespace Edaf35.Shell

/-- What an execution of `parse_line` does with the descriptors: the outcome of an `open` or a `pipe`, or the `close`
of `pipe_fd[1]`. -/
inductive Event
  | opened (fd : Option Nat)
  | piped (ends : Option (Nat × Nat))
  | closed
  deriving DecidableEq, Repr

/-- The executions that return: from the open descriptors `fds`, with these events, to the open descriptors at the
end.  A new descriptor is one that is not open, and `run_program` returns unless the command is `exit`. -/
inductive Parse.Returns : Parse → Finset Int → List Event → Finset Int → Prop
  | openFailed {path mode next fds events fds'} : (next none).Returns fds events fds' →
      Returns (.openFile path mode next) fds (.opened none :: events) fds'
  | opened {path mode next fds events fds'} {fd : Nat} : (fd : Int) ∉ fds →
      (next (some fd)).Returns (insert (fd : Int) fds) events fds' →
      Returns (.openFile path mode next) fds (.opened (some fd) :: events) fds'
  | pipeFailed {next fds events fds'} : (next none).Returns fds events fds' →
      Returns (.pipe next) fds (.piped none :: events) fds'
  | piped {next fds events fds'} {consumer producer : Nat} : (consumer : Int) ∉ fds → (producer : Int) ∉ fds →
      consumer ≠ producer →
      (next (some (consumer, producer))).Returns (insert (consumer : Int) (insert (producer : Int) fds)) events fds' →
      Returns (.pipe next) fds (.piped (some (consumer, producer)) :: events) fds'
  | runProgram {call inputFd outputFd next fds events fds'} : call.argv.head? ≠ some exitName →
      next.Returns fds events fds' → Returns (.runProgram call inputFd outputFd next) fds events fds'
  | close {fd next fds events fds'} : next.Returns (fds.erase fd) events fds' →
      Returns (.close fd next) fds (.closed :: events) fds'
  | error {fmt arg next fds events fds'} : next.Returns fds events fds' → Returns (.error fmt arg next) fds events fds'
  | ret {fds} : Returns .ret fds [] fds

/-- The number in `pipe_fd[1]`, which is `held` and is open when `isOpen`, makes up for all new descriptors: each one
that `open` returns and each read end of a pipe has that number, the read end where it was open at the call, and in
the end that number is open exactly when it was at the call. -/
def MadeUp (before : Finset Int) : (held : Int) → (isOpen : Bool) → List Event → Prop
  | held, isOpen, [] => isOpen = decide (held ∈ before)
  | held, isOpen, .opened none :: events => MadeUp before held isOpen events
  | held, _, .opened (some fd) :: events => (fd : Int) = held ∧ MadeUp before held true events
  | held, isOpen, .piped none :: events => MadeUp before held isOpen events
  | held, _, .piped (some (consumer, producer)) :: events =>
    (consumer : Int) = held ∧ held ∈ before ∧ MadeUp before producer true events
  | held, _, .closed :: events => MadeUp before held false events

/-! ### What is closed -/

/-- Only the number in `pipe_fd[1]`, which is `held` at first, is closed. -/
def Parse.ClosesHeld : Int → Parse → Prop
  | held, .openFile _ _ next => ∀ fd, (next fd).ClosesHeld held
  | held, .pipe next =>
    (next none).ClosesHeld held ∧ ∀ consumer producer : Nat, (next (some (consumer, producer))).ClosesHeld producer
  | held, .runProgram _ _ _ next => next.ClosesHeld held
  | held, .close fd next => fd = held ∧ next.ClosesHeld held
  | held, .error _ _ next => next.ClosesHeld held
  | _, .ret => True
  | _, .fault => True

private theorem endCommand_closesHeld {type : TokenType} {call : Call} {inputFd outputFd : Int} {pipeFd : Int × Int}
    {next : Int → Parse} (h : ∀ fd, (next fd).ClosesHeld pipeFd.2) :
    (endCommand type call inputFd outputFd pipeFd next).ClosesHeld pipeFd.2 := by
  have hproceed : ∀ fd, (if type = .newline then Parse.ret else next fd).ClosesHeld pipeFd.2 := by
    intro fd
    split
    · trivial
    · exact h fd
  unfold endCommand
  split
  · trivial
  · dsimp only [Parse.ClosesHeld]
    split
    · exact ⟨rfl, hproceed _⟩
    · exact hproceed _

private theorem redirect_closesHeld {file : Token} {mode : OpenMode} {fmt : String} {next : Int → Parse} {held : Int}
    (h : ∀ fd, (next fd).ClosesHeld held) : (redirect file mode fmt next).ClosesHeld held := by
  unfold redirect
  split
  · trivial
  · intro fd
    cases fd with
    | none => exact h (-1)
    | some fd => exact h fd

private theorem parseLoop_closesHeld (tokens : List Token) (argv : List (List UInt8)) (inputFd outputFd : Int)
    (pipeFd : Int × Int) : (parseLoop tokens argv inputFd outputFd pipeFd).ClosesHeld pipeFd.2 := by
  fun_induction parseLoop tokens argv inputFd outputFd pipeFd with
  | case1 | case2 | case4 | case6 => trivial
  | case3 text tokens argv inputFd outputFd pipeFd _ ih => exact ih
  | case5 text argv inputFd outputFd pipeFd _ file tokens ih => exact redirect_closesHeld ih
  | case7 text argv inputFd outputFd pipeFd _ file tokens ih => exact redirect_closesHeld ih
  | case8 text tokens argv inputFd outputFd pipeFd _ ih ihFailed =>
    refine ⟨endCommand_closesHeld ihFailed, fun consumer producer => ?_⟩
    exact endCommand_closesHeld fun fd => ih consumer producer fd
  | case9 text tokens argv inputFd outputFd pipeFd _ ih => exact endCommand_closesHeld ih
  | case10 text tokens argv inputFd outputFd pipeFd _ ih => exact endCommand_closesHeld ih
  | case11 text tokens argv inputFd outputFd pipeFd _ ih => exact endCommand_closesHeld ih

/-! ### What stays open -/

/-- A descriptor that is open and not the one in `pipe_fd[1]` stays open. -/
private theorem Parse.Returns.mem {p : Parse} {fds fds' : Finset Int} {events : List Event} {held d : Int}
    (h : p.Returns fds events fds') (hp : p.ClosesHeld held) (hd : d ∈ fds) (hne : d ≠ held) : d ∈ fds' := by
  induction h generalizing held with
  | openFailed _ ih => exact ih (hp none) hd hne
  | opened _ _ ih => exact ih (hp _) (Finset.mem_insert_of_mem hd) hne
  | pipeFailed _ ih => exact ih hp.1 hd hne
  | piped _ hproducer _ _ ih =>
    apply ih (hp.2 _ _) (Finset.mem_insert_of_mem (Finset.mem_insert_of_mem hd))
    rintro rfl
    exact hproducer hd
  | runProgram _ _ ih => exact ih hp hd hne
  | close _ ih => exact ih hp.2 (Finset.mem_erase.2 ⟨fun hc => hne (hc.trans hp.1), hd⟩) hne
  | error _ ih => exact ih hp hd hne
  | ret => exact hd

/-- While the open descriptors are those at the call except for the one in `pipe_fd[1]`, only that one can make up
for new ones. -/
private theorem Parse.Returns.eq_iff {p : Parse} {before fds fds' : Finset Int} {events : List Event} {held : Int}
    (h : p.Returns fds events fds') (hp : p.ClosesHeld held) (hfds : ∀ d, d ≠ held → (d ∈ fds ↔ d ∈ before)) :
    fds' = before ↔ MadeUp before held (decide (held ∈ fds)) events := by
  induction h generalizing held with
  | openFailed _ ih => exact ih (hp none) hfds
  | @opened _ _ _ fds _ _ fd hfd hrest ih =>
    by_cases hheld : (fd : Int) = held
    · have hfds' : ∀ d, d ≠ held → (d ∈ insert (fd : Int) fds ↔ d ∈ before) := by
        intro d hd
        rw [Finset.mem_insert, hheld, hfds d hd]
        exact or_iff_right hd
      rw [ih (hp _) hfds', MadeUp]
      simp [hheld]
    · -- the descriptor is new, and nothing closes it
      have hnew : (fd : Int) ∉ before := fun hc => hfd ((hfds _ hheld).2 hc)
      have hstays := hrest.mem (hp _) (Finset.mem_insert_self _ _) hheld
      rw [MadeUp]
      constructor
      · rintro rfl
        exact absurd hstays hnew
      · intro hmade
        exact absurd hmade.1 hheld
  | pipeFailed _ ih => exact ih hp.1 hfds
  | @piped _ fds _ _ consumer producer hconsumer hproducer hdiff hrest ih =>
    have hne : (consumer : Int) ≠ producer := fun hc => hdiff (Int.ofNat.inj hc)
    rw [MadeUp]
    by_cases hheld : (consumer : Int) = held ∧ held ∈ before
    · have hfds' : ∀ d, d ≠ (producer : Int) →
          (d ∈ insert (consumer : Int) (insert (producer : Int) fds) ↔ d ∈ before) := by
        intro d hd
        rw [Finset.mem_insert, Finset.mem_insert]
        by_cases hdc : d = (consumer : Int)
        · simp [hdc, hheld.1, hheld.2]
        · rw [hfds d (fun hc => hdc (hc.trans hheld.1.symm))]
          simp [hdc, hd]
      rw [ih (hp.2 _ _) hfds']
      simp [hheld]
    · -- the reading side is new and stays open
      have hnew : (consumer : Int) ∉ before := by
        intro hc
        by_cases hch : (consumer : Int) = held
        · exact hheld ⟨hch, hch ▸ hc⟩
        · exact hconsumer ((hfds _ hch).2 hc)
      have hstays := hrest.mem (hp.2 _ _) (Finset.mem_insert_self _ _) hne
      constructor
      · rintro rfl
        exact absurd hstays hnew
      · intro hmade
        exact absurd ⟨hmade.1, hmade.2.1⟩ hheld
  | runProgram _ _ ih => exact ih hp hfds
  | close _ ih =>
    obtain ⟨rfl, hp⟩ := hp
    rw [ih hp fun d hd => by rw [Finset.mem_erase, hfds d hd]; exact and_iff_right hd, MadeUp]
    simp
  | error _ ih => exact ih hp hfds
  | @ret fds =>
    rw [MadeUp, decide_eq_decide]
    constructor
    · rintro rfl
      rfl
    · intro hheld
      ext d
      by_cases hd : d = held
      · rw [hd]
        exact hheld
      · exact hfds d hd

/-- An execution of `parse_line` that returns leaves open what was open at the call exactly when the number in
`pipe_fd[1]` makes up for the new descriptors. -/
theorem descriptors_eq_iff {line : List UInt8} {pipeFd : Int × Int} {before after : Finset Int} {events : List Event}
    (h : (parseLine line pipeFd).Returns before events after) :
    after = before ↔ MadeUp before pipeFd.2 (decide (pipeFd.2 ∈ before)) events :=
  h.eq_iff (parseLoop_closesHeld _ _ _ _ _) fun _ _ => Iff.rfl

/-- `cat<f` with a file that cannot be opened. -/
theorem descriptors_eq_failed :
    ∃ after, (parseLine [99, 97, 116, 60, 102, 10] (7, 8)).Returns {0, 1, 2} [.opened none] after ∧
      MadeUp {0, 1, 2} 8 false [.opened none] ∧ after = {0, 1, 2} := by
  have hreturns : (parseLine [99, 97, 116, 60, 102, 10] (7, 8)).Returns {0, 1, 2} [.opened none] {0, 1, 2} :=
    .openFailed (.error (.runProgram (by decide) .ret))
  have hmade : MadeUp {0, 1, 2} 8 false [.opened none] :=
    show false = decide ((8 : Int) ∈ ({0, 1, 2} : Finset Int)) by decide
  exact ⟨_, hreturns, hmade, (descriptors_eq_iff hreturns).2 hmade⟩

/-- `cat<f` with a file that can be opened. -/
theorem not_descriptors_eq :
    ¬∀ (line : List UInt8) (pipeFd : Int × Int) (before : Finset Int) (events : List Event) (after : Finset Int),
      (parseLine line pipeFd).Returns before events after → after = before := by
  intro h
  have heq := h [99, 97, 116, 60, 102, 10] (7, 8) {0, 1, 2} [.opened (some 3)] {3, 0, 1, 2}
    (.opened (by decide) (.runProgram (by decide) .ret))
  exact absurd heq (by decide)

end Edaf35.Shell
