import Mathlib.Logic.Function.Basic

/-!
# Descriptor tables

What each descriptor of a process leads to, or `none` where it is not open.  The calls on descriptors copy what a
table holds from one number to another or drop it; nothing new is held but what is assigned.
-/

namespace Edaf35

/-- The descriptors of a process. -/
abbrev DescriptorTable (ε : Type*) := Int → Option ε

namespace DescriptorTable

variable {ε : Type*}

def assign (files : DescriptorTable ε) (fd : Int) (e : ε) : DescriptorTable ε := Function.update files fd (some e)

def close (files : DescriptorTable ε) (fd : Int) : DescriptorTable ε := Function.update files fd none

/-- `dup2` fails where `oldFd` is not open, and does nothing where the two are equal. -/
def dup2 (files : DescriptorTable ε) (oldFd newFd : Int) : DescriptorTable ε :=
  match files oldFd with
  | none => files
  | some e => files.assign newFd e

def Holds (files : DescriptorTable ε) (e : ε) : Prop := ∃ fd, files fd = some e

variable {files : DescriptorTable ε} {fd fd' oldFd newFd : Int} {e e' : ε}

@[simp] theorem assign_self : files.assign fd e fd = some e := Function.update_self ..

theorem assign_ne (h : fd' ≠ fd) : files.assign fd e fd' = files fd' := Function.update_of_ne h ..

@[simp] theorem close_self : files.close fd fd = none := Function.update_self ..

theorem close_ne (h : fd' ≠ fd) : files.close fd fd' = files fd' := Function.update_of_ne h ..

theorem dup2_self : files.dup2 fd fd = files := by
  unfold dup2
  split
  · rfl
  · rename_i e h
    rw [assign, ← h, Function.update_eq_self]

theorem dup2_open (h : files oldFd = some e) : files.dup2 oldFd newFd = files.assign newFd e := by
  simp only [dup2, h]

theorem dup2_closed (h : files oldFd = none) : files.dup2 oldFd newFd = files := by
  simp only [dup2, h]

theorem dup2_ne (h : fd ≠ newFd) : files.dup2 oldFd newFd fd = files fd := by
  cases hold : files oldFd with
  | none => rw [dup2_closed hold]
  | some e => rw [dup2_open hold, assign_ne h]

theorem dup2_isOpen (h : files fd ≠ none) : files.dup2 oldFd newFd fd ≠ none := by
  cases hold : files oldFd with
  | none => rwa [dup2_closed hold]
  | some e =>
    rw [dup2_open hold]
    by_cases hfd : fd = newFd
    · subst hfd
      simp
    · rwa [assign_ne hfd]

/-! ### What is held after a call -/

theorem assign_eq_some (h : files.assign fd e fd' = some e') : fd' = fd ∧ e' = e ∨ files fd' = some e' := by
  by_cases hfd : fd' = fd
  · subst hfd
    rw [assign_self] at h
    cases h
    exact .inl ⟨rfl, rfl⟩
  · rw [assign_ne hfd] at h
    exact .inr h

theorem close_eq_some (h : files.close fd fd' = some e) : fd' ≠ fd ∧ files fd' = some e := by
  have hfd : fd' ≠ fd := by
    rintro rfl
    rw [close_self] at h
    cases h
  exact ⟨hfd, by rwa [close_ne hfd] at h⟩

theorem dup2_eq_some (h : files.dup2 oldFd newFd fd = some e) :
    fd = newFd ∧ files oldFd = some e ∨ files fd = some e := by
  cases hold : files oldFd with
  | none => exact .inr (by rwa [dup2_closed hold] at h)
  | some x =>
    rw [dup2_open hold] at h
    rcases assign_eq_some h with ⟨hfd, rfl⟩ | hsame
    · exact .inl ⟨hfd, rfl⟩
    · exact .inr hsame

theorem Holds.of_assign (h : (files.assign fd e).Holds e') : e' = e ∨ files.Holds e' := by
  obtain ⟨fd', h⟩ := h
  rcases assign_eq_some h with ⟨-, he⟩ | hsame
  · exact .inl he
  · exact .inr ⟨fd', hsame⟩

theorem Holds.of_close (h : (files.close fd).Holds e) : files.Holds e := by
  obtain ⟨fd', h⟩ := h
  exact ⟨fd', (close_eq_some h).2⟩

theorem Holds.of_dup2 (h : (files.dup2 oldFd newFd).Holds e) : files.Holds e := by
  obtain ⟨fd', h⟩ := h
  rcases dup2_eq_some h with ⟨-, hold⟩ | hsame
  · exact ⟨oldFd, hold⟩
  · exact ⟨fd', hsame⟩

/-- A descriptor that is not open is given away without a loss. -/
theorem Holds.assign (h : files.Holds e') (hfree : files fd = none) : (files.assign fd e).Holds e' := by
  obtain ⟨fd', h⟩ := h
  refine ⟨fd', ?_⟩
  rw [assign_ne, h]
  rintro rfl
  rw [hfree] at h
  cases h

/-- What another descriptor leads to is not lost by a `close`. -/
theorem Holds.close (h : files.Holds e) (hfd : files fd ≠ some e) : (files.close fd).Holds e := by
  obtain ⟨fd', h⟩ := h
  refine ⟨fd', ?_⟩
  rw [close_ne, h]
  rintro rfl
  exact hfd h

end DescriptorTable

end Edaf35
