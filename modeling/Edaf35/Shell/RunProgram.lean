import Edaf35.Shell.ParseLine

/-!
# `run_program`

Like `parse_line`, `run_program` is the tree of the calls that it makes.  It goes on in two processes after `fork`,
and in the child it is over when `execv` replaces the program; what it does where `execv` fails is part of the tree.
-/

namespace Edaf35.Shell

/-- What `run_program` goes on to do.  `fork` answers the parent with the child's number, or `none` for -1. -/
inductive Run
  | exit (status : Nat)
  | getcwd (next : Option (List UInt8) → Run)
  | chdir (dir : Option (List UInt8)) (next : Run)
  | fork (inChild : Run) (inParent : Option Nat → Run)
  | access (path : List UInt8) (next : Bool → Run)
  | dup2 (oldFd newFd : Int) (next : Run)
  | execv (path : List UInt8) (argv : List (List UInt8)) (failed : Run)
  | waitpid (pid : Int) (next : Run)
  | error (fmt : String) (next : Run)
  /-- The return to `parse_line`, with the new value of `old_dir`. -/
  | ret (oldDir : Option (List UInt8))

/-- The string "exit". -/
def exitName : List UInt8 := [101, 120, 105, 116]

/-- The string "cd". -/
def cdName : List UInt8 := [99, 100]

def slash : UInt8 := 47

def dash : UInt8 := 45

/-- What `snprintf` puts into `buf` for the format "%s/%s". -/
def pathIn (dir name : List UInt8) : List UInt8 := (dir ++ slash :: name).take (4096 - 1)

/-- The loop over `path_dir_list`, which leaves the path it stops at in `buf`. -/
def searchPath (name : List UInt8) : (dirs : List (List UInt8)) → (buf : List UInt8) → (List UInt8 → Run) → Run
  | [], buf, next => next buf
  | dir :: dirs, _, next =>
    .access (pathIn dir name) fun found =>
      if found then next (pathIn dir name) else searchPath name dirs (pathIn dir name) next

def dup2Unless (fd fileno : Int) (next : Run) : Run := if fd ≠ fileno then .dup2 fd fileno next else next

/-- `run_program` with `home` the value of `HOME`, and `oldDirTmp` and `buf` the contents of the uninitialised arrays
of these names. -/
def runProgram (pathDirList : List (List UInt8)) (home : Option (List UInt8)) (call : Call) (inputFd outputFd : Int)
    (oldDir : Option (List UInt8)) (oldDirTmp buf : List UInt8) : Run :=
  let name := call.argv.headD []
  if name = exitName then .exit 0
  else if name = cdName then
    match call.argv.tail with
    | [] => .chdir home (.ret oldDir)
    | dir :: _ =>
      .getcwd fun cwd =>
        .chdir (some (if dir.head? = some dash then oldDir.getD oldDirTmp else dir)) (.ret cwd)
  else
    .fork
      -- the child runs the path it stopped at, found or not
      (searchPath name pathDirList buf fun path =>
        dup2Unless inputFd stdinFileno <| dup2Unless outputFd stdoutFileno <| .execv path call.argv (.ret oldDir))
      fun child =>
        if call.foreground && !call.doingPipe then .waitpid (child.elim (-1) (↑)) (.ret oldDir)
        else if child = none then .error "Fork failed" (.exit 1)
        else .ret oldDir

end Edaf35.Shell
