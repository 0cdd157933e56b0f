import HeaderIndex.Scan.Basic

/-! Scanning by several workers. Files start and finish in any order, with no more of
them in work at once than there are workers. What comes of a file goes to the slot
of its index, and each finished file is announced. When nothing is left to do the
report is made from the slots, in their order. -/

namespace HeaderIndex.Scan

/-- What happens to the file of an index. -/
inductive Event where
  | start (index : Nat)
  | finish (index : Nat)
  deriving DecidableEq, Repr

structure Work where
  /-- Indices of the files that no worker has taken. -/
  waiting : List Nat
  /-- Indices of the files in work. -/
  running : List Nat
  /-- What came of the files, where that is known. -/
  slots : List (Option (Except Failure Record))
  /-- The finished files, in the order in which they finished. -/
  announced : List Path

namespace Work

def start (paths : List Path) : Work :=
  ⟨List.range paths.length, [], List.replicate paths.length none, []⟩

/-- The work behind an event; `none` if the event cannot happen now. -/
def step? (fs : FileSystem) (paths : List Path) (workers : Nat) (w : Work) : Event → Option Work
  | .start i =>
    if w.waiting.contains i && w.running.length < workers then
      some { w with waiting := w.waiting.erase i, running := w.running ++ [i] }
    else none
  | .finish i =>
    if w.running.contains i then
      paths[i]?.map fun path =>
        { w with
          running := w.running.erase i
          slots := w.slots.set i (some (outcome fs path))
          announced := w.announced ++ [path] }
    else none

/-- The work behind a schedule, if the schedule can happen. -/
def after? (fs : FileSystem) (paths : List Path) (workers : Nat) (schedule : List Event) :
    Option Work :=
  schedule.foldlM (step? fs paths workers) (start paths)

def isDone (w : Work) : Bool := w.waiting.isEmpty && w.running.isEmpty

/-- The report on what the slots hold. -/
def report (w : Work) (elapsedMs : Nat) : Report :=
  Scan.report (w.slots.filterMap id) elapsedMs

end Work

end HeaderIndex.Scan
