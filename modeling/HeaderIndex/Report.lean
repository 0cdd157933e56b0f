import HeaderIndex.Catalogue
import HeaderIndex.Text.Number

/-! Reports: what a run over many files came to. -/

namespace HeaderIndex

/-- A file that could not be read, and why. -/
structure Failure where
  path : Path
  error : String
  deriving DecidableEq, Repr

def Failure.message (f : Failure) : String := f.path.display ++ ": " ++ f.error

structure Stats where
  /-- All files that were tried, those that failed included. -/
  filesScanned : Nat
  filesFailed : Nat
  symbols : Nat
  elapsedMs : Nat
  deriving DecidableEq, Repr

structure Report where
  catalogue : Catalogue
  failures : List Failure
  stats : Stats
  deriving DecidableEq, Repr

namespace Report

/-- The longest time a report can state, in milliseconds. -/
def maxElapsed : Nat := Text.wordLimit - 1

/-- A report on a catalogue and failures. The failures are put in path order, those
of one path in the order given. -/
def make (catalogue : Catalogue) (failures : List Failure) (elapsedMs : Nat) : Report where
  catalogue := catalogue
  failures := failures.mergeSort fun a b => a.path.le b.path
  stats := {
    filesScanned := catalogue.size + failures.length
    filesFailed := failures.length
    symbols := catalogue.symbolCount
    elapsedMs := min elapsedMs maxElapsed }

def hasFailures (r : Report) : Bool := !r.failures.isEmpty

end Report

end HeaderIndex
