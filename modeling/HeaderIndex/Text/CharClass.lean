/-! Classes of characters above ASCII as closed intervals of code points, and white space.
A table lists its intervals in increasing order, so a search may stop at the first one
that starts above the code point it looks for. -/

namespace HeaderIndex.Text

/-- Whether each interval is non-empty and starts above the end of the one before it. -/
def increasingFrom : Nat → List (Nat × Nat) → Bool
  | _, [] => true
  | bound, (lo, hi) :: rest =>
    decide (bound ≤ lo) && decide (lo ≤ hi) && increasingFrom (hi + 1) rest

/-- Closed intervals of code points, in increasing order. -/
structure Ranges where
  intervals : List (Nat × Nat)
  increasing : increasingFrom 0 intervals = true := by decide +kernel

namespace Ranges

def search : List (Nat × Nat) → Nat → Bool
  | [], _ => false
  | (lo, hi) :: rest, n => if n < lo then false else decide (n ≤ hi) || search rest n

def covers (table : Ranges) (n : Nat) : Bool := search table.intervals n

theorem le_of_mem_of_increasingFrom {bound : Nat} {intervals : List (Nat × Nat)}
    {r : Nat × Nat} (h : increasingFrom bound intervals = true) (hr : r ∈ intervals) :
    bound ≤ r.1 := by
  induction intervals generalizing bound with
  | nil => cases hr
  | cons first rest ih =>
    obtain ⟨lo, hi⟩ := first
    simp only [increasingFrom, Bool.and_eq_true, decide_eq_true_eq] at h
    rcases List.mem_cons.mp hr with rfl | hr
    · exact h.1.1
    · have := ih h.2 hr
      omega

theorem search_iff {bound : Nat} {intervals : List (Nat × Nat)} {n : Nat}
    (h : increasingFrom bound intervals = true) :
    search intervals n = true ↔ ∃ r ∈ intervals, r.1 ≤ n ∧ n ≤ r.2 := by
  induction intervals generalizing bound with
  | nil => simp [search]
  | cons first rest ih =>
    obtain ⟨lo, hi⟩ := first
    have habove := le_of_mem_of_increasingFrom h (r := (lo, hi)) List.mem_cons_self
    simp only [increasingFrom, Bool.and_eq_true, decide_eq_true_eq] at h
    simp only [List.mem_cons, exists_eq_or_imp, ← ih h.2, search]
    by_cases hn : n < lo
    · -- every later interval starts above this one
      have hrest : ¬search rest n = true := by
        rw [ih h.2]
        rintro ⟨r, hr, hlo, -⟩
        have := le_of_mem_of_increasingFrom h.2 hr
        omega
      simp only [hn, if_true, Bool.false_eq_true, hrest, or_false, false_iff]
      omega
    · simp only [hn, if_false, Bool.or_eq_true, decide_eq_true_eq]
      exact or_congr_left ⟨fun hhi => ⟨by omega, hhi⟩, And.right⟩

/-- Stopping early misses nothing. -/
theorem covers_iff (table : Ranges) (n : Nat) :
    table.covers n = true ↔ ∃ r ∈ table.intervals, r.1 ≤ n ∧ n ≤ r.2 :=
  search_iff table.increasing

end Ranges

def blankRanges : Ranges where
  intervals :=
    [(0x85, 0x85), (0xa0, 0xa0), (0x1680, 0x1680), (0x2000, 0x200a), (0x2028, 0x2029),
    (0x202f, 0x202f), (0x205f, 0x205f), (0x3000, 0x3000)]

/-- White space: tab to carriage return, the space, and the blanks above ASCII. -/
def isBlank (c : Char) : Bool :=
  if c.toNat < 0x80 then c == ' ' || (9 ≤ c.toNat && c.toNat ≤ 13)
    else blankRanges.covers c.toNat

/-- A space or a tab, the blanks that indent a line. -/
def isIndent (c : Char) : Bool := c == ' ' || c == '\t'

def trimStart (text : List Char) : List Char := text.dropWhile isBlank

def trimEnd (text : List Char) : List Char := (text.reverse.dropWhile isBlank).reverse

def trim (text : List Char) : List Char := trimEnd (trimStart text)

end HeaderIndex.Text
