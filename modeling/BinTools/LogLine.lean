import BinTools.CString

namespace BinTools.LogLine

/-!
# Lines for the log

The linker formats a line with `sprintf` into `char max_name[100]` before it
logs it.  Nothing looks at the length of a name, so a line of a hundred
characters or more is written behind the buffer, into the frame of the function.
That is a fault here, and all that is kept of a line is its length.
-/

/-- `char max_name[100]` -/
def maxName : Nat := 100

/-- The digits of a number, of which there are at most one more than `fuel`. -/
def digitCount (base : Nat) : Nat → Nat → Nat
  | 0, _ => 1
  | fuel + 1, value =>
      if value < base then 1 else digitCount base fuel (value / base) + 1

/-- `%d`: the digits of an `int`, behind a sign when it is negative. -/
def intLength (value : Nat) : Nat :=
  if value < 2 ^ 31 then
    digitCount 10 9 value
  else
    digitCount 10 9 (2 ^ 32 - value) + 1

/-- `%p`: `(nil)`, or the digits of a pointer behind `0x`. -/
def pointerLength (value : Nat) : Nat :=
  if value = 0 then 5 else digitCount 16 15 value + 2

/-- The characters of a line: those of its text and those of its arguments. -/
def lineLength (text : String) (arguments : List Nat) : Nat :=
  text.length + arguments.sum

/-- A line and its terminator stay within the buffer. -/
def IsLogged (length : Nat) : Prop :=
  length < maxName

instance (length : Nat) : Decidable (IsLogged length) :=
  inferInstanceAs (Decidable (_ < _))

/-- A number has a digit. -/
theorem digitCount_pos (base fuel value : Nat) :
    0 < digitCount base fuel value := by
  cases fuel with
  | zero => exact Nat.one_pos
  | succ fuel =>
      unfold digitCount
      split <;> omega

/-- A number below a power of the base has no more digits than its exponent. -/
theorem digitCount_le
    {base fuel value digits : Nat} (isBelow : value < base ^ (digits + 1)) :
    digitCount base fuel value ≤ digits + 1 := by
  induction fuel generalizing value digits with
  | zero => exact Nat.succ_le_succ (Nat.zero_le digits)
  | succ fuel inductionHypothesis =>
      unfold digitCount
      split
      · exact Nat.succ_le_succ (Nat.zero_le digits)
      · cases digits with
        | zero =>
            rw [zero_add, pow_one] at isBelow
            omega
        | succ digits =>
            apply Nat.succ_le_succ
            apply inductionHypothesis
            rw [Nat.div_lt_iff_lt_mul (by
              rcases Nat.eq_zero_or_pos base with rfl | positive
              · simp at isBelow
              · exact positive)]
            rwa [← Nat.pow_succ]

/-- A pointer is written with three characters at least. -/
theorem three_le_pointerLength (value : Nat) : 3 ≤ pointerLength value := by
  have positive := digitCount_pos 16 15 value
  unfold pointerLength
  split <;> omega

/-- A number of 16 bits is written with six characters at most. -/
theorem pointerLength_le_six {value : Nat} (isBelow : value < 2 ^ 16) :
    pointerLength value ≤ 6 := by
  have digits : digitCount 16 15 value ≤ 4 :=
    digitCount_le (by omega : value < 16 ^ (3 + 1))
  unfold pointerLength
  split <;> omega

/-- A number is written with a character at least. -/
theorem intLength_pos (value : Nat) : 0 < intLength value := by
  have positive := digitCount_pos 10 9 value
  unfold intLength
  split <;> omega

/-! ## The lines about sections and exported symbols -/

/-- The line of `alloc_section_container`. -/
def sectionContainerLine (name : CString) : Nat :=
  lineLength "[link/section.c]\t alloc section container : \n" [name.length]

/-- The line of `alloc_export_symbol_chain`. -/
def exportChainLine (name : CString) : Nat :=
  lineLength "[link/elf/symbol.c]\t alloc export symbol chain : \n"
    [name.length]

/-- The name of a container has fewer than 55 characters. -/
theorem isLogged_sectionContainerLine_iff (name : CString) :
    IsLogged (sectionContainerLine name) ↔ name.length < 55 := by
  have text :
      "[link/section.c]\t alloc section container : \n".length = 45 := rfl
  simp only [IsLogged, maxName, sectionContainerLine, lineLength, text,
    List.sum_singleton]
  omega

/-- The name of an exported symbol has fewer than 50 characters. -/
theorem isLogged_exportChainLine_iff (name : CString) :
    IsLogged (exportChainLine name) ↔ name.length < 50 := by
  have text :
      "[link/elf/symbol.c]\t alloc export symbol chain : \n".length = 50 :=
    rfl
  simp only [IsLogged, maxName, exportChainLine, lineLength, text,
    List.sum_singleton]
  omega

end BinTools.LogLine
