/-!
# Numerals

A number is written with the fewest digits of its base, most significant first, and zero with one
digit. Reading a list of digits as a positional value gives the number back.
-/

namespace TaggedHeap.Numeral

/-- The digits of `n`, most significant first. -/
def digits (base n : Nat) : List Nat :=
  if _h : n < base ∨ base < 2 then [n] else digits base (n / base) ++ [n % base]
termination_by n
decreasing_by exact Nat.div_lt_self (by omega) (by omega)

/-- The positional value of a list of digits, most significant first. -/
def value (base : Nat) (ds : List Nat) : Nat :=
  ds.foldl (fun n d => n * base + d) 0

theorem value_append (base : Nat) (ds : List Nat) (d : Nat) :
    value base (ds ++ [d]) = value base ds * base + d := by
  simp [value]

theorem value_digits (base n : Nat) : value base (digits base n) = n := by
  fun_induction digits base n with
  | case1 n h => simp [value]
  | case2 n h ih => rw [value_append, ih, Nat.mul_comm]; exact Nat.div_add_mod n base

/-- The character of a digit below sixteen, in lower case. -/
def digitChar (d : Nat) : Char :=
  if d < 10 then Char.ofNat (48 + d) else Char.ofNat (87 + d)

/-- The digit that an ASCII character stands for, letters of either case included. -/
def charDigit? (base : Nat) (c : Char) : Option Nat :=
  let d :=
    if '0' ≤ c ∧ c ≤ '9' then some (c.toNat - 48)
    else if 'a' ≤ c ∧ c ≤ 'z' then some (c.toNat - 87)
    else if 'A' ≤ c ∧ c ≤ 'Z' then some (c.toNat - 55)
    else none
  d.filter (· < base)

/-- The numeral of `n` in the given base. -/
def text (base n : Nat) : String :=
  String.ofList ((digits base n).map digitChar)

def decimal (n : Nat) : String := text 10 n

/-- A negative number is its magnitude behind a minus sign. -/
def signedDecimal : Int → String
  | .ofNat n => decimal n
  | .negSucc n => "-" ++ decimal (n + 1)

/-- Hexadecimal behind `0x`, the form in which addresses and raw words are shown. -/
def hex (n : Nat) : String := "0x" ++ text 16 n

/-- Zeros in front of the digits up to the given count. -/
def zeroFilled (base count n : Nat) : String :=
  let ds := (digits base n).map digitChar
  String.ofList (List.replicate (count - ds.length) '0' ++ ds)

end TaggedHeap.Numeral
