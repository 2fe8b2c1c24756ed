import TaggedHeap.Fault

/-!
# Counts

Sizes and positions are numbers that a machine word holds. The program is the build that checks its
arithmetic for overflow and its own invariants while it runs. So arithmetic never wraps: a result
that does not fit is a violation, as an invariant that does not hold is one, and what was to be done
with it is not done.
-/

namespace TaggedHeap.Count

def add (a b : Nat) : Except Fault Nat :=
  if a + b < wordLimit then .ok (a + b) else .error (.violated .sumOverflow)

def mul (a b : Nat) : Except Fault Nat :=
  if a * b < wordLimit then .ok (a * b) else .error (.violated .productOverflow)

/-- The least multiple of `step` that is not below `n`. -/
def roundUp (n step : Nat) : Except Fault Nat :=
  if n % step = 0 then .ok n else add n (step - n % step)

/-- The quotient rounded up. -/
def ceilDiv (n d : Nat) : Except Fault Nat :=
  if d = 0 then .error (.violated .divisionByZero) else .ok ((n + (d - 1)) / d)

theorem add_eq_ok_iff {a b c : Nat} : add a b = .ok c ↔ a + b < wordLimit ∧ c = a + b := by
  by_cases h : a + b < wordLimit <;> simp [add, h, eq_comm]

theorem mul_eq_ok_iff {a b c : Nat} : mul a b = .ok c ↔ a * b < wordLimit ∧ c = a * b := by
  by_cases h : a * b < wordLimit <;> simp [mul, h, eq_comm]

theorem roundUp_two_eq_ok_iff {n c : Nat} (h : n < wordLimit) :
    roundUp n 2 = .ok c ↔ n + n % 2 < wordLimit ∧ c = n + n % 2 := by
  unfold roundUp
  split
  case isTrue he => simp [he, h, eq_comm]
  case isFalse he =>
    have hr : 2 - n % 2 = n % 2 := by omega
    rw [hr, add_eq_ok_iff]

end TaggedHeap.Count
