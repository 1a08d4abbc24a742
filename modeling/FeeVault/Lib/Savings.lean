import Mathlib.Algebra.BigOperators.Group.List.Basic
import Mathlib.Algebra.Order.Ring.Defs
import Mathlib.Tactic.Linarith
import Mathlib.Tactic.Ring

/-!
# Savings accounts, and how far rounding may take one from its balance

A savings account earns interest and has amounts credited and debited, exactly.  Whoever keeps it in
whole units of something else rounds at every posting, and what was lost or gained then earns
interest too.

* `Posting` — interest, an amount, and how far off the books may be after it;
* `balance` — the exact account, which is linear in what it starts with (`balance_eq`);
* `compound` — amounts summed up with the interest on each from then on;
* `Books` — books that follow the account up to the error of each posting; `Books.bounds` — they end
  up within the compounded errors of the balance.
-/

namespace Savings

/-- What happens to an account. -/
structure Posting (K : Type*) where
  /-- The factor by which the balance grows first. -/
  growth : K
  /-- What is credited then; a debit is a negative amount. -/
  amount : K
  /-- How much too low the books may be. -/
  short : K
  /-- How much too high they may be. -/
  surplus : K

variable {K : Type*} [CommRing K]

/-- By what an account grows that nothing is credited to. -/
def growth (ps : List (Posting K)) : K := (ps.map Posting.growth).prod

/-- The account after a list of postings. -/
def balance : List (Posting K) → K → K
  | [], x => x
  | p :: ps, x => balance ps (x * p.growth + p.amount)

/-- The sum of `f` over the postings, each with the interest of those after it. -/
def compound (f : Posting K → K) : List (Posting K) → K
  | [] => 0
  | p :: ps => f p * growth ps + compound f ps

/-- The books go from `x` to `x'` at the posting. -/
structure Booked [LinearOrder K] (p : Posting K) (x x' : K) : Prop where
  growth_nonneg : 0 ≤ p.growth
  lower : x * p.growth + p.amount - p.short ≤ x'
  upper : x' ≤ x * p.growth + p.amount + p.surplus

/-- The books go from one balance to another over a list of postings. -/
inductive Books [LinearOrder K] : List (Posting K) → K → K → Prop
  | nil (x : K) : Books [] x x
  | cons {p ps x x' y} (posting : Booked p x x') (rest : Books ps x' y) : Books (p :: ps) x y

section Balance

variable {p : Posting K} {ps : List (Posting K)}

@[simp] theorem growth_nil : growth ([] : List (Posting K)) = 1 := rfl

@[simp] theorem growth_cons : growth (p :: ps) = p.growth * growth ps := by simp [growth]

/-- What is there to begin with earns all the interest. -/
theorem balance_eq (ps : List (Posting K)) (x : K) :
    balance ps x = x * growth ps + compound Posting.amount ps := by
  induction ps generalizing x with
  | nil => simp [balance, compound]
  | cons p ps ih =>
    rw [balance, ih, growth_cons, compound]
    ring

/-- Where no posting contributes, nothing accumulates: the bounds below close up to an equality
    on books that round nothing. -/
theorem compound_eq_zero {f : Posting K → K} (h : ∀ p ∈ ps, f p = 0) : compound f ps = 0 := by
  induction ps with
  | nil => rfl
  | cons p ps ih =>
    rw [compound, h p List.mem_cons_self, ih fun q hq => h q (List.mem_cons_of_mem p hq)]
    simp

end Balance

variable [LinearOrder K] {p : Posting K} {ps qs : List (Posting K)} {x x' y : K}

/-- Books kept in two parts are the books of all postings, the second part starting from what the
    first ended with. -/
theorem Books.append (h : Books ps x x') (h' : Books qs x' y) : Books (ps ++ qs) x y := by
  induction h with
  | nil => exact h'
  | cons posting _ ih => exact .cons posting (ih h')

/-- One posting booked is a book of one posting. -/
theorem Books.single (h : Booked p x y) : Books [p] x y := .cons h (.nil y)

variable [IsStrictOrderedRing K]

/-- Interest never turns a balance around: the growth of all postings together is not
    negative. -/
theorem Books.growth_nonneg (h : Books ps x y) : 0 ≤ growth ps := by
  induction h with
  | nil => exact zero_le_one
  | cons posting _ ih =>
    rw [growth_cons]
    exact mul_nonneg posting.growth_nonneg ih

/-- **Books.**  They end up no further below the balance than what every posting may have cost, and
    no further above it than what every posting may have brought, each with the interest since. -/
theorem Books.bounds (h : Books ps x y) :
    balance ps x - compound Posting.short ps ≤ y ∧
      y ≤ balance ps x + compound Posting.surplus ps := by
  induction h with
  | nil x => simp [balance, compound]
  | @cons p ps x x' y posting rest ih =>
    obtain ⟨hlow, hupp⟩ := ih
    -- an error of the first posting earns interest like a balance
    have hshort := mul_le_mul_of_nonneg_right posting.lower rest.growth_nonneg
    have hsurplus := mul_le_mul_of_nonneg_right posting.upper rest.growth_nonneg
    rw [balance_eq] at hlow hupp
    rw [balance_eq, growth_cons, compound, compound, compound]
    constructor <;> linarith

/-- An account left alone, and kept without loss, earns all the interest. -/
theorem Books.growth_le (h : Books ps x y) (hamount : ∀ p ∈ ps, p.amount = 0)
    (hshort : ∀ p ∈ ps, p.short = 0) : x * growth ps ≤ y := by
  have hlow := h.bounds.1
  rwa [balance_eq, compound_eq_zero hamount, compound_eq_zero hshort, add_zero, sub_zero] at hlow

end Savings
