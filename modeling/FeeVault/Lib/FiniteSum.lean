import Mathlib.Algebra.BigOperators.Finprod
import Mathlib.Algebra.Order.BigOperators.Group.Finset
import Mathlib.Data.Int.Order.Basic
import Mathlib.Algebra.Order.Ring.Int

/-!
# Sums of finitely supported balances

A ledger maps accounts to balances, and only finitely many accounts hold anything.  `total`
facts are stated with Mathlib's `∑ᶠ`; this file adds the one movement a ledger makes, changing
the balance of a single account.
-/

namespace FiniteSum

variable {ι : Type*} [DecidableEq ι] {f : ι → ℤ} {i : ι} {x : ℤ}

/-- A movement touches one account more at most, so finitely many still hold anything. -/
theorem support_update_finite (hf : (Function.support f).Finite) :
    (Function.support (Function.update f i x)).Finite := by
  apply (hf.insert i).subset
  intro j hj
  by_cases h : j = i
  · exact Set.mem_insert_iff.2 (Or.inl h)
  · rw [Function.mem_support, Function.update_of_ne h] at hj
    exact Set.mem_insert_of_mem i hj

/-- Changing one balance changes the total by the difference: the old and the new ledger differ
    by a single entry. -/
theorem finsum_update (hf : (Function.support f).Finite) :
    ∑ᶠ j, Function.update f i x j = (∑ᶠ j, f j) + (x - f i) := by
  have hsplit : Function.update f i x = fun j => f j + (Pi.single i (x - f i) : ι → ℤ) j := by
    funext j
    by_cases h : j = i
    · subst h; simp
    · simp [Function.update_of_ne h, Pi.single_eq_of_ne h]
  have hsingle : (Function.support (Pi.single i (x - f i) : ι → ℤ)).Finite :=
    (Set.finite_singleton i).subset Pi.support_single_subset
  rw [hsplit, finsum_add_distrib hf hsingle]
  congr 1
  rw [finsum_eq_single _ i fun j hj => Pi.single_eq_of_ne hj _, Pi.single_eq_same]

omit [DecidableEq ι] in
/-- No part of a ledger of non-negative balances exceeds its total. -/
theorem sum_le_finsum (hf : (Function.support f).Finite) (h0 : ∀ j, 0 ≤ f j) (F : Finset ι) :
    ∑ j ∈ F, f j ≤ ∑ᶠ j, f j := by
  classical
  have hsub : Function.support f ⊆ (F ∪ hf.toFinset : Finset ι) := by
    intro j hj
    simp [Function.mem_support.1 hj]
  rw [finsum_eq_finsetSum_of_support_subset f hsub]
  exact Finset.sum_le_sum_of_subset_of_nonneg Finset.subset_union_left fun j _ _ => h0 j

omit [DecidableEq ι] in
/-- In particular, no single balance exceeds the total. -/
theorem le_finsum (hf : (Function.support f).Finite) (h0 : ∀ j, 0 ≤ f j) (j : ι) :
    f j ≤ ∑ᶠ j, f j := by
  simpa using sum_le_finsum hf h0 {j}

/-! ### The holdings of a group of accounts -/

section Group

variable {C : Set ι}

omit [DecidableEq ι] in
/-- Of the accounts of a group, too, only finitely many hold anything. -/
theorem support_indicator_finite (hf : (Function.support f).Finite) :
    (Function.support (C.indicator f)).Finite :=
  hf.subset (Set.support_indicator (s := C) (f := f) ▸ Set.inter_subset_right)

/-- Changing the balance of a member changes the group's total by the difference. -/
theorem finsum_mem_update (hf : (Function.support f).Finite) (hi : i ∈ C) :
    ∑ᶠ j ∈ C, Function.update f i x j = (∑ᶠ j ∈ C, f j) + (x - f i) := by
  classical
  have hswap : C.indicator (Function.update f i x) = Function.update (C.indicator f) i x := by
    funext j
    by_cases h : j = i
    · subst h; simp [hi]
    · simp [Set.indicator_apply, Function.update_of_ne h]
  rw [finsum_mem_def, finsum_mem_def, hswap, finsum_update (support_indicator_finite hf),
    Set.indicator_of_mem hi]

omit [DecidableEq ι] in
/-- No finite part of a group holds more than the group. -/
theorem sum_le_finsum_mem (hf : (Function.support f).Finite) (h0 : ∀ j, 0 ≤ f j) {F : Finset ι}
    (hF : ∀ j ∈ F, j ∈ C) : ∑ j ∈ F, f j ≤ ∑ᶠ j ∈ C, f j := by
  rw [finsum_mem_def, ← Finset.sum_congr rfl fun j hj => Set.indicator_of_mem (hF j hj) f]
  exact sum_le_finsum (support_indicator_finite hf) (Set.indicator_nonneg fun j _ => h0 j) F

omit [DecidableEq ι] in
/-- No group holds more than everybody. -/
theorem finsum_mem_le_finsum (hf : (Function.support f).Finite) (h0 : ∀ j, 0 ≤ f j) :
    ∑ᶠ j ∈ C, f j ≤ ∑ᶠ j, f j := by
  have hsub : Function.support (C.indicator f) ⊆ hf.toFinset := by
    rw [hf.coe_toFinset]
    exact Set.support_indicator (s := C) (f := f) ▸ Set.inter_subset_right
  rw [finsum_mem_def, finsum_eq_finsetSum_of_support_subset _ hsub]
  exact (Finset.sum_le_sum fun j _ => Set.indicator_le_self' (fun j _ => h0 j) j).trans
    (sum_le_finsum hf h0 hf.toFinset)

end Group

end FiniteSum
