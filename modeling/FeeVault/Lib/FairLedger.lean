import FeeVault.Lib.SharePool
import Mathlib.Algebra.BigOperators.Ring.Finset
import Mathlib.Algebra.Order.Field.Basic
import Mathlib.Data.Nat.Cast.Order.Ring
import Mathlib.Tactic.Linarith

/-!
# Fair ledgers — balances without rounding, and how far rounding may take one from them

A fair ledger keeps an exact balance for every account and moves it by a list of `Move`s: one
account is credited, or all accounts are scaled by the same factor.  A ledger that rounds credits
against the account that moves (`Rounded`) hands the difference to the others.

* `Rounded` — one move of such a ledger: the mover loses at most one unit to the others, and scaling
  is exact and does not raise anything;
* `RoundedRun.tracks` — after any list of moves a balance lies at most one unit for each of the
  account's own credits below the fair one, and at most one unit for each of the others' above it;
* `total_run` — on finitely many accounts the fair balances add up as the moves say, so the fair
  ledger shares out no less than there is;
* `deposit_rounded` / `withdraw_rounded` / `skim_rounded` — what the holders of a `SharePool` can
  claim is a ledger that rounds in this way.
-/

namespace FairLedger

variable {ι K : Type*}

/-- What happens to a ledger. -/
inductive Move (ι K : Type*)
  /-- One account is credited; a debit is a negative credit. -/
  | credit (i : ι) (x : K)
  /-- All accounts are scaled by the same factor. -/
  | scale (k : K)

/-- Whether a move is one of account `i`. -/
def Move.isOf [DecidableEq ι] (i : ι) : Move ι K → Bool
  | .credit j _ => j = i
  | .scale _ => false

/-- Whether a move is one of an account other than `i`. -/
def Move.isOfOther [DecidableEq ι] (i : ι) : Move ι K → Bool
  | .credit j _ => j ≠ i
  | .scale _ => false

/-- How many of the moves are those of account `i`. -/
def own [DecidableEq ι] (i : ι) (ms : List (Move ι K)) : ℕ := ms.countP (Move.isOf i)

/-- How many of the moves are those of accounts other than `i`. -/
def others [DecidableEq ι] (i : ι) (ms : List (Move ι K)) : ℕ := ms.countP (Move.isOfOther i)

variable [DecidableEq ι] [Field K] [LinearOrder K] [IsStrictOrderedRing K]

/-- A move, carried out exactly. -/
def Move.apply (f : ι → K) : Move ι K → ι → K
  | .credit i x => Function.update f i (f i + x)
  | .scale k => fun j => k * f j

/-- The fair balances after a list of moves. -/
def run (ms : List (Move ι K)) (f : ι → K) : ι → K := ms.foldl Move.apply f

/-- A move, carried out from the balances `f` to `g` with the rounding against the mover. -/
inductive Rounded : Move ι K → (ι → K) → (ι → K) → Prop
  | credit {i x f g} (lower : f i + x - 1 ≤ g i) (upper : g i ≤ f i + x)
      (others_lower : ∀ j, j ≠ i → f j ≤ g j) (others_upper : ∀ j, j ≠ i → g j ≤ f j + 1) :
      Rounded (.credit i x) f g
  | scale {k f g} (nonneg : 0 ≤ k) (le_one : k ≤ 1) (eq : ∀ j, g j = k * f j) :
      Rounded (.scale k) f g

/-- A list of moves, each carried out with rounding. -/
inductive RoundedRun : List (Move ι K) → (ι → K) → (ι → K) → Prop
  | nil (f) : RoundedRun [] f f
  | cons {m ms f g h} (step : Rounded m f g) (rest : RoundedRun ms g h) : RoundedRun (m :: ms) f h

omit [DecidableEq ι] [IsStrictOrderedRing K] in
/-- Two rounded runs, one from where the other ended, are a rounded run of the moves of both. -/
theorem RoundedRun.append {ms ns : List (Move ι K)} {f g h : ι → K} (h₁ : RoundedRun ms f g)
    (h₂ : RoundedRun ns g h) : RoundedRun (ms ++ ns) f h := by
  induction h₁ with
  | nil => exact h₂
  | cons step _ ih => exact .cons step (ih h₂)

omit [DecidableEq ι] [IsStrictOrderedRing K] in
/-- One rounded move is a rounded run, the case of a transaction that makes a single move. -/
theorem RoundedRun.single {m : Move ι K} {f g : ι → K} (h : Rounded m f g) : RoundedRun [m] f g :=
  .cons h (.nil g)

omit [LinearOrder K] [IsStrictOrderedRing K] in
/-- The fair ledger, too, can be run in two parts. -/
theorem run_append (ms ns : List (Move ι K)) (f : ι → K) :
    run (ms ++ ns) f = run ns (run ms f) := List.foldl_append

/-! ### Tracking -/

section Tracking

variable {i : ι} {m : Move ι K} {ms : List (Move ι K)} {f g g' : ι → K} {a b : ℕ}

/-- The balance `g i` lies at most `a` below and at most `b` above the fair one. -/
def Tracks (i : ι) (a b : ℕ) (f g : ι → K) : Prop := f i - a ≤ g i ∧ g i ≤ f i + b

/-- **One move.**  Scaling does not widen the band, a move of the account lowers its bottom by one
    and a move of another account raises its top by one. -/
theorem Rounded.tracks (h : Rounded m g g') (hf : Tracks i a b f g) :
    Tracks i (a + own i [m]) (b + others i [m]) (m.apply f) g' := by
  obtain ⟨hlow, hupp⟩ := hf
  cases h with
  | @credit j x _ _ lower upper others_lower others_upper =>
    by_cases hij : j = i
    · subst hij
      have hown : own j [(.credit j x : Move ι K)] = 1 := by simp [own, Move.isOf]
      have hothers : others j [(.credit j x : Move ι K)] = 0 := by simp [others, Move.isOfOther]
      rw [Tracks, Move.apply, Function.update_self, hown, hothers]
      push_cast
      constructor <;> linarith
    · have hown : own i [(.credit j x : Move ι K)] = 0 := by simp [own, Move.isOf, hij]
      have hothers : others i [(.credit j x : Move ι K)] = 1 := by
        simp [others, Move.isOfOther, hij]
      have h1 := others_lower i (Ne.symm hij)
      have h2 := others_upper i (Ne.symm hij)
      rw [Tracks, Move.apply, Function.update_of_ne (Ne.symm hij), hown, hothers]
      push_cast
      constructor <;> linarith
  | @scale k _ _ nonneg le_one eq =>
    -- a band of width at most `1 · a` and `1 · b` stays within itself
    have ha := mul_le_of_le_one_left (Nat.cast_nonneg (α := K) a) le_one
    have hb := mul_le_of_le_one_left (Nat.cast_nonneg (α := K) b) le_one
    have h1 := mul_le_mul_of_nonneg_left hlow nonneg
    have h2 := mul_le_mul_of_nonneg_left hupp nonneg
    rw [mul_sub] at h1
    rw [mul_add] at h2
    show k * f i - ((a + 0 : ℕ) : K) ≤ g' i ∧ g' i ≤ k * f i + ((b + 0 : ℕ) : K)
    rw [eq i, add_zero, add_zero]
    constructor <;> linarith

/-- **A list of moves**, started off the fair balance already: the band is wider by one at the
    bottom for each own move, and at the top for each move of others. -/
theorem RoundedRun.tracks_from (h : RoundedRun ms g g') (hf : Tracks i a b f g) :
    Tracks i (a + own i ms) (b + others i ms) (run ms f) g' := by
  induction h generalizing f a b with
  | nil => exact hf
  | @cons m ms _ _ _ step _ ih =>
    have hstep := ih (step.tracks hf)
    have hown : own i (m :: ms) = own i [m] + own i ms := by
      rw [own, ← List.singleton_append, List.countP_append]
      rfl
    have hothers : others i (m :: ms) = others i [m] + others i ms := by
      rw [others, ← List.singleton_append, List.countP_append]
      rfl
    rw [hown, hothers, ← add_assoc, ← add_assoc]
    exact hstep

/-- **Tracking.**  From the same balances on, the account loses at most one unit a move of its own
    and gains at most one a move of the others. -/
theorem RoundedRun.tracks (h : RoundedRun ms f g) (i : ι) :
    Tracks i (own i ms) (others i ms) (run ms f) g := by
  have h0 : Tracks i 0 0 f f := by simp [Tracks]
  have hrun := h.tracks_from h0
  rwa [zero_add, zero_add] at hrun

omit [DecidableEq ι] in
/-- A wider band. -/
theorem Tracks.mono {a' b' : ℕ} (h : Tracks i a b f g) (ha : a ≤ a') (hb : b ≤ b') :
    Tracks i a' b' f g := by
  obtain ⟨hlow, hupp⟩ := h
  have ha' : (a : K) ≤ a' := by exact_mod_cast ha
  have hb' : (b : K) ≤ b' := by exact_mod_cast hb
  constructor <;> linarith

end Tracking

/-! ### The total -/

/-- What a move does to the sum of all balances. -/
def Move.applyTotal (x : K) : Move ι K → K
  | .credit _ y => x + y
  | .scale k => k * x

/-- What a list of moves does to it. -/
def runTotal (ms : List (Move ι K)) (x : K) : K := ms.foldl Move.applyTotal x

omit [LinearOrder K] [IsStrictOrderedRing K] in
/-- On a set of accounts that holds every account credited, the sum of the balances moves as
    `Move.applyTotal` says: it can be followed without the balances. -/
theorem Move.total_apply {F : Finset ι} (f : ι → K) (m : Move ι K)
    (hm : ∀ i x, m = .credit i x → i ∈ F) :
    ∑ i ∈ F, m.apply f i = m.applyTotal (∑ i ∈ F, f i) := by
  cases m with
  | credit i x =>
    have hi := hm i x rfl
    -- the credit is one more summand, at the account that moves
    have hsplit : (Move.credit i x).apply f = fun j => f j + if j = i then x else 0 := by
      funext j
      by_cases hj : j = i
      · simp [Move.apply, hj]
      · simp [Move.apply, hj]
    rw [hsplit, Finset.sum_add_distrib, Finset.sum_ite_eq', if_pos hi]
    rfl
  | scale k => exact (Finset.mul_sum F f k).symm

omit [LinearOrder K] [IsStrictOrderedRing K] in
/-- **Total.**  Over the accounts that move, the fair balances add up as the moves say. -/
theorem total_run {F : Finset ι} (f : ι → K) (ms : List (Move ι K))
    (hms : ∀ m ∈ ms, ∀ i x, m = .credit i x → i ∈ F) :
    ∑ i ∈ F, run ms f i = runTotal ms (∑ i ∈ F, f i) := by
  induction ms generalizing f with
  | nil => rfl
  | cons m ms ih =>
    have hrest := ih (m.apply f) fun m' hm' => hms m' (List.mem_cons_of_mem m hm')
    rw [Move.total_apply f m (hms m List.mem_cons_self)] at hrest
    exact hrest

/-! ### The holders of a share pool -/

section Pool

variable {p : SharePool} {o o' : ι → ℤ} {i : ι} {x f : ℤ}

omit [DecidableEq ι] in
/-- A skim scales all claims by what it leaves of the assets. -/
theorem skim_rounded (hf : 0 ≤ f) (hfT : f < p.assets ∨ f = 0) {k : ℚ} (hk0 : 0 ≤ k) (hk1 : k ≤ 1)
    (hk : (p.assets - f : ℚ) = k * p.assets) :
    Rounded (.scale k) (fun j => p.claim (o j)) (fun j => (p.skim f hf hfT).claim (o j)) := by
  refine .scale hk0 hk1 fun j => ?_
  show (o j * ((p.assets - f : ℤ) : ℚ) / p.shares : ℚ) = k * (o j * p.assets / p.shares)
  push_cast
  rw [hk]
  ring

/-- A deposit credits the depositor with what was paid, and what the share pool rounds away goes
    to the other holders. -/
theorem deposit_rounded (hx : 0 ≤ x) (hm : 0 < p.minted x) (ho : ∀ j, 0 ≤ o j)
    (hoS : ∀ j, o j ≤ p.shares) (ho' : o' = Function.update o i (o i + p.minted x)) :
    Rounded (.credit i (x : ℚ)) (fun j => p.claim (o j))
      (fun j => (p.deposit x hx).claim (o' j)) := by
  have hself : o' i = o i + p.minted x := by rw [ho', Function.update_self]
  have hrest {j : ι} (hj : j ≠ i) : o' j = o j := by rw [ho', Function.update_of_ne hj]
  have hq : 0 < (p.deposit x hx).shares := add_pos_of_nonneg_of_pos p.shares_nonneg hm
  apply Rounded.credit
  · rw [hself]
    exact (p.lt_claim_deposit hx (ho i) (hoS i)).le
  · rw [hself]
    exact p.claim_deposit_le hx (hoS i)
  · intro j hj
    rw [hrest hj]
    exact p.claim_le_claim hq (ho j) (p.cross_le_deposit hx)
  · intro j hj
    rw [hrest hj]
    exact (p.claim_deposit_others_lt hx (ho j) (hoS j)).le

/-- A withdrawal debits the withdrawer, whose last fraction of an asset goes to the
    other holders too. -/
theorem withdraw_rounded (hx : 0 ≤ x) (hxT : x ≤ p.assets) (ho : ∀ j, 0 ≤ o j)
    (hoS : ∀ j, o j ≤ p.shares) (hpair : ∀ j, j ≠ i → o j + o i ≤ p.shares)
    (hb : p.burned x ≤ o i) (ho' : o' = Function.update o i (o i - p.burned x)) :
    Rounded (.credit i (-x : ℚ)) (fun j => p.claim (o j))
      (fun j => (p.withdraw x hxT).claim (o' j)) := by
  have hself : o' i = o i - p.burned x := by rw [ho', Function.update_self]
  have hrest {j : ι} (hj : j ≠ i) : o' j = o j := by rw [ho', Function.update_of_ne hj]
  apply Rounded.credit
  · rw [hself, ← sub_eq_add_neg]
    exact (p.lt_claim_withdraw hx hxT (hoS i) hb).le
  · rw [hself]
    have hmover := p.claim_withdraw_le hxT (hoS i) hb
    linarith
  · intro j hj
    rw [hrest hj]
    rcases (p.withdraw x hxT).shares_nonneg.eq_or_lt with hq | hq
    · -- nothing is left for a holder who had nothing
      rw [SharePool.withdraw_shares] at hq
      have hj0 : o j = 0 := by have := hpair j hj; have := ho j; omega
      simp [hj0, SharePool.claim]
    · exact p.claim_le_claim hq (ho j) (p.cross_le_withdraw hxT)
  · intro j hj
    rw [hrest hj]
    have hrest' : o j + p.burned x ≤ p.shares := by have := hpair j hj; omega
    exact (p.claim_withdraw_others_lt hx hxT (ho j) hrest').le

end Pool

end FairLedger
