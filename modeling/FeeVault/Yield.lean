import FeeVault.AprCap
import FeeVault.Lib.Savings
import FeeVault.Ordering

namespace FeeVault

open Savings FairLedger

/-!
# What a deposit yields

To its owner a position in the vault is a savings account in the underlying.  It pays the pool's
interest but for the admin's part (`netRate`), and is credited what its owner deposits and debited
what its owner withdraws.  What the others do has no part in it: they only decide when interest is
accrued, and thereby how often it is compounded.

* `netRate` — the rate that depositors get when the pool's rate rises, in either fee mode;
* `posting` — what a transaction that accrues the reserve posts to the account of one user;
* `exec_books` — a committed transaction books that, up to two bTokens and two units of underlying;
* `savings_account` — so over any run the worth of a position follows the account;
* `run_growth` — and a position left alone earns the interest in full.
-/

/-! ### The rate that depositors get -/

/-- The rate that accrual in the mode `fm` lets the depositors have, `elapsed` seconds after the
    pool's rate was `b`, when it is `n`. -/
def netRate (fm : FeeMode) (b n elapsed : ℤ) : ℚ :=
  if n ≤ b then n
  else if fm.isAprCapped then (min n (aprTarget b fm.value elapsed) : ℤ)
  else n - (n - b) * fm.value.val / scalar7.val

/-- A rise from 1.2 to 1.3 yields 1.29 at a take rate of 10%. -/
example : netRate ⟨false, I128.ofUInt64 1000000⟩ 1200000000000 1300000000000 40 =
    1290000000000 := by
  have hR : (I128.ofUInt64 1000000).val = 1000000 := by decide
  rw [netRate, if_neg (by decide), if_neg (by decide), hR, scalar7_val]
  norm_num

/-- What the floors of an accrual may leave the depositors beyond that, in units of `10⁻¹²`. -/
def accrualDust (b n : ℤ) : ℤ := if n ≤ b then 0 else n + 2 * scalar12

section Formula

variable {T b n takeRate targetApr elapsed : ℤ} {fm : FeeMode}

/-- The three floors of the take-rate fee lose a bToken and two units of underlying at most. -/
theorem lt_mul_takeRateFee (hn : 0 < n) (hR : 0 ≤ takeRate) (hR1 : takeRate ≤ scalar7) :
    T * (n - b) * takeRate ≤
      (n * takeRateFee T b n takeRate + (n + 2 * scalar12)) * scalar7.val := by
  have hint := MulDiv.lt_floor_add_one_mul (x := T) (y := n - b) scalar12_pos
  have hpart := MulDiv.lt_floor_add_one_mul (x := MulDiv.floor T (n - b) scalar12) (y := takeRate)
    scalar7_pos
  have hfee := MulDiv.lt_floor_add_one_mul (y := scalar12.val) hn
    (x := MulDiv.floor (MulDiv.floor T (n - b) scalar12) takeRate scalar7)
  rw [← takeRateFee] at hfee
  generalize MulDiv.floor T (n - b) scalar12 = i at *
  generalize MulDiv.floor i takeRate scalar7 = p at *
  generalize takeRateFee T b n takeRate = f at *
  rw [scalar12_val] at *
  rw [scalar7_val] at *
  calc T * (n - b) * takeRate
      ≤ (i + 1) * 1000000000000 * takeRate := mul_le_mul_of_nonneg_right hint.le hR
    _ = i * takeRate * 1000000000000 + takeRate * 1000000000000 := by ring
    _ ≤ (p + 1) * 10000000 * 1000000000000 + 10000000 * 1000000000000 := by linarith
    _ = p * 1000000000000 * 10000000 + 2 * 1000000000000 * 10000000 := by ring
    _ ≤ (f + 1) * n * 10000000 + 2 * 1000000000000 * 10000000 := by linarith
    _ = (n * f + (n + 2 * 1000000000000)) * 10000000 := by ring

/-- The net rate is not negative: of the rise no more than all of it is taken, and a cap is never
    below the old rate. -/
theorem netRate_nonneg (hfm : fm.Valid) (hb : 0 < b) (hn : 0 < n)
    (hd : fm.isAprCapped = true → b < n → 0 ≤ elapsed) : 0 ≤ netRate fm b n elapsed := by
  unfold netRate
  split
  · exact_mod_cast hn.le
  · next hlt =>
    split
    · next hcap =>
      have htarget := le_aprTarget hb hfm.1 (hd hcap (not_le.1 hlt))
      exact_mod_cast le_min hn.le (hb.le.trans htarget)
    · -- no more than the rise is taken
      have hrise : (0 : ℚ) ≤ n - b := by
        rw [sub_nonneg]
        exact_mod_cast (not_le.1 hlt).le
      have hR : (fm.value.val : ℚ) / scalar7.val ≤ 1 := by
        rw [div_le_one (by exact_mod_cast scalar7_pos)]
        exact_mod_cast hfm.2
      have htaken := mul_le_of_le_one_right hrise hR
      have hb' : (0 : ℚ) < b := by exact_mod_cast hb
      rw [mul_div_assoc]
      linarith

/-- The take-rate fee leaves the depositors the net rate on their bTokens, up to the new rate and
    two units for its three floors, … -/
theorem netRate_takeRateFee (hn : 0 < n) (hR : 0 ≤ takeRate) (hR1 : takeRate ≤ scalar7) :
    (T * (n - (n - b) * takeRate / scalar7.val) : ℚ) ≤ n * (T - takeRateFee T b n takeRate) ∧
      (n * (T - takeRateFee T b n takeRate) : ℚ) ≤
        T * (n - (n - b) * takeRate / scalar7.val) + (n + 2 * scalar12.val) := by
  have hn' : (0 : ℚ) < n := by exact_mod_cast hn
  have h7 : (0 : ℚ) < scalar7.val := by exact_mod_cast scalar7_pos
  have hupper := takeRateFee_le_exact (T := T) (b := b) hn hR
  have hlower : (T * (n - b) * takeRate : ℚ) ≤
      (n * takeRateFee T b n takeRate + (n + 2 * scalar12.val)) * scalar7.val := by
    exact_mod_cast lt_mul_takeRateFee hn hR hR1
  rw [exactTakeRateFee, le_div_iff₀ (mul_pos h7 hn')] at hupper
  rw [← div_le_iff₀ h7] at hlower
  have hshare : (T * (n - (n - b) * takeRate / scalar7.val) : ℚ) =
      T * n - T * (n - b) * takeRate / scalar7.val := by ring
  have hupper' : (n * takeRateFee T b n takeRate : ℚ) ≤ T * (n - b) * takeRate / scalar7.val := by
    rw [le_div_iff₀ h7]
    linarith
  rw [hshare]
  constructor <;> linarith

/-- … and so does the APR-capped fee, up to the new rate for its one floor.  The target is the net
    rate there, with its rounding. -/
theorem netRate_aprCappedFee (T b targetApr elapsed : ℤ) (hn : 0 < n) :
    T * min n (aprTarget b targetApr elapsed) ≤
        n * (T - aprCappedFee T b n targetApr elapsed) ∧
      n * (T - aprCappedFee T b n targetApr elapsed) ≤
        T * min n (aprTarget b targetApr elapsed) + n := by
  unfold aprCappedFee
  split
  · next hle =>
    rw [min_eq_left hle, sub_zero, mul_comm]
    exact ⟨le_rfl, le_add_of_nonneg_right hn.le⟩
  · next hgt =>
    have hle := MulDiv.floor_mul_le (x := T) (y := n - aprTarget b targetApr elapsed) hn
    have hlt := MulDiv.lt_floor_add_one_mul (x := T) (y := n - aprTarget b targetApr elapsed) hn
    rw [min_eq_right (not_le.1 hgt).le]
    constructor <;> linarith

end Formula

variable {Address : Type} [FixedPoint]

/-- The rate that accrual of `v` in the surroundings `e` is to let the depositors have. -/
def ReserveVault.netRate (e : Env Address) (fm : FeeMode) (v : ReserveVault Address) : ℚ :=
  FeeVault.netRate fm v.bRate (e.bRate v.address)
    (e.timestamp.toNat - v.lastUpdateTimestamp.toNat)

/-- **One accrual.**  The depositors are left with the net rate, and what its floors drop. -/
theorem ReserveVault.updateRate_netRate {e : Env Address} {fm : FeeMode}
    {v w : ReserveVault Address} (hv : v.Sound) (hfm : fm.Valid)
    (hrate : 0 < (e.bRate v.address).val) (h : v.updateRate e fm = .ok w) :
    0 ≤ v.netRate e fm ∧
      (v.totalBTokens.val * v.netRate e fm : ℚ) ≤
        (e.bRate v.address).val * w.totalBTokens.val ∧
      ((e.bRate v.address).val * w.totalBTokens.val : ℚ) ≤
        v.totalBTokens.val * v.netRate e fm + accrualDust v.bRate (e.bRate v.address) := by
  obtain ⟨hacc, htime⟩ := updateRate_feeTaken hv.rate_pos hv.bTokens_nonneg hfm.1 h
  have hT : (w.totalBTokens.val : ℚ) = v.totalBTokens.val - feeTaken e fm v := by
    exact_mod_cast hacc.totalBTokens
  rw [ReserveVault.netRate, hT]
  refine ⟨netRate_nonneg hfm hv.rate_pos hrate fun hcap hlt => ?_, ?_⟩
  · exact sub_nonneg.2 (by exact_mod_cast htime hcap hlt)
  · unfold FeeVault.netRate accrualDust feeTaken
    generalize (e.timestamp.toNat - v.lastUpdateTimestamp.toNat : ℤ) = elapsed
    split
    · -- a rate that did not rise is passed on as it is
      rw [Int.cast_zero, sub_zero, add_zero, mul_comm]
      exact ⟨le_rfl, le_rfl⟩
    · split
      · obtain ⟨hlow, hupp⟩ :=
          netRate_aprCappedFee v.totalBTokens v.bRate fm.value elapsed hrate
        have hdust := scalar12_pos
        constructor
        · exact_mod_cast hlow
        · exact_mod_cast hupp.trans (by linarith)
      · obtain ⟨hlow, hupp⟩ := netRate_takeRateFee (T := v.totalBTokens) (b := v.bRate) hrate
          hfm.1 hfm.2
        refine ⟨hlow, hupp.trans_eq ?_⟩
        push_cast
        ring

/-! ### Accounts -/

/-- What the shares of `u` in `r` are worth at the stored rate, in units of `10⁻¹²`. -/
def State.worthAt (s : State Address) (r u : Address) : ℚ :=
  match s.vaultAt r with
  | some v => v.bRate.val * s.claimAt r u
  | none => 0

variable [DecidableEq Address]

/-- The underlying a call pays into `r` for `u`; what it pays out counts negative. -/
def Call.bookedFor (r u : Address) : Call Address → ℤ
  | .deposit reserve user amount => if reserve = r ∧ user = u then amount else 0
  | .withdraw reserve user amount => if reserve = r ∧ user = u then -amount else 0
  | _ => 0

/-- What a transaction that accrues the vault `v` of `r` in the mode `fm` posts to the account of
    `u`: all in rates of the pool, whatever the accrual then stores. -/
def posting (r u : Address) (fm : FeeMode) (v : ReserveVault Address) (t : Tx Address) :
    Posting ℚ where
  growth := v.netRate t.env fm / v.bRate.val
  amount := scalar12.val * t.call.bookedFor r u
  -- a bToken each for the conversion to bTokens and for that to shares
  short := if t.call.movesFor r u then 2 * (t.env.bRate r).val else 0
  -- what the others round off is everybody's
  surplus := accrualDust v.bRate (t.env.bRate r) +
    if t.call.movesForOther r u then ((t.env.bRate r).val : ℚ) else 0

/-- What a transaction posts to the account of `u` in `r`. -/
def postings (r u : Address) (s : State Address) (t : Tx Address) : List (Posting ℚ) :=
  match accrualAt r s t with
  | some (v, _) => [posting r u s.storage.feeMode v t]
  | none => []

/-- What a run posts to it. -/
def accountRun (r u : Address) (s : State Address) (ts : List (Tx Address)) : List (Posting ℚ) :=
  (Revert.collect exec (fun s t _ => postings r u s t) s ts).flatten

variable {e : Env Address} {s s' : State Address} {t : Tx Address} {ts : List (Tx Address)}
  {r u : Address} {v w : ReserveVault Address} {val : Value}

omit [FixedPoint] [DecidableEq Address] in
/-- With a vault, shares are worth their claim at the rate it keeps. -/
theorem State.worthAt_some (hv : s.vaultAt r = some v) :
    s.worthAt r u = v.bRate.val * s.claimAt r u := by
  rw [State.worthAt, hv]

omit [FixedPoint] in
/-- What a movement moves is worth what it books, but for less than a bToken against its user. -/
theorem Call.moved_worth (hn : 0 < (e.bRate r).val) (c : Call Address) :
    scalar12 * c.bookedFor r u - (if c.movesFor r u then (e.bRate r).val else 0) ≤
        e.bRate r * c.moved r (· = u) e ∧
      e.bRate r * c.moved r (· = u) e ≤ scalar12 * c.bookedFor r u := by
  cases c with
  | deposit reserve user a =>
    have hle := MulDiv.floor_mul_le (x := a) (y := scalar12.val) hn
    have hlt := MulDiv.lt_floor_add_one_mul (x := a) (y := scalar12.val) hn
    by_cases h : reserve = r ∧ user = u
    · simp only [Call.bookedFor, Call.movesFor, Call.moved, h, and_self, decide_true, if_true]
      constructor <;> linarith
    · simp [Call.bookedFor, Call.movesFor, Call.moved, h]
  | withdraw reserve user a =>
    have hle := MulDiv.le_ceil_mul (x := a) (y := scalar12.val) hn
    have hlt := (MulDiv.lt_ceil_iff (x := a) (y := scalar12.val) hn).1 (sub_one_lt _)
    by_cases h : reserve = r ∧ user = u
    · simp only [Call.bookedFor, Call.movesFor, Call.moved, h, and_self, decide_true, if_true]
      constructor <;> linarith
    · simp [Call.bookedFor, Call.movesFor, Call.moved, h]
  | setFeeMode | setAdmin | addReserveVault | claimEmissions | claimFees =>
    simp [Call.bookedFor, Call.movesFor, Call.moved]

omit [FixedPoint] [DecidableEq Address] in
/-- A claim is a part of the depositors' bTokens. -/
theorem State.claimAt_mem (hs : s.SoundAt r) (hc : s.Conserved r) (hv : s.vaultAt r = some v) :
    0 ≤ s.claimAt r u ∧ s.claimAt r u ≤ v.totalBTokens.val := by
  have hsound := hs.vault v hv
  have hle : s.sharesAt r u ≤ hsound.pool.shares :=
    (hc.le_total u).trans_eq (State.totalSharesAt_some hv)
  rw [State.claimAt_pool hv hsound]
  refine ⟨hsound.pool.claim_nonneg (hc.nonneg u), ?_⟩
  -- what is not the user's is somebody's
  have hrest := hsound.pool.claim_nonneg (sub_nonneg.2 hle)
  rw [SharePool.claim_sub, SharePool.claim_shares] at hrest
  exact sub_nonneg.1 hrest

omit [FixedPoint] in
/-- What holds of all `T` bTokens up to an error holds of `c` of them, with the same error: a
    part bears no more of the rounding than the whole. -/
theorem part_bounds {T c k n ρ d : ℚ} (hc0 : 0 ≤ c) (hcT : c ≤ T) (hlow : T * ρ ≤ n * (k * T))
    (hupp : n * (k * T) ≤ T * ρ + d) : c * ρ ≤ n * (k * c) ∧ n * (k * c) ≤ c * ρ + d := by
  rcases (hc0.trans hcT).eq_or_lt with hT | hT
  · obtain rfl : c = 0 := le_antisymm (hT ▸ hcT) hc0
    rw [← hT] at hlow hupp
    constructor <;> linarith
  · have hgain : 0 ≤ n * k - ρ := by
      refine nonneg_of_mul_nonneg_right ?_ hT
      linarith
    have hpart := mul_le_mul_of_nonneg_right hcT hgain
    have hnonneg := mul_nonneg hc0 hgain
    constructor <;> linarith

omit [FixedPoint] in
/-- A call that is not a movement of the user books nothing for the user. -/
theorem Call.bookedFor_eq_zero {c : Call Address} (h : c.movesFor r u = false) :
    c.bookedFor r u = 0 := by
  cases c with
  | deposit | withdraw => exact if_neg (of_decide_eq_false h)
  | setFeeMode | setAdmin | addReserveVault | claimEmissions | claimFees => rfl

/-! ### One transaction -/

/-- A claim at a transaction that accrues the reserve: it is scaled by what the fee leaves, and
    moved, up to a bToken from the user who moves to the others. -/
theorem exec_claim (hs : Reachable (fun e => 0 < (e.bRate r).val) s)
    (hpos : 0 < (t.env.bRate r).val) (h : exec s t = .ok (val, s'))
    (hacc : accrualAt r s t = some (v, w)) :
    v.kept w * s.claimAt r u + t.call.moved r (· = u) t.env -
        (if t.call.movesFor r u then 1 else 0) ≤ s'.claimAt r u ∧
      s'.claimAt r u ≤ v.kept w * s.claimAt r u + t.call.moved r (· = u) t.env +
        (if t.call.movesForOther r u then 1 else 0) := by
  have hrounded := (exec_effect hs.keyed h r).rounded (hs.soundAt fun _ he => he) (hs.conserved r)
    (hs.keyed r) hs.listed hpos
  have hmoves : run (fairMoves r s t) (s.claimAt r) u =
      v.kept w * s.claimAt r u + t.call.moved r (· = u) t.env := by
    rw [fairMoves, hacc]
    exact run_credits t.call fun j => v.kept w * s.claimAt r j
  obtain ⟨hlow, hupp⟩ :=
    (hrounded.tracks u).mono (own_fairMoves_le r u s t) (others_fairMoves_le r u s t)
  rw [hmoves] at hlow hupp
  push_cast at hlow hupp
  exact ⟨hlow, hupp⟩

/-- What it is worth then, before it is moved: the net rate, and what its floors drop. -/
theorem exec_grown (hs : Reachable (fun e => 0 < (e.bRate r).val) s)
    (hpos : 0 < (t.env.bRate r).val) (hacc : accrualAt r s t = some (v, w)) :
    0 ≤ v.netRate t.env s.storage.feeMode ∧
      s.claimAt r u * v.netRate t.env s.storage.feeMode ≤
        (t.env.bRate r).val * (v.kept w * s.claimAt r u) ∧
      (t.env.bRate r).val * (v.kept w * s.claimAt r u) ≤
        s.claimAt r u * v.netRate t.env s.storage.feeMode +
          accrualDust v.bRate (t.env.bRate r) := by
  obtain ⟨-, hv, hvw⟩ := accrualAt_eq_some.1 hacc
  have hsound := hs.soundAt fun _ he => he
  have hsv := hsound.vault v hv
  have hrate : 0 < (t.env.bRate v.address).val := by rw [hs.keyed r v hv]; exact hpos
  obtain ⟨-, -, hkept⟩ := v.kept_mem hsv hsound.feeMode hrate hvw
  obtain ⟨hnet0, hlow, hupp⟩ := v.updateRate_netRate hsv hsound.feeMode hrate hvw
  rw [hkept, hs.keyed r v hv] at hlow hupp
  obtain ⟨hc0, hcT⟩ := State.claimAt_mem (u := u) hsound (hs.conserved r) hv
  exact ⟨hnet0, part_bounds hc0 hcT hlow hupp⟩

/-- **One transaction** that accrues the reserve books one posting: the net rate on what the user
    is worth, then the amount moved, each up to its rounding. -/
theorem exec_booked (hs : Reachable (fun e => 0 < (e.bRate r).val) s)
    (hpos : 0 < (t.env.bRate r).val) (h : exec s t = .ok (val, s'))
    (hacc : accrualAt r s t = some (v, w)) :
    Booked (posting r u s.storage.feeMode v t) (s.worthAt r u) (s'.worthAt r u) := by
  obtain ⟨-, hv, -⟩ := accrualAt_eq_some.1 hacc
  have hsound := hs.soundAt fun _ he => he
  have hb0 := (hsound.vault v hv).rate_pos
  obtain ⟨-, w', hw', -, hb', -⟩ := exec_accrued hs hpos hsound ⟨rfl, rfl⟩ h hacc
  obtain ⟨hlow, hupp⟩ := exec_claim (u := u) hs hpos h hacc
  obtain ⟨hnet0, hgrownlow, hgrownupp⟩ := exec_grown (u := u) hs hpos hacc
  obtain ⟨hmovedlow, hmovedupp⟩ := t.call.moved_worth (u := u) hpos
  have hgrown : s.worthAt r u * (posting r u s.storage.feeMode v t).growth =
      s.claimAt r u * v.netRate t.env s.storage.feeMode := by
    have hb0' : (v.bRate.val : ℚ) ≠ 0 := by exact_mod_cast hb0.ne'
    rw [State.worthAt_some hv, posting]
    field_simp
  -- everything at the new rate
  have hworth : s'.worthAt r u = (t.env.bRate r).val * s'.claimAt r u := by
    rw [State.worthAt_some hw', hb']
  have hn : (0 : ℚ) < (t.env.bRate r).val := by exact_mod_cast hpos
  have hlow' := mul_le_mul_of_nonneg_left hlow hn.le
  have hupp' := mul_le_mul_of_nonneg_left hupp hn.le
  rw [mul_sub, mul_add, mul_ite, mul_one, mul_zero] at hlow'
  rw [mul_add, mul_add, mul_ite, mul_one, mul_zero] at hupp'
  have hmovedlow' : (scalar12.val * t.call.bookedFor r u -
      (if t.call.movesFor r u then (t.env.bRate r).val else 0 : ℤ) : ℚ) ≤
      (t.env.bRate r).val * t.call.moved r (· = u) t.env := by exact_mod_cast hmovedlow
  have hmovedupp' : ((t.env.bRate r).val * t.call.moved r (· = u) t.env : ℚ) ≤
      scalar12.val * t.call.bookedFor r u := by exact_mod_cast hmovedupp
  rw [Int.cast_ite, Int.cast_zero] at hmovedlow'
  refine ⟨div_nonneg hnet0 (by exact_mod_cast hb0.le), ?_, ?_⟩
  · have hshort : (posting r u s.storage.feeMode v t).short =
        (if t.call.movesFor r u then ((t.env.bRate r).val : ℚ) else 0) +
          (if t.call.movesFor r u then ((t.env.bRate r).val : ℚ) else 0) := by
      rw [posting]
      split <;> ring
    rw [hgrown, hshort, hworth]
    show _ + scalar12.val * (t.call.bookedFor r u : ℚ) - _ ≤ _
    linarith
  · rw [hgrown, hworth]
    show _ ≤ _ + scalar12.val * (t.call.bookedFor r u : ℚ) + (_ + _)
    linarith

/-- A transaction that does not accrue the reserve leaves everybody's worth, as it moves nothing
    in it and leaves the stored rate. -/
theorem exec_worth (hs : Reachable (fun e => 0 < (e.bRate r).val) s)
    (hpos : 0 < (t.env.bRate r).val) (h : exec s t = .ok (val, s'))
    (hacc : accrualAt r s t = none) : s'.worthAt r u = s.worthAt r u := by
  have hrounded := (exec_effect hs.keyed h r).rounded (hs.soundAt fun _ he => he) (hs.conserved r)
    (hs.keyed r) hs.listed hpos
  rw [fairMoves, hacc] at hrounded
  have hclaim : s'.claimAt r = s.claimAt r := by
    generalize s'.claimAt r = c' at hrounded
    generalize s.claimAt r = c at hrounded
    cases hrounded
    rfl
  cases hv : s.vaultAt r with
  | some v =>
    obtain ⟨hv', -⟩ := exec_unaccrued hs h hv hacc
    rw [State.worthAt_some hv', State.worthAt_some hv, hclaim]
  | none =>
    -- a vault just opened owes nobody anything
    have h0 : s'.claimAt r u = 0 := by rw [hclaim, State.claimAt, hv]
    rw [State.worthAt, State.worthAt, hv]
    cases s'.vaultAt r with
    | some v' => simp [h0]
    | none => rfl

/-- **Books step.** -/
theorem exec_books (hs : Reachable (fun e => 0 < (e.bRate r).val) s)
    (hpos : 0 < (t.env.bRate r).val) (h : exec s t = .ok (val, s')) :
    Books (postings r u s t) (s.worthAt r u) (s'.worthAt r u) := by
  unfold postings
  split
  · next v _ hacc => exact .single (exec_booked hs hpos h hacc)
  · next hacc =>
    rw [exec_worth hs hpos h hacc]
    exact .nil _

/-! ### Runs -/

/-- **Run.**  The postings of its transactions, one after the other, are the books of the
    account. -/
theorem run_books (hs : Reachable (fun e => 0 < (e.bRate r).val) s)
    (hrates : ∀ t ∈ ts, 0 < (t.env.bRate r).val) (u : Address) :
    Books (accountRun r u s ts) (s.worthAt r u) ((Revert.run exec s ts).worthAt r u) := by
  refine Revert.run_trace (I := Reachable fun e => 0 < (e.bRate r).val)
    (P := fun _ t => 0 < (t.env.bRate r).val)
    (R := fun s ps s' => Books ps.flatten (s.worthAt r u) (s'.worthAt r u)) ?_ ?_ ?_ hs
    (Revert.along_of_forall hrates)
  · intro s _
    exact .nil _
  · intro s t val s' hs ht h
    exact Revert.step_ok h ▸ Revert.Reachable.step hs ht
  · intro s t val s' ps s'' hs ht h hrest
    exact (exec_books hs ht h).append hrest

/-- **Left alone**, a position earns the net rate on all it is worth, compounded as often as anybody
    has interest accrued: its owner loses nothing to rounding. -/
theorem run_growth (hs : Reachable (fun e => 0 < (e.bRate r).val) s)
    (hrates : ∀ t ∈ ts, 0 < (t.env.bRate r).val) (hu : ∀ t ∈ ts, t.call.movesFor r u = false) :
    s.worthAt r u * growth (accountRun r u s ts) ≤ (Revert.run exec s ts).worthAt r u := by
  have hown : ∀ p ∈ accountRun r u s ts, p.amount = 0 ∧ p.short = 0 := by
    intro p hp
    obtain ⟨ps, hps, hp⟩ := List.mem_flatten.1 hp
    obtain ⟨t, ht, s₁, s₂, rfl⟩ := Revert.exists_of_mem_collect hps
    unfold postings at hp
    split at hp
    · obtain rfl := List.mem_singleton.1 hp
      refine ⟨?_, ?_⟩
      · show (scalar12.val * (t.call.bookedFor r u : ℤ) : ℚ) = 0
        rw [Call.bookedFor_eq_zero (hu t ht), Int.cast_zero, mul_zero]
      · show (if t.call.movesFor r u then (2 * _ : ℚ) else 0) = 0
        rw [hu t ht, if_neg Bool.false_ne_true]
    · cases hp
  exact (run_books hs hrates u).growth_le (fun p hp => (hown p hp).1) fun p hp => (hown p hp).2

end FeeVault
