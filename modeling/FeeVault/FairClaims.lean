import FeeVault.Accruals
import FeeVault.Lib.FairLedger
import Mathlib.Algebra.BigOperators.Field

namespace FeeVault

open FairLedger

/-!
# What each depositor is owed, to the bToken

What the vault is for: a deposit adds its bTokens to what its user owns, a withdrawal takes its own
from it, and the admin's fee is taken from everybody alike.  That is a fair ledger (`FairLedger`)
with one account a user, and `fairMoves` says which of its moves a transaction is.  The contract
keeps shares instead and rounds them against the user who moves.

* `State.claimAt` — the bTokens that a user's shares own, exactly;
* `Effect.rounded` — a committed transaction moves the claims like the fair ledger, with the
  rounding of `FairLedger.Rounded`;
* `claims_track_fair` — so over any run a user's claim never strays further from the fair one than
  one bToken for each deposit and withdrawal since, downwards only by the user's own.
-/

variable {Address : Type}

/-- The part of their bTokens that accrual from `v` to `w` leaves the depositors. -/
def ReserveVault.kept (v w : ReserveVault Address) : ℚ :=
  if v.totalBTokens.val = 0 then 1 else w.totalBTokens.val / v.totalBTokens.val

/-- The bTokens in `r` that the shares of `u` own, exactly. -/
def State.claimAt (s : State Address) (r u : Address) : ℚ :=
  match s.vaultAt r with
  | some v => s.sharesAt r u * v.totalBTokens.val / v.totalShares.val
  | none => 0

/-- The depositors' bTokens in `r`, `0` without a vault. -/
def State.bTokensAt (s : State Address) (r : Address) : ℤ :=
  match s.vaultAt r with
  | some v => v.totalBTokens
  | none => 0

variable [FixedPoint] [DecidableEq Address]

/-- The credit of a call to its user's account in `r`, in bTokens. -/
def Call.credits (r : Address) (e : Env Address) : Call Address → List (Move Address ℚ)
  | .deposit reserve user amount =>
    if reserve = r then [.credit user (MulDiv.floor amount scalar12 (e.bRate r))] else []
  | .withdraw reserve user amount =>
    if reserve = r then [.credit user (-MulDiv.ceil amount scalar12 (e.bRate r))] else []
  | _ => []

/-- What a fair ledger of the claims on `r` does at a committed transaction: the fee that falls due
    is taken from all accounts alike, and the user's account moves by the bTokens of the call. -/
def fairMoves (r : Address) (s : State Address) (t : Tx Address) : List (Move Address ℚ) :=
  match accrualAt r s t with
  | none => []
  | some (v, w) => .scale (v.kept w) :: t.call.credits r t.env

/-- The moves of the fair ledger over a run. -/
def fairRun (r : Address) (s : State Address) (ts : List (Tx Address)) : List (Move Address ℚ) :=
  (Revert.collect exec (fun s t _ => fairMoves r s t) s ts).flatten

variable {e : Env Address} {s s' : State Address} {t : Tx Address} {r u : Address}
  {v w : ReserveVault Address}

/-! ### Claims -/

omit [FixedPoint] [DecidableEq Address] in
/-- With a vault, a user's claim is the part of its bTokens that the shares make of all
    shares, exactly. -/
theorem State.claimAt_some (hv : s.vaultAt r = some v) (u : Address) :
    s.claimAt r u = s.sharesAt r u * v.totalBTokens.val / v.totalShares.val := by
  rw [State.claimAt, hv]

omit [FixedPoint] [DecidableEq Address] in
/-- With a vault, the depositors' bTokens are those it keeps. -/
theorem State.bTokensAt_some (hv : s.vaultAt r = some v) :
    s.bTokensAt r = v.totalBTokens.val := by
  rw [State.bTokensAt, hv]

omit [FixedPoint] [DecidableEq Address] in
/-- Claims depend on the vault of the reserve and the shares in it. -/
theorem State.claimAt_congr (hvault : s'.vaultAt r = s.vaultAt r)
    (hshares : s'.sharesAt r = s.sharesAt r) : s'.claimAt r = s.claimAt r := by
  funext u
  rw [State.claimAt, State.claimAt, hvault, hshares]

omit [DecidableEq Address] in
/-- The fee leaves a part between none and all of the bTokens, so an accrual is a
    scaling of all claims alike. -/
theorem ReserveVault.kept_mem (hv : v.Sound) {fm : FeeMode} (hfm : fm.Valid)
    (hrate : 0 < (e.bRate v.address).val) (h : v.updateRate e fm = .ok w) :
    0 ≤ v.kept w ∧ v.kept w ≤ 1 ∧ (w.totalBTokens.val : ℚ) = v.kept w * v.totalBTokens.val := by
  obtain ⟨fee, hacc, -⟩ := hv.fee_lt hfm hrate h
  have hw := (hv.updateRate hfm hrate h).bTokens_nonneg
  have hle : w.totalBTokens.val ≤ v.totalBTokens := by
    have := hacc.totalBTokens
    have := hacc.fee_nonneg
    omega
  unfold ReserveVault.kept
  split
  · next h0 =>
    have hw0 : w.totalBTokens.val = 0 := by omega
    simp [h0, hw0]
  · next h0 =>
    have hT : 0 < v.totalBTokens.val := lt_of_le_of_ne hv.bTokens_nonneg (Ne.symm h0)
    have hT' : (0 : ℚ) < v.totalBTokens.val := by exact_mod_cast hT
    refine ⟨?_, ?_, ?_⟩
    · exact div_nonneg (by exact_mod_cast hw) hT'.le
    · rw [div_le_one hT']
      exact_mod_cast hle
    · rw [div_mul_cancel₀ _ hT'.ne']

omit [FixedPoint] [DecidableEq Address] in
/-- Claims on a vault that is sound are those on its share pool. -/
theorem State.claimAt_pool (hv : s.vaultAt r = some v) (hsound : v.Sound) :
    s.claimAt r = fun u => hsound.pool.claim (s.sharesAt r u) :=
  funext fun u => State.claimAt_some hv u

omit [FixedPoint] [DecidableEq Address] in
/-- The claims of all holders are the depositors' bTokens: exact claims, unlike the displayed
    ones, lose nothing to rounding. -/
theorem State.sum_claimAt (hs : s.SoundAt r) (hc : s.Conserved r) {F : Finset Address}
    (hF : ∀ u, 0 < s.sharesAt r u → u ∈ F) :
    ∑ u ∈ F, s.claimAt r u = s.bTokensAt r := by
  cases hv : s.vaultAt r with
  | none => simp [State.claimAt, State.bTokensAt, hv]
  | some v =>
    have hsound := hs.vault v hv
    have hsupport : Function.support (s.sharesAt r) ⊆ F := fun u hu =>
      hF u (lt_of_le_of_ne (hc.nonneg u) (Ne.symm hu))
    have hshares : ∑ u ∈ F, s.sharesAt r u = hsound.pool.shares := by
      rw [← finsum_eq_finsetSum_of_support_subset _ hsupport, hc.total,
        State.totalSharesAt_some hv]
      rfl
    have hclaims := hsound.pool.claim_shares
    rw [← hshares, SharePool.claim, Int.cast_sum, Finset.sum_mul, Finset.sum_div] at hclaims
    rw [State.claimAt_pool hv hsound, State.bTokensAt_some hv]
    exact hclaims

/-! ### One transaction -/

/-- **Fairness step.**  A committed transaction moves the claims like the fair ledger, up to one
    bToken from the user who moves to the others. -/
theorem Effect.rounded (h : Effect t r s s') (hs : s.SoundAt r) (hc : s.Conserved r)
    (hkey : ∀ v, s.vaultAt r = some v → v.address = r) (hlisted : s.Listed)
    (hrate : 0 < (t.env.bRate r).val) :
    RoundedRun (fairMoves r s t) (s.claimAt r) (s'.claimAt r) := by
  -- the fee, and then the call on the accrued vault
  have hacc {v w : ReserveVault Address} (haccrues : t.call.accrues r = true)
      (present : s.vaultAt r = some v)
      (accrual : v.updateRate t.env s.storage.feeMode = .ok w) (hw : w.Sound)
      (hrest : RoundedRun (t.call.credits r t.env)
        (fun u => hw.pool.claim (s.sharesAt r u)) (s'.claimAt r)) :
      RoundedRun (fairMoves r s t) (s.claimAt r) (s'.claimAt r) := by
    have hv := hs.vault v present
    have hrate' : 0 < (t.env.bRate v.address).val := by rw [hkey v present]; exact hrate
    obtain ⟨hkept0, hkept1, hkept⟩ := v.kept_mem hv hs.feeMode hrate' accrual
    obtain ⟨fee, hfee, hfeeT⟩ := hv.fee_lt hs.feeMode hrate' accrual
    rw [fairMoves, accrualAt_eq_some.2 ⟨haccrues, present, accrual⟩, State.claimAt_pool present hv]
    rw [hv.pool_skim hw hfee hfeeT] at hrest
    refine .cons (skim_rounded _ _ hkept0 hkept1 ?_) hrest
    rw [hfee.totalBTokens] at hkept
    push_cast at hkept
    exact hkept
  have hacc_total {v w : ReserveVault Address} (present : s.vaultAt r = some v)
      (accrual : v.updateRate t.env s.storage.feeMode = .ok w) :
      w.totalShares.val = s.totalSharesAt r := by
    obtain ⟨fee, hfee⟩ := ReserveVault.updateRate_accrual accrual
    rw [hfee.totalShares, State.totalSharesAt_some present]
  have hle {w : ReserveVault Address} (hw : w.Sound)
      (htotal : w.totalShares.val = s.totalSharesAt r) (j : Address) :
      s.sharesAt r j ≤ hw.pool.shares := (hc.le_total j).trans_eq htotal.symm
  cases h with
  | untouched other unlisted vault shares =>
    rw [fairMoves, accrualAt_of_untouched hlisted other unlisted,
      State.claimAt_congr vault shares]
    exact .nil _
  | opened call absent vault shares =>
    have hnone : s'.claimAt r = s.claimAt r := by
      funext u
      rw [State.claimAt_some vault, State.claimAt, absent, I128.val_zero]
      simp
    rw [fairMoves, accrualAt_of_absent absent, hnone]
    exact .nil _
  | accrued call present accrual vault shares =>
    obtain ⟨hw, -⟩ := hs.accrued hkey hrate present accrual
    refine hacc (by rw [call]; rfl) present accrual hw ?_
    rw [call, State.claimAt_pool vault hw, shares]
    exact .nil _
  | claimed call present accrual fees_pos underlying vault shares =>
    obtain ⟨hw, -⟩ := hs.accrued hkey hrate present accrual
    refine hacc (by simp [call, Call.accrues]) present accrual hw ?_
    rw [call, State.claimAt_pool vault hw.claim, shares]
    exact .nil _
  | @deposited u a x m S T v w call auth amount_pos present accrual bTokens bTokens_pos minted
      minted_pos totalShares totalBTokens vault shares =>
    obtain ⟨hw, hb⟩ := hs.accrued hkey hrate present accrual
    have htotal := hacc_total present accrual
    have hx := ((ReserveVault.underlyingToBTokensDown_eq_ok hw.rate_pos).1 bTokens).2
    have hm := hw.minted minted
    have hw' := hw.deposit bTokens_pos.le minted totalShares totalBTokens
    have hpool := hw.pool_deposit bTokens_pos.le minted totalShares totalBTokens
    refine hacc (by simp [call, Call.accrues]) present accrual hw ?_
    rw [call, State.claimAt_pool vault hw', hpool, Call.credits, if_pos rfl, ← hb, ← hx]
    exact .single (deposit_rounded bTokens_pos.le (hm ▸ minted_pos) hc.nonneg (hle hw htotal)
      (hm ▸ shares))
  | @withdrawn u a x m S T v w call auth amount_pos present accrual bTokens burned burned_pos
      burned_le_total bTokens_le_total burned_le_balance totalShares totalBTokens vault shares =>
    obtain ⟨hw, hb⟩ := hs.accrued hkey hrate present accrual
    have htotal := hacc_total present accrual
    have hx := ((ReserveVault.underlyingToBTokensUp_eq_ok hw.rate_pos).1 bTokens).2
    have hx0 := (hw.burned_pos amount_pos bTokens burned).1
    have hm := hw.burned burned
    have hw' := hw.withdraw bTokens_le_total burned totalShares totalBTokens
    have hxT : x.val ≤ hw.pool.assets := bTokens_le_total
    have hpool := hw.pool_withdraw bTokens_le_total hxT burned totalShares totalBTokens
    refine hacc (by simp [call, Call.accrues]) present accrual hw ?_
    rw [call, State.claimAt_pool vault hw', hpool, Call.credits, if_pos rfl, ← hb, ← hx]
    refine .single (withdraw_rounded hx0.le hxT hc.nonneg (hle hw htotal) ?_
      (hm ▸ burned_le_balance) (hm ▸ shares))
    -- two users together hold no more than there is
    intro j hj
    have hsum := FiniteSum.sum_le_finsum hc.finite hc.nonneg {j, u}
    rw [Finset.sum_pair hj, hc.total] at hsum
    exact hsum.trans_eq htotal.symm

/-- The fair ledger shares out the depositors' bTokens, no more and no less: its total moves by
    the part an accrual keeps and by the bTokens of the movement. -/
theorem Effect.total (h : Effect t r s s') (hs : s.SoundAt r)
    (hkey : ∀ v, s.vaultAt r = some v → v.address = r) (hlisted : s.Listed)
    (hrate : 0 < (t.env.bRate r).val) :
    runTotal (fairMoves r s t) (s.bTokensAt r : ℚ) = s'.bTokensAt r := by
  -- the fee leaves the bTokens of the accrued vault
  have hacc {v w : ReserveVault Address} (haccrues : t.call.accrues r = true)
      (present : s.vaultAt r = some v)
      (accrual : v.updateRate t.env s.storage.feeMode = .ok w) :
      runTotal (fairMoves r s t) (s.bTokensAt r : ℚ) =
        runTotal (t.call.credits r t.env) (w.totalBTokens.val : ℚ) := by
    obtain ⟨-, -, hkept⟩ := v.kept_mem (hs.vault v present) hs.feeMode
      (by rw [hkey v present]; exact hrate) accrual
    rw [fairMoves, accrualAt_eq_some.2 ⟨haccrues, present, accrual⟩, State.bTokensAt_some present,
      hkept]
    rfl
  cases h with
  | untouched other unlisted vault shares =>
    rw [fairMoves, accrualAt_of_untouched hlisted other unlisted, State.bTokensAt,
      State.bTokensAt, vault]
    rfl
  | opened call absent vault shares =>
    rw [fairMoves, accrualAt_of_absent absent, State.bTokensAt_some vault, State.bTokensAt, absent]
    rfl
  | accrued call present accrual vault shares =>
    rw [hacc (by rw [call]; rfl) present accrual, call, State.bTokensAt_some vault]
    rfl
  | claimed call present accrual fees_pos underlying vault shares =>
    rw [hacc (by simp [call, Call.accrues]) present accrual, call, State.bTokensAt_some vault]
    rfl
  | deposited call auth amount_pos present accrual bTokens bTokens_pos minted minted_pos
      totalShares totalBTokens vault shares =>
    obtain ⟨hw, hb⟩ := hs.accrued hkey hrate present accrual
    have hx := ((ReserveVault.underlyingToBTokensDown_eq_ok hw.rate_pos).1 bTokens).2
    rw [hacc (by simp [call, Call.accrues]) present accrual, call, State.bTokensAt_some vault,
      totalBTokens, hx, hb]
    simp [Call.credits, runTotal, Move.applyTotal]
  | withdrawn call auth amount_pos present accrual bTokens burned burned_pos burned_le_total
      bTokens_le_total burned_le_balance totalShares totalBTokens vault shares =>
    obtain ⟨hw, hb⟩ := hs.accrued hkey hrate present accrual
    have hx := ((ReserveVault.underlyingToBTokensUp_eq_ok hw.rate_pos).1 bTokens).2
    rw [hacc (by simp [call, Call.accrues]) present accrual, call, State.bTokensAt_some vault,
      totalBTokens, hx, hb]
    simp [Call.credits, runTotal, Move.applyTotal, sub_eq_add_neg]

/-! ### Over runs -/

/-- Whether a call deposits into or withdraws from `r` for `u`. -/
def Call.movesFor (r u : Address) : Call Address → Bool
  | .deposit reserve user _ => reserve = r ∧ user = u
  | .withdraw reserve user _ => reserve = r ∧ user = u
  | _ => false

/-- Whether a call deposits into or withdraws from `r` for somebody other than `u`. -/
def Call.movesForOther (r u : Address) : Call Address → Bool
  | .deposit reserve user _ => reserve = r ∧ user ≠ u
  | .withdraw reserve user _ => reserve = r ∧ user ≠ u
  | _ => false

/-- The user's moves of the fair ledger are the user's calls: an accrual scales all claims and is
    nobody's move. -/
theorem own_fairMoves_le (r u : Address) (s : State Address) (t : Tx Address) :
    own u (fairMoves r s t) ≤ if t.call.movesFor r u then 1 else 0 := by
  unfold fairMoves
  split
  · exact Nat.zero_le _
  · cases t.call with
    | deposit reserve user amount | withdraw reserve user amount =>
      simp only [Call.credits, Call.movesFor]
      by_cases hr : reserve = r
      · by_cases hu : user = u <;> simp [hr, hu, own, Move.isOf]
      · simp [hr, own, Move.isOf]
    | setFeeMode | setAdmin | addReserveVault | claimEmissions | claimFees =>
      simp [Call.credits, Call.movesFor, own, Move.isOf]

/-- Those of the others are the calls of others, likewise. -/
theorem others_fairMoves_le (r u : Address) (s : State Address) (t : Tx Address) :
    others u (fairMoves r s t) ≤ if t.call.movesForOther r u then 1 else 0 := by
  unfold fairMoves
  split
  · exact Nat.zero_le _
  · cases t.call with
    | deposit reserve user amount | withdraw reserve user amount =>
      simp only [Call.credits, Call.movesForOther]
      by_cases hr : reserve = r
      · by_cases hu : user = u <;> simp [hr, hu, others, Move.isOfOther]
      · simp [hr, others, Move.isOfOther]
    | setFeeMode | setAdmin | addReserveVault | claimEmissions | claimFees =>
      simp [Call.credits, Call.movesForOther, others, Move.isOfOther]

/-- What is counted of the fair ledger's moves over a run is at most what is counted of
    the calls. -/
theorem countP_fairRun_le {p : Move Address ℚ → Bool} {q : Tx Address → Bool}
    (hstep : ∀ s t, (fairMoves r s t).countP p ≤ if q t then 1 else 0) (s : State Address)
    (ts : List (Tx Address)) :
    (fairRun r s ts).countP p ≤ (Revert.committed exec s ts).countP q := by
  induction ts generalizing s with
  | nil => exact le_rfl
  | cons t ts ih =>
    cases h : exec s t with
    | error f =>
      rw [fairRun, Revert.collect_cons_error h, Revert.committed_cons_error h]
      exact ih s
    | ok res =>
      rw [fairRun, Revert.collect_cons_ok (w := res.1) h, Revert.committed_cons_ok (w := res.1) h,
        List.flatten_cons, List.countP_append, List.countP_cons]
      have h1 := hstep s t
      have h2 := ih res.2
      rw [fairRun] at h2
      omega

/-- **Run.**  The claims move like the fair ledger, up to rounding, and its total is theirs. -/
theorem run_rounded {ts : List (Tx Address)} (hs : Reachable (fun e => 0 < (e.bRate r).val) s)
    (hrates : ∀ t ∈ ts, 0 < (t.env.bRate r).val) :
    RoundedRun (fairRun r s ts) (s.claimAt r) ((Revert.run exec s ts).claimAt r) ∧
      runTotal (fairRun r s ts) (s.bTokensAt r : ℚ) = (Revert.run exec s ts).bTokensAt r := by
  refine Revert.run_trace (I := Reachable fun e => 0 < (e.bRate r).val)
    (P := fun _ t => 0 < (t.env.bRate r).val)
    (R := fun s ms s' => RoundedRun ms.flatten (s.claimAt r) (s'.claimAt r) ∧
      runTotal ms.flatten (s.bTokensAt r : ℚ) = s'.bTokensAt r) ?_ ?_ ?_ hs
    (Revert.along_of_forall hrates)
  · intro s _
    exact ⟨.nil _, rfl⟩
  · intro s t val s' hs ht h
    exact Revert.step_ok h ▸ Revert.Reachable.step hs ht
  · rintro s t val s' ms s'' hs ht h ⟨hrest, htotal⟩
    have heffect := exec_effect hs.keyed h r
    have hsound := hs.soundAt fun _ he => he
    rw [List.flatten_cons]
    refine ⟨(heffect.rounded hsound (hs.conserved r) (hs.keyed r) hs.listed ht).append hrest, ?_⟩
    rw [runTotal, List.foldl_append, ← runTotal, ← runTotal,
      heffect.total hsound (hs.keyed r) hs.listed ht, htotal]

/-- A user's claim stays within a band around the fair one as wide as there are calls. -/
theorem run_tracks {ts : List (Tx Address)} (hs : Reachable (fun e => 0 < (e.bRate r).val) s)
    (hrates : ∀ t ∈ ts, 0 < (t.env.bRate r).val) (u : Address) :
    Tracks u ((Revert.committed exec s ts).countP fun t => t.call.movesFor r u)
      ((Revert.committed exec s ts).countP fun t => t.call.movesForOther r u)
      (run (fairRun r s ts) (s.claimAt r)) ((Revert.run exec s ts).claimAt r) :=
  ((run_rounded hs hrates).1.tracks u).mono (countP_fairRun_le (own_fairMoves_le r u) s ts)
    (countP_fairRun_le (others_fairMoves_le r u) s ts)

/-- The claims on `r` at the end of a run, beside a ledger that starts with the same
    claims and moves fairly. -/
structure FairWithin (r : Address) (s : State Address) (ts : List (Tx Address)) : Prop where
  /-- A user loses at most one bToken to rounding at each call of the user's own, … -/
  lower : ∀ u, run (fairRun r s ts) (s.claimAt r) u -
      (Revert.committed exec s ts).countP (fun t => t.call.movesFor r u) ≤
    (Revert.run exec s ts).claimAt r u
  /-- … and gains at most one at each call of another. -/
  upper : ∀ u, (Revert.run exec s ts).claimAt r u ≤ run (fairRun r s ts) (s.claimAt r) u +
    (Revert.committed exec s ts).countP fun t => t.call.movesForOther r u
  /-- The fair claims of all who ever had any are the depositors' bTokens. -/
  total : ∀ F : Finset Address, (∀ u, 0 < s.sharesAt r u → u ∈ F) →
    (∀ m ∈ fairRun r s ts, ∀ u x, m = .credit u x → u ∈ F) →
    ∑ u ∈ F, run (fairRun r s ts) (s.claimAt r) u = (Revert.run exec s ts).bTokensAt r

/-- **Claims track the fair ledger.**  From any reachable state, over any run of calls by anybody,
    at any positive rates and under any fee modes. -/
theorem claims_track_fair {ts : List (Tx Address)}
    (hs : Reachable (fun e => 0 < (e.bRate r).val) s)
    (hrates : ∀ t ∈ ts, 0 < (t.env.bRate r).val) : FairWithin r s ts := by
  refine ⟨?_, ?_, ?_⟩
  · intro u
    exact (run_tracks hs hrates u).1
  · intro u
    exact (run_tracks hs hrates u).2
  · intro F hF hmoves
    rw [total_run _ _ hmoves, ← (run_rounded hs hrates).2,
      State.sum_claimAt (hs.soundAt fun _ he => he) (hs.conserved r) hF]

omit [FixedPoint] in
/-- Calls of users `4` and `5` and of the admin after the concrete run. -/
theorem claims_track_fair_demo : @FairWithin ℕ FixedPoint.reference _ 7 Demo.state
    [⟨Demo.env 50 (I128.ofUInt64 1300000000000) 5, .deposit 7 5 (I128.ofUInt64 33333333)⟩,
     ⟨Demo.env 60 (I128.ofUInt64 1400000000000) 0, .setFeeMode true (I128.ofUInt64 500000)⟩,
     ⟨Demo.env 70 (I128.ofUInt64 1350000000000) 4, .withdraw 7 4 (I128.ofUInt64 22222222)⟩] :=
  @claims_track_fair ℕ FixedPoint.reference _ Demo.state 7 _
    (Demo.state_reachable.mono fun _ h => h 7) (by decide)

end FeeVault
