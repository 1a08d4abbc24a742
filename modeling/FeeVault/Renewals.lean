import FeeVault.FeeModes
import FeeVault.Lifetimes

namespace FeeVault

open Lease

/-!
# What keeps entries alive

* `Call.renews` / `View.renews` — the entries whose lease a request renews;
* `respond_renewed` — a request that succeeds renews these leases, for at least `Entry.life` and at
  most `Entry.bump` ledgers, and touches no other;
* `leases_kept` — so over any run each entry lives exactly as long as the requests that renew it
  keep it alive;
* `entry_expires` — and no longer than `Entry.bump` from the last of them;
* `reserves_neglected` — the list of reserves is not kept alive by the users.
-/

variable {Address : Type}

namespace Entry

/-- For how long an entry lives at least once its lease is renewed, in ledgers. -/
def life : Entry Address → ℕ
  | .shared => ledgerThresholdShared
  | _ => ledgerThresholdUser

/-- For how long it lives at most, if its lease did not last longer before. -/
def bump : Entry Address → ℕ
  | .shared => ledgerBumpShared
  | _ => ledgerBumpUser

/-- Every entry asks for a lease no shorter than the threshold below which it asks, the order the
    host needs to grant it. -/
theorem life_le_bump (k : Entry Address) : k.life ≤ k.bump := by
  cases k with
  | shared => exact Nat.sub_le _ _
  | reserves | resVault | deposit => exact Nat.sub_le _ _

/-- No entry asks for a longer lease than those of the users, … -/
theorem bump_le (k : Entry Address) : k.bump ≤ ledgerBumpUser := by
  cases k with
  | shared => exact Nat.mul_le_mul_right oneDayLedgers (by decide : 31 ≤ 120)
  | reserves | resVault | deposit => exact Nat.le_refl _

/-- … and none for a shorter one than the instance. -/
theorem le_bump (k : Entry Address) : ledgerBumpShared ≤ k.bump := by
  cases k with
  | shared => exact Nat.le_refl _
  | reserves | resVault | deposit =>
    exact Nat.mul_le_mul_right oneDayLedgers (by decide : 31 ≤ 120)

end Entry

/-- Whether the entry is there. -/
def Storage.HasEntry (st : Storage Address) : Entry Address → Prop
  | .shared => True
  | .reserves => st.reserves.isSome
  | .resVault r => (st.resVault r).isSome
  | .deposit key => (st.deposit key).isSome

/-! ### The entries a request renews -/

namespace Storage

variable (st : Storage Address)

/-- The entry of a user's shares, if it is there. -/
def sharesEntry (r u : Address) : List (Entry Address) :=
  if (st.deposit ⟨r, u⟩).isSome then [.deposit ⟨r, u⟩] else []

/-- What a movement touches, which writes to the vault and to the shares it has read. -/
theorem mem_moved (r u : Address) (k : Entry Address) :
    k ∈ [.resVault r] ++ (st.sharesEntry r u ++ ([.resVault r] ++ [.deposit ⟨r, u⟩])) ↔
      k ∈ [.resVault r, .deposit ⟨r, u⟩] := by
  unfold sharesEntry
  split
  · simp
    tauto
  · simp

/-- The entry of the list of reserves, if it is there. -/
def reservesEntry : List (Entry Address) :=
  if st.reserves.isSome then [.reserves] else []

end Storage

/-- The entries whose leases a call renews. -/
def Call.renews (s : State Address) : Call Address → List (Entry Address)
  | .setFeeMode _ _ => .shared :: (s.storage.reservesEntry ++ s.storage.getReserves.map .resVault)
  | .setAdmin _ => [.shared]
  | .addReserveVault r => [.shared, .resVault r, .reserves]
  | .claimEmissions _ _ => [.shared]
  | .claimFees r _ => [.shared, .resVault r]
  | .deposit r u _ => [.shared, .resVault r, .deposit ⟨r, u⟩]
  | .withdraw r u _ => [.shared, .resVault r, .deposit ⟨r, u⟩]

/-- The entries whose leases a view renews.  The instance is not among them. -/
def View.renews (s : State Address) : View Address → List (Entry Address)
  | .getShares r u => s.storage.sharesEntry r u
  | .getBTokens r u | .getUnderlyingTokens r u =>
    s.storage.sharesEntry r u ++ if 0 < s.sharesAt r u then [.resVault r] else []
  | .getCollectedFees r => if s.storage.hasReserveVault r then [.resVault r] else []
  | .getPool => []
  | .getReserveVault r => [.resVault r]

/-- The entries whose leases a request renews. -/
def Request.renews (s : State Address) (t : Request Address) : List (Entry Address) :=
  t.entryPoint.elim (Call.renews s) (View.renews s)

/-! ### One function after the other -/

namespace Metered

variable {l : Leases (Entry Address)} {e : Env Address} {st : FeeVault.Storage Address}
  {s : State Address} {r u : Address} {amount value : I128}

/-- `x` renews the leases of `ks` among `l`. -/
abbrev Renewed {α : Type} (l : Leases (Entry Address)) (ks : List (Entry Address))
    (x : Metered Address α) : Prop := RenewedBy Entry.life Entry.bump l ks x

/-- How reading an entry that is there ends: with an extension of its lease. -/
theorem renewed_extendTtl {α : Type} {k : Entry Address} (hk : ⊥ < l k) (a : α) :
    Renewed l [k] (extendTtl k k.life k.bump >>= fun _ => pure a) := by
  rintro _ _ ⟨⟩
  exact .extendTtl hk

/-- How writing an entry ends: it is there after the write, so its lease can be extended whether
    or not it was there before. -/
theorem renewed_set {α : Type} (k : Entry Address) (a : α) :
    Renewed l [k] (set k >>= fun _ => extendTtl k k.life k.bump >>= fun _ => pure a) := by
  rintro _ _ ⟨⟩
  exact .set_extendTtl

/-- Every call starts with this; the instance has been there since deployment. -/
theorem renewed_extendInstance (h : ⊥ < l .shared) :
    Renewed l [.shared] Storage.extendInstance := by
  rintro _ _ ⟨⟩
  exact .extendTtl h

/-- Reading a vault renews it.  For a reserve that has none reading fails, and renews nothing. -/
theorem renewed_getReserveVault (h : ∀ v, st.resVault r = some v → ⊥ < l (.resVault r)) :
    Renewed l [.resVault r] (Storage.getReserveVault st r) := by
  unfold Storage.getReserveVault
  split
  · next v hv => exact renewed_extendTtl (h v hv) v
  · exact .throw _

/-- Reading the shares of a user renews them if they are stored.  A user without an entry holds
    zero, and reading that creates none. -/
theorem renewed_getReserveVaultShares
    (h : (st.deposit ⟨r, u⟩).isSome → ⊥ < l (.deposit ⟨r, u⟩)) :
    Renewed l (st.sharesEntry r u) (Storage.getReserveVaultShares st r u) := by
  unfold Storage.getReserveVaultShares FeeVault.Storage.sharesEntry
  cases hd : st.deposit ⟨r, u⟩ with
  | some shares => exact renewed_extendTtl (h (hd ▸ rfl)) shares
  | none => exact .pure 0

/-- The list of reserves, likewise. -/
theorem renewed_getReserves (h : st.reserves.isSome → ⊥ < l .reserves) :
    Renewed l st.reservesEntry (Storage.getReserves st) := by
  unfold Storage.getReserves FeeVault.Storage.reservesEntry
  cases hr : st.reserves with
  | some reserves => exact renewed_extendTtl (h (hr ▸ rfl)) reserves
  | none => exact .pure []

/-- Adding to the list reads and writes it, so it is renewed whether or not it was there. -/
theorem renewed_addReserveToReserves (h : st.reserves.isSome → ⊥ < l .reserves) :
    Renewed l [.reserves] (Storage.addReserveToReserves st r) := by
  refine ((renewed_getReserves h).bind fun reserves _ => renewed_set .reserves _).congr ?_
  intro k
  unfold FeeVault.Storage.reservesEntry
  split <;> simp

section

variable [DecidableEq Address]

/-- Writing a vault renews it. -/
theorem renewed_setReserveVault (v : FeeVault.ReserveVault Address) :
    Renewed l [.resVault r] (Storage.setReserveVault st r v) := renewed_set _ _

/-- Writing the shares of a user renews them, and creates the entry with the first deposit. -/
theorem renewed_setReserveVaultShares (shares : I128) :
    Renewed l [.deposit ⟨r, u⟩] (Storage.setReserveVaultShares st r u shares) := renewed_set _ _

/-- How a movement ends. -/
theorem renewed_stored {α : Type} (v : FeeVault.ReserveVault Address) (shares : I128)
    (g : FeeVault.Storage Address → α) :
    Renewed l ([.resVault r] ++ [.deposit ⟨r, u⟩])
      (Storage.setReserveVault st r v >>= fun st =>
        Storage.setReserveVaultShares st r u shares >>= fun st => pure (g st)) :=
  (renewed_setReserveVault v).bind fun _ _ => (renewed_setReserveVaultShares shares).bind_pure g

end

variable [FixedPoint]

/-- Accrual computes on the vault that was read, and touches no entry of its own. -/
theorem renewed_getReserveVaultUpdated (h : ∀ v, st.resVault r = some v → ⊥ < l (.resVault r)) :
    Renewed l [.resVault r] (ReserveVault.getReserveVaultUpdated e st r) :=
  (renewed_getReserveVault h).bind fun _ _ => .lift _

/-- What the bookkeeping needs to know of the entries it touches. -/
structure Held (l : Leases (Entry Address)) (st : FeeVault.Storage Address) (r : Address) :
    Prop where
  keyed : ∀ v, st.resVault r = some v → v.address = r
  resVault : ∀ v, st.resVault r = some v → ⊥ < l (.resVault r)
  deposit : ∀ u, (st.deposit ⟨r, u⟩).isSome → ⊥ < l (.deposit ⟨r, u⟩)

variable [DecidableEq Address]

section Booked

variable (h : Held l st r)
include h

omit [DecidableEq Address] in
/-- A vault read under a reserve carries that reserve as its address: the entry written back is
    the one that was read. -/
theorem Held.address
    (hv : plain (ReserveVault.getReserveVaultUpdated e st r) = .ok v) : v.address = r := by
  rw [plain_getReserveVaultUpdated] at hv
  obtain ⟨v₀, hv₀, hv⟩ := FeeVault.ReserveVault.getReserveVaultUpdated_eq_ok.1 hv
  exact (FeeVault.ReserveVault.updateRate_address hv).trans (h.keyed v₀ hv₀)

/-- The bookkeeping of a deposit reads and writes the vault and the user's shares, and
    touches no other entry. -/
theorem renewed_booked_deposit :
    Renewed l [.resVault r, .deposit ⟨r, u⟩] (ReserveVault.deposit e st r u amount) := by
  refine (RenewedBy.bind (renewed_getReserveVaultUpdated h.resVault) fun v hv => ?_ : Renewed l
    ([.resVault r] ++ (st.sharesEntry r u ++ ([.resVault r] ++ [.deposit ⟨r, u⟩]))) _).congr ?_
  · -- the vault goes back under the address it carries
    obtain rfl := h.address hv
    refine .lift_bind fun x _ => .lift_bind fun _ _ => ?_
    refine (renewed_getReserveVaultShares (h.deposit u)).bind fun o _ => ?_
    refine .lift_bind fun m _ => .lift_bind fun _ _ => .lift_bind fun S _ => ?_
    exact .lift_bind fun T _ => .lift_bind fun o' _ => renewed_stored _ _ _
  · exact st.mem_moved r u

/-- That of a withdrawal touches the same two.  A check that fails midway keeps nothing, the
    renewals included. -/
theorem renewed_booked_withdraw :
    Renewed l [.resVault r, .deposit ⟨r, u⟩] (ReserveVault.withdraw e st r u amount) := by
  refine (RenewedBy.bind (renewed_getReserveVaultUpdated h.resVault) fun v hv => ?_ : Renewed l
    ([.resVault r] ++ (st.sharesEntry r u ++ ([.resVault r] ++ [.deposit ⟨r, u⟩]))) _).congr ?_
  · obtain rfl := h.address hv
    refine .lift_bind fun x _ => ?_
    refine (renewed_getReserveVaultShares (h.deposit u)).bind fun o _ => ?_
    refine .lift_bind fun m _ => .lift_bind fun _ _ => ?_
    split
    · exact .throw _
    · split
      · exact .throw _
      · exact .lift_bind fun S _ => .lift_bind fun T _ => .lift_bind fun o' _ =>
          renewed_stored _ _ _
  · exact st.mem_moved r u

/-- That of a fee claim touches the vault only. -/
theorem renewed_booked_claimFees :
    Renewed l [.resVault r] (ReserveVault.claimFees e st r) := by
  refine (RenewedBy.bind (renewed_getReserveVaultUpdated h.resVault) fun v hv => ?_ : Renewed l
    ([.resVault r] ++ [.resVault r]) _).congr ?_
  · obtain rfl := h.address hv
    refine .lift_bind fun _ _ => .lift_bind fun y _ => ?_
    exact (renewed_setReserveVault _).bind_pure _
  · simp

end Booked

/-- One turn of the loop over the reserves reads and writes the vault of its reserve. -/
theorem renewed_accrueInterestForReserve
    (h : ∀ v, st.resVault r = some v → ⊥ < l (.resVault r)) :
    Renewed l [.resVault r] (ReserveVault.accrueInterestForReserve e st r) :=
  ((renewed_getReserveVaultUpdated h).bind fun v _ => renewed_setReserveVault v).congr <| by simp

/-- The whole loop renews the list of reserves and the vault of each reserve on it; that each has
    one is an invariant of the contract. -/
theorem renewed_accrueInterestForAllReserves (hlist : st.reserves.isSome → ⊥ < l .reserves)
    (h : ∀ r ∈ st.getReserves, ⊥ < l (.resVault r)) :
    Renewed l (st.reservesEntry ++ st.getReserves.map .resVault)
      (ReserveVault.accrueInterestForAllReserves e st) := by
  refine (renewed_getReserves hlist).bind fun reserves hr => ?_
  rw [plain_getReserves] at hr
  obtain rfl := Except.ok.inj hr
  rw [List.map_eq_flatMap]
  exact .foldlM (fun st' r hr => renewed_accrueInterestForReserve fun _ _ => h r hr) st

/-! ### One entry point after the other -/

/-- The state is one that can be reached, and what it stores is there for the host. -/
structure Alive (s : State Address) (l : Leases (Entry Address)) : Prop where
  reachable : Reachable (fun _ => True) s
  lease : ∀ k, s.storage.HasEntry k → ⊥ < l k

section Contract

variable (h : Alive s l)
include h

/-- An alive contract has all that the bookkeeping of any reserve needs. -/
theorem Alive.held (r : Address) : Held l s.storage r where
  keyed := h.reachable.keyed r
  resVault _ hv := h.lease (.resVault r) (Option.isSome_iff_exists.2 ⟨_, hv⟩)
  deposit u hu := h.lease (.deposit ⟨r, u⟩) hu

/-- `set_fee_mode` renews the list of reserves and, walking it, the vaults of all of them, so it
    is the one call that keeps a vault alive that nobody uses. -/
theorem renewed_setFeeMode {isAprCapped : Bool} :
    Renewed l (Call.renews s (.setFeeMode isAprCapped value))
      (Contract.setFeeMode e s isAprCapped value) := by
  refine (renewed_extendInstance (h.lease .shared trivial)).bind fun _ _ => ?_
  refine .lift_bind fun _ _ => .lift_bind fun _ _ => ?_
  refine (renewed_accrueInterestForAllReserves (h.lease .reserves) fun r hr => ?_).bind_pure _
  obtain ⟨v, hv⟩ := h.reachable.stored r hr
  exact (h.held r).resVault v hv

/-- `set_admin` renews the instance, where the admin is stored. -/
theorem renewed_setAdmin {admin : Address} :
    Renewed l (Call.renews s (.setAdmin admin)) (Contract.setAdmin e s admin) := by
  refine (renewed_extendInstance (h.lease .shared trivial)).bind fun _ _ => ?_
  exact .lift_bind fun _ _ => .lift_bind fun _ _ => .pure _

/-- `add_reserve_vault` creates a vault and may create the list. -/
theorem renewed_addReserveVault :
    Renewed l (Call.renews s (.addReserveVault r)) (Contract.addReserveVault e s r) := by
  refine (renewed_extendInstance (h.lease .shared trivial)).bind fun _ _ => .lift_bind fun _ _ => ?_
  split
  · exact .throw _
  · refine (renewed_setReserveVault _).bind fun st hst => ?_
    rw [plain_setReserveVault] at hst
    obtain rfl := Except.ok.inj hst
    refine .bind_pure ?_ _
    -- the list is read after the vault is stored, which leaves it alone
    exact renewed_addReserveToReserves (h.lease .reserves)

/-- `claim_emissions` touches no entry of a reserve. -/
theorem renewed_claimEmissions {ids : List UInt32} {toAddr : Address} :
    Renewed l (Call.renews s (.claimEmissions ids toAddr))
      (Contract.claimEmissions e s ids toAddr) := by
  refine (renewed_extendInstance (h.lease .shared trivial)).bind fun _ _ => ?_
  exact .lift_bind fun _ _ => .lift_bind fun _ _ => .pure _

/-- `claim_fees` renews the vault whose fees leave, and nobody's shares. -/
theorem renewed_claimFees {toAddr : Address} :
    Renewed l (Call.renews s (.claimFees r toAddr)) (Contract.claimFees e s r toAddr) := by
  refine (renewed_extendInstance (h.lease .shared trivial)).bind fun _ _ => ?_
  refine .lift_bind fun _ _ => .lift_bind fun _ _ => ?_
  exact (renewed_booked_claimFees (h.held r)).bind_nil fun _ _ => .lift_bind fun _ _ => .pure _

/-- `deposit` renews the vault and the shares of the one user who deposits. -/
theorem renewed_deposit :
    Renewed l (Call.renews s (.deposit r u amount)) (Contract.deposit e s r u amount) := by
  refine (renewed_extendInstance (h.lease .shared trivial)).bind fun _ _ => ?_
  refine .lift_bind fun _ _ => .lift_bind fun _ _ => .lift_bind fun _ _ => .lift_bind fun _ _ => ?_
  exact (renewed_booked_deposit (h.held r)).bind_pure _

/-- `withdraw` renews the same two; the shares stay stored even when none are left. -/
theorem renewed_withdraw :
    Renewed l (Call.renews s (.withdraw r u amount)) (Contract.withdraw e s r u amount) := by
  refine (renewed_extendInstance (h.lease .shared trivial)).bind fun _ _ => ?_
  refine .lift_bind fun _ _ => .lift_bind fun _ _ => .lift_bind fun _ _ => .lift_bind fun _ _ => ?_
  exact (renewed_booked_withdraw (h.held r)).bind_pure _

/-- A view reads the shares first and the vault only if there are any, so what it renews depends
    on whether the user holds something. -/
theorem renewed_view (v : View Address) : Renewed l (v.renews s) (view e s v) := by
  have hshares (r u : Address) : Renewed l (s.storage.sharesEntry r u)
      (Storage.getReserveVaultShares s.storage r u) :=
    renewed_getReserveVaultShares ((h.held r).deposit u)
  have hvault (r : Address) : Renewed l [.resVault r]
      (ReserveVault.getReserveVaultUpdated e s.storage r) :=
    renewed_getReserveVaultUpdated (h.held r).resVault
  cases v with
  | getShares r u => exact (hshares r u).map _
  | getBTokens r u =>
    refine RenewedBy.map ((hshares r u).bind fun shares hget => ?_) _
    rw [plain_getReserveVaultShares] at hget
    obtain rfl := Except.ok.inj hget
    show Renewed l (if 0 < s.sharesAt r u then [.resVault r] else [])
      (if 0 < s.sharesAt r u then _ else _)
    split
    · exact (hvault r).bind_nil fun _ _ => .lift _
    · exact .pure _
  | getUnderlyingTokens r u =>
    refine RenewedBy.map ((hshares r u).bind fun shares hget => ?_) _
    rw [plain_getReserveVaultShares] at hget
    obtain rfl := Except.ok.inj hget
    show Renewed l (if 0 < s.sharesAt r u then [.resVault r] else [])
      (if 0 < s.sharesAt r u then _ else _)
    split
    · exact (hvault r).bind_nil fun _ _ => .lift_bind fun _ _ => .lift _
    · exact .pure _
  | getCollectedFees r =>
    refine RenewedBy.map ?_ _
    unfold Contract.getCollectedFees
    show Renewed l (if s.storage.hasReserveVault r then [.resVault r] else []) _
    split
    · exact (hvault r).bind_nil fun _ _ => .lift _
    · exact .pure _
  | getPool => exact .pure _
  | getReserveVault r => exact (hvault r).map _

/-- **One request** renews the entries listed for it among those that are there, by
    cases on the entry point. -/
theorem renewed_respond (t : Request Address) : Renewed l (t.renews s) (respond s t) := by
  obtain ⟨e, n, call | view⟩ := t
  · refine RenewedBy.map ?_ _
    show Renewed l (call.renews s) _
    cases call with
    | setFeeMode isAprCapped value => exact (renewed_setFeeMode h).map _
    | setAdmin admin => exact (renewed_setAdmin h).map _
    | addReserveVault r => exact (renewed_addReserveVault h).map _
    | claimEmissions ids toAddr => exact (renewed_claimEmissions h).map _
    | claimFees r toAddr => exact (renewed_claimFees h).map _
    | deposit r u amount => exact (renewed_deposit h).map _
    | withdraw r u amount => exact (renewed_withdraw h).map _
  · exact (renewed_view h view).map _

end Contract

end Metered

/-! ### Entries that come to be -/

section Entries

variable [FixedPoint] [DecidableEq Address]

variable {s s' : State Address} {st : Storage Address} {t : Tx Address} {val : Value}
  {k : Entry Address} {r u : Address} {v : ReserveVault Address} {shares : I128}
  {ok : Env Address → Prop}

namespace Storage

omit [FixedPoint]

/-- Writing a vault brings no entry to be but that vault. -/
theorem hasEntry_setReserveVault (h : (st.setReserveVault r v).HasEntry k) :
    st.HasEntry k ∨ k = .resVault r := by
  cases k with
  | shared | reserves | deposit => exact .inl h
  | resVault r' =>
    by_cases hr : r' = r
    · exact .inr (hr ▸ rfl)
    · refine .inl ?_
      have h' : ((st.setReserveVault r v).resVault r').isSome := h
      rwa [resVault_setReserveVault, if_neg hr] at h'

/-- Writing shares brings no entry to be but those shares. -/
theorem hasEntry_setReserveVaultShares (h : (st.setReserveVaultShares r u shares).HasEntry k) :
    st.HasEntry k ∨ k = .deposit ⟨r, u⟩ := by
  cases k with
  | shared | reserves | resVault => exact .inl h
  | deposit key =>
    by_cases hkey : key = ⟨r, u⟩
    · exact .inr (hkey ▸ rfl)
    · refine .inl ?_
      have h' : (Function.update st.deposit ⟨r, u⟩ (some shares) key).isSome := h
      rwa [Function.update_of_ne hkey] at h'

/-- So a movement brings none to be but the two it renews. -/
theorem hasEntry_moved
    (h : ((st.setReserveVault r v).setReserveVaultShares r u shares).HasEntry k) :
    st.HasEntry k ∨ k ∈ [.resVault r, .deposit ⟨r, u⟩] := by
  rcases hasEntry_setReserveVaultShares h with h | rfl
  · rcases hasEntry_setReserveVault h with h | rfl
    · exact .inl h
    · exact .inr List.mem_cons_self
  · exact .inr (List.mem_cons_of_mem _ List.mem_cons_self)

omit [DecidableEq Address] in
/-- Adding to the list brings none to be but the list. -/
theorem hasEntry_addReserveToReserves (h : (st.addReserveToReserves r).HasEntry k) :
    st.HasEntry k ∨ k = .reserves := by
  cases k with
  | shared | resVault | deposit => exact .inl h
  | reserves => exact .inr rfl

end Storage

/-- What a call brings to be is among what it renews, so a new entry starts out on a
    lease like any other. -/
theorem exec_hasEntry (hs : Reachable ok s) (h : exec s t = .ok (val, s'))
    (hk : s'.storage.HasEntry k) : s.storage.HasEntry k ∨ k ∈ t.call.renews s := by
  have haddr {r : Address} {w : ReserveVault Address}
      (hw : ReserveVault.getReserveVaultUpdated t.env s.storage r = .ok w) : w.address = r := by
    obtain ⟨v, hv, hw⟩ := ReserveVault.getReserveVaultUpdated_eq_ok.1 hw
    exact (ReserveVault.updateRate_address hw).trans (hs.keyed r v hv)
  cases exec_committed h with
  | @setFeeMode fm st call valid accrued storage =>
    rw [storage] at hk
    obtain ⟨f, rfl⟩ := ReserveVault.foldlM_accrue_frame accrued
    cases k with
    | shared | reserves | deposit => exact .inl hk
    | resVault r =>
      obtain ⟨hout, hin⟩ := ReserveVault.foldlM_accrue_eq_ok hs.keyed accrued r
      by_cases hr : r ∈ s.storage.getReserves
      · rw [call]
        exact .inr (List.mem_cons_of_mem _ (List.mem_append_right _ (List.mem_map_of_mem hr)))
      · refine .inl ?_
        have hk' : (f r).isSome := hk
        have hf : f r = s.storage.resVault r := hout hr
        rwa [hf] at hk'
  | setAdmin _ storage =>
    rw [storage] at hk
    cases k with
    | shared | reserves | resVault | deposit => exact .inl hk
  | addReserveVault call _ storage =>
    rw [storage] at hk
    rcases Storage.hasEntry_addReserveToReserves hk with hk | rfl
    · rcases Storage.hasEntry_setReserveVault hk with hk | rfl
      · exact .inl hk
      · simp [call, Call.renews]
    · simp [call, Call.renews]
  | claimEmissions _ storage => exact .inl (storage ▸ hk)
  | @claimFees r toAddr x a call booked =>
    obtain ⟨w, hw, -, -, -, hstorage⟩ := ReserveVault.claimFees_eq_ok booked
    rw [hstorage] at hk
    rcases Storage.hasEntry_setReserveVault hk with hk | rfl
    · exact .inl hk
    · rw [haddr hw]
      simp [call, Call.renews]
  | @deposit r u a x m call auth amount_pos booked =>
    obtain ⟨w, S, T, bal, hw, -, -, -, -, -, -, -, hstorage⟩ := ReserveVault.deposit_eq_ok booked
    rw [hstorage, haddr hw] at hk
    rw [call]
    exact (Storage.hasEntry_moved hk).imp_right (List.mem_cons_of_mem _)
  | @withdraw r u a x m call auth amount_pos booked =>
    obtain ⟨w, S, T, bal, hw, -, -, -, -, -, -, -, -, -, hstorage⟩ :=
      ReserveVault.withdraw_eq_ok booked
    rw [hstorage, haddr hw] at hk
    rw [call]
    exact (Storage.hasEntry_moved hk).imp_right (List.mem_cons_of_mem _)

end Entries

/-! ### Runs -/

section Runs

variable [FixedPoint] [DecidableEq Address]

variable {s s' : State Address} {l : Leases (Entry Address)} {t : Request Address}
  {ok : Env Address → Prop}

/-- A request changes nothing, or is a call that succeeds: the invariants of calls are
    those of requests. -/
theorem respond_eq_ok {y : Reply Address} (h : respond s t = .ok (y, s')) :
    s' = s ∨ ∃ call val, t.entryPoint = .inl call ∧ exec s ⟨t.env, call⟩ = .ok (val, s') := by
  unfold respond at h
  cases hentry : t.entryPoint with
  | inl call =>
    rw [hentry] at h
    obtain ⟨⟨val, s₁⟩, hexec, heq⟩ := map_eq_ok.1 h
    obtain ⟨-, rfl⟩ := Prod.mk.inj heq
    exact .inr ⟨call, val, rfl, hexec⟩
  | inr view =>
    rw [hentry] at h
    obtain ⟨z, -, heq⟩ := map_eq_ok.1 h
    obtain ⟨-, rfl⟩ := Prod.mk.inj heq
    exact .inl rfl

variable [LeaseHost]

/-- The vault with the leases of its entries. -/
abbrev execLeased : State Address × Leases (Entry Address) → Request Address →
    Except Failure (Reply Address × (State Address × Leases (Entry Address))) :=
  leased Metered.respond Request.sequence

/-- What is stored is on a lease, after every request: entries that were there keep theirs, and
    new ones are renewed. -/
theorem Metered.Alive.step {x' : State Address × Leases (Entry Address)} {y : Reply Address}
    (h : Metered.Alive s l) (hexec : execLeased (s, l) t = .ok (y, x')) :
    Metered.Alive x'.1 x'.2 := by
  obtain ⟨s', l'⟩ := x'
  obtain ⟨w, hrun, rfl⟩ := leased_eq_ok.1 hexec
  have hrenews := Metered.renewed_respond h t (y, s') w hrun
  have hrespond : FeeVault.respond s t = .ok (y, s') := by
    rw [← Metered.plain_respond]
    show (Metered.respond s t).run.map Prod.fst = _
    rw [hrun]
    rfl
  rcases respond_eq_ok hrespond with rfl | ⟨call, val, hentry, hcall⟩
  · exact ⟨h.reachable, fun k hk => (h.lease k hk).trans_le (le_applyLog w l k)⟩
  · -- an entry was there before, or is among those just renewed
    refine ⟨?_, fun k hk => ?_⟩
    · have hstep : Revert.step FeeVault.exec s ⟨t.env, call⟩ = s' := Revert.step_ok hcall
      exact hstep ▸ h.reachable.step trivial
    · rcases exec_hasEntry h.reachable hcall hk with hold | hnew
      · exact (h.lease k hold).trans_le (le_applyLog w l k)
      · refine hrenews.applyLog_pos ?_
        rw [Request.renews, hentry]
        exact hnew

omit [LeaseHost] in
/-- A contract just deployed has an instance, on whatever lease the host gave it, and
    nothing else. -/
theorem Deployed.alive (hs : Deployed s) (n : ℕ) :
    Metered.Alive s (Function.update ⊥ .shared (WithBot.some n)) where
  reachable := .init hs
  lease := by
    obtain ⟨e, admin, pool, isAprCapped, value, h⟩ := hs
    simp only [Contract.constructor, bind_eq_ok, pure_eq_ok] at h
    obtain ⟨-, -, -, -, h⟩ := h
    obtain rfl := Except.ok.inj h
    intro k hk
    cases k with
    | shared =>
      rw [Function.update_self]
      exact WithBot.bot_lt_coe n
    | reserves | resVault | deposit => cases hk

/-- What becomes of the lease of one entry. -/
theorem Metered.Alive.kept (h : Metered.Alive s l) (hmax : ledgerBumpUser ≤ LeaseHost.maxTtl)
    (ts : List (Request Address)) (k : Entry Address) :
    Kept k.life k.bump (l k)
      (renewals FeeVault.respond Request.sequence (fun s t => t.renews s) k s ts)
      ((Revert.run execLeased (s, l) ts).2 k) := by
  rw [← Metered.plain_respond]
  exact run_kept (I := fun x => Metered.Alive x.1 x.2) (x := (s, l)) Entry.life_le_bump
    (fun k => k.bump_le.trans hmax) (fun _ _ _ _ h hexec => h.step hexec)
    (fun _ _ t h => Metered.renewed_respond h t) h ts k

/-- **Lifetimes.**  Let the host grant leases of `ledgerBumpUser`.  Over any run of calls and views,
    in any ledgers, each entry lives at least `Entry.life` ledgers from every request that succeeds
    and renews it, at most `Entry.bump` from the latest of them unless it already lived longer or
    the host created it with a longer lease, and with none of them just as long as before.

    The first part, that leases change nothing of what the contract stores, holds by construction,
    as `run_leased` has it of any system: an entry past its lease is still read. -/
theorem leases_kept (h : Metered.Alive s l) (hmax : ledgerBumpUser ≤ LeaseHost.maxTtl)
    (ts : List (Request Address)) :
    (Revert.run execLeased (s, l) ts).1 = Revert.run respond s ts ∧
      ∀ k, Kept k.life k.bump (l k)
        (renewals respond Request.sequence (fun s t => t.renews s) k s ts)
        ((Revert.run execLeased (s, l) ts).2 k) := by
  refine ⟨?_, h.kept hmax ts⟩
  rw [← Metered.plain_respond]
  exact run_leased (s, l) ts

/-- The concrete run, a call a day, and a view a month later. -/
def Demo.requests : List (Request ℕ) :=
  Demo.txs.mapIdx (fun i t => ⟨t.env, i * oneDayLedgers, .inl t.call⟩) ++
    [⟨env 80 scalar12 9, 34 * oneDayLedgers, .inr (.getShares 7 3)⟩]

/-- An instance that lives for 5000 ledgers from deployment. -/
def Demo.leases : Leases (Entry ℕ) := Function.update ⊥ .shared (WithBot.some 5000)

omit [FixedPoint] [DecidableEq Address] [LeaseHost] in
/-- Over a run that ends with a view, on the reference host. -/
theorem leases_kept_demo :
    (Revert.run (@execLeased ℕ FixedPoint.reference _ LeaseHost.reference)
        (Demo.deployed, Demo.leases) Demo.requests).1 =
      Revert.run (@respond ℕ FixedPoint.reference _) Demo.deployed Demo.requests ∧
    ∀ k : Entry ℕ, @Kept LeaseHost.reference k.life k.bump (Demo.leases k)
      (renewals (@respond ℕ FixedPoint.reference _) Request.sequence (fun s t => t.renews s) k
        Demo.deployed Demo.requests)
      ((Revert.run (@execLeased ℕ FixedPoint.reference _ LeaseHost.reference)
        (Demo.deployed, Demo.leases) Demo.requests).2 k) :=
  @leases_kept ℕ FixedPoint.reference _ _ _ LeaseHost.reference
    (@Deployed.alive ℕ FixedPoint.reference _ _ Demo.deployed_deployed 5000) (by decide)
    Demo.requests

omit [FixedPoint] [DecidableEq Address] [LeaseHost] in
/-- The deposit of `3` is renewed by the deposit and by the view, the instance by the calls only. -/
example : (renewals (@respond ℕ FixedPoint.reference _) Request.sequence (fun s t => t.renews s)
      (.deposit ⟨7, 3⟩) Demo.deployed Demo.requests = [oneDayLedgers, 34 * oneDayLedgers]) ∧
    (renewals (@respond ℕ FixedPoint.reference _) Request.sequence (fun s t => t.renews s)
      .shared Demo.deployed Demo.requests).length = 4 := by decide

/-- On a host that grants a new entry no longer a lease than the instance asks for, an entry expires
    as soon as the latest request that renewed it allows, also one that the run itself created. -/
theorem entry_expires (h : Metered.Alive s l) (hmax : ledgerBumpUser ≤ LeaseHost.maxTtl)
    (hcreated : ∀ m, LeaseHost.created m ≤ m + ledgerBumpShared) {ts : List (Request Address)}
    {k : Entry Address} {b : ℕ} (hk : l k ≤ WithBot.some b)
    (hts : ∀ m ∈ renewals respond Request.sequence (fun s t => t.renews s) k s ts, m + k.bump ≤ b) :
    (Revert.run execLeased (s, l) ts).2 k ≤ WithBot.some b :=
  (h.kept hmax ts k).le_of_created_le
    (fun m => (hcreated m).trans (Nat.add_le_add_left k.le_bump m)) hk hts

/-- The list of reserves is kept alive by `set_fee_mode` and `add_reserve_vault` alone: however
    busy the users are, it lives no longer for it. -/
theorem reserves_neglected (h : Metered.Alive s l) (hmax : ledgerBumpUser ≤ LeaseHost.maxTtl)
    {ts : List (Request Address)}
    (hts : ∀ t ∈ ts, ∀ call, t.entryPoint = .inl call →
      (∀ isAprCapped value, call ≠ .setFeeMode isAprCapped value) ∧
        ∀ r, call ≠ .addReserveVault r) :
    (Revert.run execLeased (s, l) ts).2 .reserves = l .reserves := by
  refine (h.kept hmax ts .reserves).eq_of_nil (renewals_eq_nil (fun t ht s => ?_) s)
  have ht := hts t ht
  rw [Request.renews]
  cases hentry : t.entryPoint with
  | inl call =>
    obtain ⟨hmode, hopen⟩ := ht call hentry
    show .reserves ∉ call.renews s
    cases call with
    | setFeeMode isAprCapped value => exact absurd rfl (hmode isAprCapped value)
    | addReserveVault r => exact absurd rfl (hopen r)
    | setAdmin | claimEmissions | claimFees | deposit | withdraw => simp [Call.renews]
  | inr view =>
    show .reserves ∉ view.renews s
    cases view <;> simp [View.renews, Storage.sharesEntry]

end Runs

end FeeVault
