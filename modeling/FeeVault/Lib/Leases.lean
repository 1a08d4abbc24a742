import FeeVault.Lib.Runs
import Mathlib.Control.Monad.Writer
import Mathlib.Data.List.ReduceOption
import Mathlib.Order.WithBot

/-!
# Entries on a lease

A host keeps each entry of a store up to a certain ledger, and further once a program asks it to.
What becomes of an entry past its lease is the host's affair (it archives and restores it), and not
modelled.

* `LeaseHost` — what the host does, a parameter: extending a lease never shortens it and makes it
  last as long as was asked for, within the host's maximum, and no longer;
* `Access` / `applyLog` — what a program does that bears on leases, and the leases after a log of
  it;
* `Renews` — which leases a log renews;
* `plain` — a computation that leaves a log, without it; `RenewedBy` — which leases its log renews.
  Both are put together from the parts of a computation (`plain_bind`, `RenewedBy.bind`);
* `leased` — a transaction system with its leases;
* `run_kept` — **the rule for runs**: each entry lives up to the end of the leases that the
  transactions renewing it took, and no longer.
-/

/-- The host's part in the life of an entry. -/
class LeaseHost where
  /-- The longest lease there is. -/
  maxTtl : ℕ
  /-- The ledger up to which an entry created in the ledger `now` lives. -/
  created (now : ℕ) : ℕ
  /-- The ledger up to which an entry lives after `extend_ttl(threshold, extend_to)` in the ledger
      `now`, which lived up to `live`. -/
  extended (now live threshold extendTo : ℕ) : ℕ
  le_extended {now live threshold extendTo : ℕ} : live ≤ extended now live threshold extendTo
  threshold_le_extended {now live threshold extendTo : ℕ} (h : threshold ≤ extendTo)
    (hmax : extendTo ≤ maxTtl) : now + threshold ≤ extended now live threshold extendTo
  extended_le {now live threshold extendTo : ℕ} :
    extended now live threshold extendTo ≤ max live (now + extendTo)

namespace LeaseHost

/-- A lease is extended when it ends within `threshold` ledgers; a new entry gets 4096 of them. -/
@[reducible] def reference : LeaseHost where
  maxTtl := 3110399
  created now := now + 4096
  extended now live threshold extendTo :=
    if live ≤ now + threshold then max live (now + min extendTo 3110399) else live
  le_extended := by
    intro now live threshold extendTo
    split <;> omega
  threshold_le_extended := by
    intro now live threshold extendTo h hmax
    split <;> omega
  extended_le := by
    intro now live threshold extendTo
    split <;> omega

end LeaseHost

namespace Lease

/-- What bears on the lease of the entry `k`. -/
inductive Access (κ : Type*) where
  | set (k : κ)
  | extendTtl (k : κ) (threshold extendTo : ℕ)

/-- The entry. -/
def Access.key {κ : Type*} : Access κ → κ
  | .set k => k
  | .extendTtl k _ _ => k

/-- The ledger up to which each entry lives, `⊥` for one that is not there. -/
abbrev Leases (κ : Type*) := κ → WithBot ℕ

variable {κ : Type*} [DecidableEq κ] [LeaseHost] {now threshold extendTo : ℕ} {l : Leases κ}
  {a : Access κ} {w : List (Access κ)} {k : κ}

/-! ### Leases after a log -/

/-- The leases after one access.  Writing to an entry that is there does not extend its lease, and
    there is no lease to extend of one that is not. -/
def Access.apply (now : ℕ) (l : Leases κ) : Access κ → Leases κ
  | .set k => Function.update l k (WithBot.some ((l k).unbotD (LeaseHost.created now)))
  | .extendTtl k threshold extendTo =>
    Function.update l k
      ((l k).map fun live => LeaseHost.extended now live threshold extendTo)

/-- The leases after a log. -/
def applyLog (now : ℕ) (l : Leases κ) (w : List (Access κ)) : Leases κ :=
  w.foldl (Access.apply now) l

/-- An access to one entry leaves the leases of all others alone. -/
theorem apply_of_ne (h : a.key ≠ k) : a.apply now l k = l k := by
  cases a with
  | set k' | extendTtl k' => exact Function.update_of_ne h.symm _ _

/-- No access shortens a lease: a write leaves one that is there, and the host never
    cuts one short. -/
theorem le_apply (l : Leases κ) : l ≤ a.apply now l := by
  intro k
  by_cases h : a.key = k
  · cases a with
    | set k' =>
      obtain rfl : k' = k := h
      show l k' ≤ Function.update l k' _ k'
      rw [Function.update_self]
      exact WithBot.le_coe_unbotD _ _
    | extendTtl k' threshold extendTo =>
      obtain rfl : k' = k := h
      show l k' ≤ Function.update l k' _ k'
      rw [Function.update_self]
      cases l k' with
      | bot => exact bot_le
      | coe live => exact WithBot.coe_le_coe.2 LeaseHost.le_extended
  · rw [apply_of_ne h]

@[simp] theorem applyLog_nil : applyLog now l [] = l := rfl

@[simp] theorem applyLog_cons :
    applyLog now l (a :: w) = applyLog now (a.apply now l) w := rfl

/-- No log shortens a lease, so what one part of it is granted still stands at the end of it. -/
theorem le_applyLog (w : List (Access κ)) (l : Leases κ) : l ≤ applyLog now l w := by
  induction w generalizing l with
  | nil => exact le_rfl
  | cons a w ih => exact (le_apply l).trans (ih _)

/-- What is not accessed keeps its lease. -/
theorem applyLog_of_forall_ne (h : ∀ a ∈ w, a.key ≠ k) : applyLog now l w k = l k := by
  induction w generalizing l with
  | nil => rfl
  | cons a w ih =>
    rw [applyLog_cons, ih fun b hb => h b (List.mem_cons_of_mem a hb),
      apply_of_ne (h a List.mem_cons_self)]

/-- An entry that is written to is there. -/
theorem applyLog_pos_of_set (h : Access.set k ∈ w) : ⊥ < applyLog now l w k := by
  induction w generalizing l with
  | nil => cases h
  | cons a w ih =>
    rcases List.mem_cons.1 h with rfl | h
    · refine lt_of_lt_of_le ?_ (le_applyLog w _ k)
      show ⊥ < Function.update l k _ k
      rw [Function.update_self]
      exact WithBot.bot_lt_coe _
    · exact ih h

/-- A lease that is extended lasts for the time asked, if the entry is there when it is: accesses
    before and after do not shorten it, … -/
theorem le_applyLog_of_extendTtl (hle : threshold ≤ extendTo) (hmax : extendTo ≤ LeaseHost.maxTtl)
    (hk : ⊥ < l k) (h : Access.extendTtl k threshold extendTo ∈ w) :
    WithBot.some (now + threshold) ≤ applyLog now l w k := by
  induction w generalizing l with
  | nil => cases h
  | cons a w ih =>
    rcases List.mem_cons.1 h with rfl | h
    · refine le_trans ?_ (le_applyLog w _ k)
      show _ ≤ Function.update l k _ k
      rw [Function.update_self]
      cases hl : l k with
      | bot => exact absurd hl hk.ne'
      | coe live => exact WithBot.coe_le_coe.2 (LeaseHost.threshold_le_extended hle hmax)
    · exact ih (hk.trans_le (le_apply l k)) h

/-- … or was written to before. -/
theorem le_applyLog_of_set_extendTtl (hle : threshold ≤ extendTo)
    (hmax : extendTo ≤ LeaseHost.maxTtl)
    (h : [.set k, .extendTtl k threshold extendTo].Sublist w) :
    WithBot.some (now + threshold) ≤ applyLog now l w k := by
  -- cut the log after the `set`, which leaves the entry there for the rest of it
  obtain ⟨u, v, rfl, hset, hextend⟩ := List.append_sublist_iff.1
    (show ([.set k] ++ [.extendTtl k threshold extendTo] : List (Access κ)).Sublist w from h)
  rw [applyLog, List.foldl_append]
  exact le_applyLog_of_extendTtl hle hmax
    (applyLog_pos_of_set (List.singleton_sublist.1 hset)) (List.singleton_sublist.1 hextend)

/-- An entry lives no longer than was asked for, or was granted to it when it was created: the first
    write to an entry that is not there creates it, and no later one does. -/
theorem applyLog_le {b : ℕ} (hb : l k ≤ WithBot.some b)
    (hcreated : l k = ⊥ → LeaseHost.created now ≤ b)
    (h : ∀ threshold extendTo, .extendTtl k threshold extendTo ∈ w → now + extendTo ≤ b) :
    applyLog now l w k ≤ WithBot.some b := by
  induction w generalizing l with
  | nil => exact hb
  | cons a w ih =>
    refine ih ?_ (fun hbot => hcreated (le_bot_iff.1 (hbot ▸ le_apply l k)))
      fun threshold extendTo hmem => h threshold extendTo (List.mem_cons_of_mem a hmem)
    -- remains that the first access keeps the bound
    by_cases hak : a.key = k
    · cases a with
      | set k' =>
        obtain rfl : k' = k := hak
        show Function.update l k' _ k' ≤ _
        rw [Function.update_self]
        cases hlk : l k' with
        | bot => exact WithBot.coe_le_coe.2 (hcreated hlk)
        | coe live =>
          rw [hlk] at hb
          exact hb
      | extendTtl k' threshold extendTo =>
        obtain rfl : k' = k := hak
        show Function.update l k' _ k' ≤ _
        rw [Function.update_self]
        cases hlk : l k' with
        | bot => exact bot_le
        | coe live =>
          rw [hlk] at hb
          exact WithBot.coe_le_coe.2 (LeaseHost.extended_le.trans
            (max_le (WithBot.coe_le_coe.1 hb) (h threshold extendTo List.mem_cons_self)))
    · rw [apply_of_ne hak]
      exact hb

/-! ### Renewals -/

/-- The log `w` renews the leases of `ks` among `l`, for at least `life` and at most `bump` ledgers,
    and no others. -/
structure Renews {κ : Type*} (life bump : κ → ℕ) (l : Leases κ) (ks : List κ)
    (w : List (Access κ)) : Prop where
  key_mem : ∀ a ∈ w, a.key ∈ ks
  extended : ∀ k ∈ ks, ⊥ < l k ∧ .extendTtl k (life k) (bump k) ∈ w ∨
    [.set k, .extendTtl k (life k) (bump k)].Sublist w
  bounded : ∀ k threshold extendTo, .extendTtl k threshold extendTo ∈ w → extendTo = bump k

namespace Renews

omit [DecidableEq κ] [LeaseHost]

variable {life bump : κ → ℕ} {ks ks' : List κ} {w' : List (Access κ)}

/-- The empty log renews nothing. -/
theorem nil : Renews life bump l [] [] :=
  ⟨fun _ h => absurd h List.not_mem_nil, fun _ h => absurd h List.not_mem_nil,
    fun _ _ _ h => absurd h List.not_mem_nil⟩

/-- Extending the lease of an entry that is there. -/
theorem extendTtl (hk : ⊥ < l k) :
    Renews life bump l [k] [.extendTtl k (life k) (bump k)] where
  key_mem := by simp [Access.key]
  extended := by simp [hk]
  bounded := by simp +contextual

/-- Extending the lease of an entry that was written to. -/
theorem set_extendTtl :
    Renews life bump l [k] [.set k, .extendTtl k (life k) (bump k)] where
  key_mem := by simp [Access.key]
  extended := by simp
  bounded := by simp +contextual

/-- Two logs, one after the other, renew what either renews.  Both are held to the leases at the
    start, since no lease gets shorter in between. -/
theorem append (h : Renews life bump l ks w) (h' : Renews life bump l ks' w') :
    Renews life bump l (ks ++ ks') (w ++ w') where
  key_mem := by
    intro a ha
    rcases List.mem_append.1 ha with ha | ha
    · exact List.mem_append_left _ (h.key_mem a ha)
    · exact List.mem_append_right _ (h'.key_mem a ha)
  extended := by
    intro k hk
    rcases List.mem_append.1 hk with hk | hk
    · rcases h.extended k hk with ⟨hpos, hmem⟩ | hsub
      · exact .inl ⟨hpos, List.mem_append_left _ hmem⟩
      · exact .inr (hsub.trans (List.sublist_append_left _ _))
    · rcases h'.extended k hk with ⟨hpos, hmem⟩ | hsub
      · exact .inl ⟨hpos, List.mem_append_right _ hmem⟩
      · exact .inr (hsub.trans (List.sublist_append_right _ _))
  bounded := by
    intro k threshold extendTo hmem
    rcases List.mem_append.1 hmem with hmem | hmem
    · exact h.bounded k threshold extendTo hmem
    · exact h'.bounded k threshold extendTo hmem

/-- Which leases are renewed is a matter of the set, not of the order or of repetitions. -/
theorem congr (h : Renews life bump l ks w) (hks : ∀ k, k ∈ ks ↔ k ∈ ks') :
    Renews life bump l ks' w :=
  ⟨fun a ha => (hks _).1 (h.key_mem a ha), fun k hk => h.extended k ((hks k).2 hk), h.bounded⟩

end Renews

/-! ### Computations that leave a log -/

section Computations

universe v

variable {K : Type v} {ε : Type*} {α β : Type v} {x : WriterT (List (Access K)) (Except ε) α}
  {f : α → WriterT (List (Access K)) (Except ε) β}

omit [DecidableEq κ] [LeaseHost]

/-- The computation without its log. -/
def plain (x : WriterT (List (Access K)) (Except ε) α) : Except ε α := x.run.map Prod.fst

@[simp] theorem plain_pure (a : α) :
    plain (pure a : WriterT (List (Access K)) (Except ε) α) = .ok a := rfl

@[simp] theorem plain_throw (e : ε) :
    plain (throw e : WriterT (List (Access K)) (Except ε) α) = .error e := rfl

@[simp] theorem plain_lift (y : Except ε α) :
    plain (liftM y : WriterT (List (Access K)) (Except ε) α) = y := by
  cases y <;> rfl

@[simp] theorem plain_tell (w : List (Access K)) :
    plain (tell w : WriterT (List (Access K)) (Except ε) PUnit) = .ok ⟨⟩ := rfl

@[simp] theorem plain_bind : plain (x >>= f) = plain x >>= fun a => plain (f a) := by
  show (x.run >>= fun r => (fun r' => (r'.1, r.2 ++ r'.2)) <$> (f r.1).run).map Prod.fst =
    x.run.map Prod.fst >>= fun a => (f a).run.map Prod.fst
  cases x.run with
  | error e => rfl
  | ok r =>
    show ((fun r' => (r'.1, r.2 ++ r'.2)) <$> (f r.1).run).map Prod.fst =
      (f r.1).run.map Prod.fst
    cases (f r.1).run <;> rfl

@[simp] theorem plain_map (g : α → β) : plain (g <$> x) = (plain x).map g := by
  show ((fun r : α × List (Access K) => (g r.1, r.2)) <$> x.run).map Prod.fst =
    (x.run.map Prod.fst).map g
  cases x.run <;> rfl

/-- Leaving the log of a loop out is leaving it out of each turn. -/
theorem plain_foldlM (f : β → α → WriterT (List (Access K)) (Except ε) β) (as : List α) (b : β) :
    plain (as.foldlM f b) = as.foldlM (fun b a => plain (f b a)) b := by
  induction as generalizing b with
  | nil => rfl
  | cons a as ih =>
    rw [List.foldlM_cons, List.foldlM_cons, plain_bind]
    congr 1
    funext b'
    exact ih b'

/-- Whenever `x` succeeds, it renews the leases of `ks` among `l`. -/
def RenewedBy (life bump : K → ℕ) (l : Leases K) (ks : List K)
    (x : WriterT (List (Access K)) (Except ε) α) : Prop :=
  ∀ a w, x.run = .ok (a, w) → Renews life bump l ks w

namespace RenewedBy

variable {life bump : K → ℕ} {l : Leases K} {ks ks' : List K} {k : K}

/-- Returning a value renews no lease. -/
theorem pure (a : α) :
    RenewedBy life bump l [] (Pure.pure a : WriterT (List (Access K)) (Except ε) α) := by
  rintro _ _ ⟨⟩
  exact .nil

/-- A computation that fails renews whatever is asked, since nothing of it is kept. -/
theorem throw (e : ε) :
    RenewedBy life bump l ks (MonadExcept.throw e : WriterT (List (Access K)) (Except ε) α) := by
  rintro _ _ ⟨⟩

/-- A computation without a log renews no lease. -/
theorem lift (y : Except ε α) :
    RenewedBy life bump l [] (liftM y : WriterT (List (Access K)) (Except ε) α) := by
  intro a w h
  cases y with
  | error e => cases h
  | ok b =>
    cases h
    exact .nil

/-- Entries renewed twice are renewed. -/
theorem congr (hx : RenewedBy life bump l ks x) (h : ∀ k, k ∈ ks ↔ k ∈ ks') :
    RenewedBy life bump l ks' x := fun a w hrun => (hx a w hrun).congr h

/-- What is done with the result has no log of its own. -/
theorem map (hx : RenewedBy life bump l ks x) (g : α → β) :
    RenewedBy life bump l ks (g <$> x) := by
  intro b w h
  have h' : (fun r : α × List (Access K) => (g r.1, r.2)) <$> x.run = .ok (b, w) := h
  cases hrun : x.run with
  | error e =>
    rw [hrun] at h'
    cases h'
  | ok r =>
    rw [hrun] at h'
    cases h'
    exact hx r.1 r.2 hrun

/-- **Sequencing.**  The rest need only renew its leases for the results the first part
    can return. -/
theorem bind (hx : RenewedBy life bump l ks x)
    (hf : ∀ a, plain x = .ok a → RenewedBy life bump l ks' (f a)) :
    RenewedBy life bump l (ks ++ ks') (x >>= f) := by
  intro b w h
  have h' : (x.run >>= fun r => (fun r' => (r'.1, r.2 ++ r'.2)) <$> (f r.1).run) = .ok (b, w) := h
  cases hrun : x.run with
  | error e =>
    rw [hrun] at h'
    cases h'
  | ok r =>
    have hplain : plain x = .ok r.1 := by rw [plain, hrun]; rfl
    rw [hrun] at h'
    replace h' : (fun r' => (r'.1, r.2 ++ r'.2)) <$> (f r.1).run = .ok (b, w) := h'
    cases hrun' : (f r.1).run with
    | error e =>
      rw [hrun'] at h'
      cases h'
    | ok r' =>
      rw [hrun'] at h'
      cases h'
      exact (hx r.1 r.2 hrun).append (hf r.1 hplain r'.1 r'.2 hrun')

/-- A part that touches no entry. -/
theorem lift_bind {y : Except ε α} (hf : ∀ a, y = .ok a → RenewedBy life bump l ks (f a)) :
    RenewedBy life bump l ks (liftM y >>= f) :=
  (lift y).bind fun a ha => hf a ((plain_lift y).symm.trans ha)

/-- A rest that renews nothing adds no entry to the list. -/
theorem bind_nil (hx : RenewedBy life bump l ks x)
    (hf : ∀ a, plain x = .ok a → RenewedBy life bump l [] (f a)) :
    RenewedBy life bump l ks (x >>= f) :=
  (hx.bind hf).congr fun k => by rw [List.append_nil]

/-- In particular, one that only puts a result together. -/
theorem bind_pure (hx : RenewedBy life bump l ks x) (g : α → β) :
    RenewedBy life bump l ks (x >>= fun a => Pure.pure (g a)) := hx.bind_nil fun a _ => pure (g a)

/-- A loop. -/
theorem foldlM {f : β → α → WriterT (List (Access K)) (Except ε) β} {ks : α → List K} {as : List α}
    (hf : ∀ b, ∀ a ∈ as, RenewedBy life bump l (ks a) (f b a)) (b : β) :
    RenewedBy life bump l (as.flatMap ks) (as.foldlM f b) := by
  induction as generalizing b with
  | nil => exact .pure b
  | cons a as ih =>
    rw [List.foldlM_cons, List.flatMap_cons]
    exact (hf b a List.mem_cons_self).bind fun b' _ =>
      ih (fun b a' ha' => hf b a' (List.mem_cons_of_mem a ha')) b'

end RenewedBy

end Computations

/-! ### Transaction systems with leases -/

section Systems

universe v

variable {κ σ ω : Type v} {τ ε : Type*} [DecidableEq κ]
  {exec : σ → τ → WriterT (List (Access κ)) (Except ε) (ω × σ)} {ledger : τ → ℕ} {s s' : σ} {t : τ}
  {val : ω} {l l' : Leases κ} {k : κ} {w : List (Access κ)}

/-- One transaction `t`, in the ledger `ledger t`, with the leases. -/
def leased (exec : σ → τ → WriterT (List (Access κ)) (Except ε) (ω × σ)) (ledger : τ → ℕ)
    (x : σ × Leases κ) (t : τ) : Except ε (ω × (σ × Leases κ)) :=
  (exec x.1 t).run.map fun r => (r.1.1, (r.1.2, applyLog (ledger t) x.2 r.2))

/-- Inversion: a transaction with leases succeeds exactly when the one without does, and its log
    gives the new leases. -/
theorem leased_eq_ok : leased exec ledger (s, l) t = .ok (val, (s', l')) ↔
    ∃ w, (exec s t).run = .ok ((val, s'), w) ∧ l' = applyLog (ledger t) l w := by
  unfold leased
  constructor
  · intro h
    cases hrun : (exec s t).run with
    | error e =>
      rw [hrun] at h
      cases h
    | ok r =>
      rw [hrun] at h
      cases h
      exact ⟨r.2, rfl, rfl⟩
  · rintro ⟨w, hrun, rfl⟩
    rw [hrun]
    rfl

/-- Leases do not change what a transaction does, … -/
theorem leased_plain (x : σ × Leases κ) (t : τ) :
    (leased exec ledger x t).map (fun r => (r.1, r.2.1)) = plain (exec x.1 t) := by
  unfold leased plain
  cases (exec x.1 t).run <;> rfl

/-- … nor what a run does: the states it goes through are those of the system without leases. -/
theorem run_leased (x : σ × Leases κ) (ts : List τ) :
    (Revert.run (leased exec ledger) x ts).1 =
      Revert.run (fun s t => plain (exec s t)) x.1 ts := by
  induction ts generalizing x with
  | nil => rfl
  | cons t ts ih =>
    rw [Revert.run_cons, Revert.run_cons, ih]
    congr 1
    have h : (leased exec ledger x t).map (fun r => (r.1, r.2.1)) = plain (exec x.1 t) :=
      leased_plain x t
    unfold Revert.step
    beta_reduce
    rw [← h]
    cases leased exec ledger x t <;> rfl

/-! ### What becomes of a lease -/

variable {life bump : κ → ℕ} {ks : List κ}

/-- What becomes of a lease that ended in `x` and is renewed in each of the ledgers `ms`, for at
    least `life` and at most `bump` ledgers.  An entry that is not there at first, `x` being `⊥`, is
    created by the first request that renews it. -/
structure Kept (life bump : ℕ) (x : WithBot ℕ) (ms : List ℕ) (y : WithBot ℕ) : Prop where
  le : x ≤ y
  eq_of_nil : ms = [] → y = x
  le_of_mem : ∀ m ∈ ms, WithBot.some (m + life) ≤ y
  le_of_forall : ∀ b, x ≤ WithBot.some b →
    (x = ⊥ → ∀ m, ms.head? = some m → LeaseHost.created m ≤ b) →
    (∀ m ∈ ms, m + bump ≤ b) → y ≤ WithBot.some b

/-- The empty run keeps every lease as it is. -/
theorem Kept.refl (life bump : ℕ) (x : WithBot ℕ) : Kept life bump x [] x :=
  ⟨le_rfl, fun _ => rfl, fun _ h => absurd h List.not_mem_nil, fun _ h _ _ => h⟩

/-- On a host that creates entries for no longer than a renewal lasts, an entry lives no longer than
    it did or than the latest renewal makes it, whether or not it was there at first. -/
theorem Kept.le_of_created_le {life bump : ℕ} {x y : WithBot ℕ} {ms : List ℕ}
    (h : Kept life bump x ms y) (hcreated : ∀ m, LeaseHost.created m ≤ m + bump) {b : ℕ}
    (hx : x ≤ WithBot.some b) (hms : ∀ m ∈ ms, m + bump ≤ b) : y ≤ WithBot.some b :=
  h.le_of_forall b hx (fun _ m hm => (hcreated m).trans (hms m (List.mem_of_mem_head? hm))) hms

/-- What is renewed is there. -/
theorem Renews.applyLog_pos (h : Renews life bump l ks w) (hk : k ∈ ks) {m : ℕ} :
    ⊥ < applyLog m l w k := by
  rcases h.extended k hk with ⟨hpos, -⟩ | hsub
  · exact hpos.trans_le (Lease.le_applyLog w l k)
  · exact applyLog_pos_of_set (hsub.subset List.mem_cons_self)

/-- A lease that is renewed lasts. -/
theorem Renews.le_applyLog (h : Renews life bump l ks w) (hle : ∀ k, life k ≤ bump k)
    (hmax : ∀ k, bump k ≤ LeaseHost.maxTtl) (hk : k ∈ ks) {m : ℕ} :
    WithBot.some (m + life k) ≤ applyLog m l w k := by
  rcases h.extended k hk with ⟨hpos, hmem⟩ | hsub
  · exact le_applyLog_of_extendTtl (hle k) (hmax k) hpos hmem
  · exact le_applyLog_of_set_extendTtl (hle k) (hmax k) hsub

/-- A transaction that renews the lease first: from then on the entry is there, and lives at
    least as long as this renewal makes it. -/
theorem Renews.kept_cons (hle : ∀ k, life k ≤ bump k) (hmax : ∀ k, bump k ≤ LeaseHost.maxTtl)
    (h : Renews life bump l ks w) (hk : k ∈ ks) {m : ℕ} {ms : List ℕ} {y : WithBot ℕ}
    (hrest : Kept (life k) (bump k) (applyLog m l w k) ms y) :
    Kept (life k) (bump k) (l k) (m :: ms) y where
  le := (Lease.le_applyLog w l k).trans hrest.le
  eq_of_nil := by rintro ⟨⟩
  le_of_mem := by
    intro m' hm'
    rcases List.mem_cons.1 hm' with rfl | hm'
    · exact (h.le_applyLog hle hmax hk).trans hrest.le
    · exact hrest.le_of_mem m' hm'
  le_of_forall := by
    intro b hx hcreated hms
    -- the entry is there from now on, so the rest of the run creates it no more
    refine hrest.le_of_forall b ?_ (fun hbot => absurd hbot (h.applyLog_pos hk).ne')
      fun m' hm' => hms m' (List.mem_cons_of_mem m hm')
    refine applyLog_le hx (fun hbot => hcreated hbot m rfl) fun threshold extendTo hmem => ?_
    rw [h.bounded k threshold extendTo hmem]
    exact hms m List.mem_cons_self

/-- A transaction that does not. -/
theorem Renews.kept_of_not_mem (h : Renews life bump l ks w) (hk : k ∉ ks) {m : ℕ} :
    applyLog m l w k = l k := by
  refine applyLog_of_forall_ne fun a ha => ?_
  rintro rfl
  exact hk (h.key_mem a ha)

/-- The ledgers in which the transactions of a run that succeed renew the lease of `k`. -/
def renewals (exec : σ → τ → Except ε (ω × σ)) (ledger : τ → ℕ) (renewed : σ → τ → List κ) (k : κ)
    (s : σ) (ts : List τ) : List ℕ :=
  (Revert.collect exec (fun s t _ => if k ∈ renewed s t then some (ledger t) else none) s
    ts).reduceOption

omit [LeaseHost] in
/-- A lease that no transaction of the run renews, in whatever state, is renewed in no ledger. -/
theorem renewals_eq_nil {exec : σ → τ → Except ε (ω × σ)} {renewed : σ → τ → List κ} {ts : List τ}
    (h : ∀ t ∈ ts, ∀ s, k ∉ renewed s t) (s : σ) : renewals exec ledger renewed k s ts = [] := by
  rw [renewals, List.reduceOption_eq_nil_iff]
  refine ⟨_, List.eq_replicate_iff.2 ⟨rfl, fun a ha => ?_⟩⟩
  obtain ⟨t, ht, s₁, s₂, rfl⟩ := Revert.exists_of_mem_collect ha
  exact if_neg (h t ht s₁)

/-- What is collected along a run with leases is what is collected without. -/
theorem collect_leased {α : Type*} (f : σ → τ → α) (x : σ × Leases κ) (ts : List τ) :
    Revert.collect (leased exec ledger) (fun x t _ => f x.1 t) x ts =
      Revert.collect (fun s t => plain (exec s t)) (fun s t _ => f s t) x.1 ts := by
  induction ts generalizing x with
  | nil => rfl
  | cons t ts ih =>
    have h : (leased exec ledger x t).map (fun r => (r.1, r.2.1)) = plain (exec x.1 t) :=
      leased_plain x t
    cases hx : leased exec ledger x t with
    | error e =>
      rw [hx] at h
      rw [Revert.collect_cons_error hx, Revert.collect_cons_error h.symm, ih]
    | ok r =>
      rw [hx] at h
      obtain ⟨val, x'⟩ := r
      rw [Revert.collect_cons_ok hx, Revert.collect_cons_ok h.symm, ih]

/-- **Leases over runs.**  Let every transaction that succeeds renew the leases it is said to renew.
    Then over a run every lease is kept up by the transactions that renew it, and by no others. -/
theorem run_kept {renewed : σ → τ → List κ} {I : σ × Leases κ → Prop}
    (hle : ∀ k, life k ≤ bump k) (hmax : ∀ k, bump k ≤ LeaseHost.maxTtl)
    (hinv : ∀ x t val x', I x → leased exec ledger x t = .ok (val, x') → I x')
    (hstep : ∀ s l t, I (s, l) → RenewedBy life bump l (renewed s t) (exec s t))
    {x : σ × Leases κ} (hI : I x) (ts : List τ) (k : κ) :
    Kept (life k) (bump k) (x.2 k)
      (renewals (fun s t => plain (exec s t)) ledger renewed k x.1 ts)
      ((Revert.run (leased exec ledger) x ts).2 k) := by
  rw [renewals, ← collect_leased fun s t => if k ∈ renewed s t then some (ledger t) else none]
  -- the run is taken apart from the front, and what is renewed first is put in front of the rest
  refine Revert.run_trace (P := fun _ _ => True)
    (R := fun x as x' => Kept (life k) (bump k) (x.2 k) as.reduceOption (x'.2 k)) ?_ ?_ ?_ hI
    (Revert.along_of_forall fun _ _ => trivial)
  · intro x _
    exact .refl _ _ _
  · intro x t val x' hx _ h
    exact hinv x t val x' hx h
  · rintro ⟨s, l⟩ t val ⟨s', l'⟩ as x'' hx - h hrest
    obtain ⟨w, hrun, rfl⟩ := leased_eq_ok.1 h
    have hrenews := hstep s l t hx (val, s') w hrun
    by_cases hk : k ∈ renewed s t
    · rw [if_pos hk, List.reduceOption_cons_of_some]
      exact hrenews.kept_cons hle hmax hk hrest
    · rw [if_neg hk, List.reduceOption_cons_of_none]
      have hsame : applyLog (ledger t) l w k = l k := hrenews.kept_of_not_mem hk
      have hrest' : Kept (life k) (bump k) (applyLog (ledger t) l w k) as.reduceOption (x''.2 k) :=
        hrest
      rwa [hsame] at hrest'

end Systems

end Lease
