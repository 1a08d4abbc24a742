import FeeVault.Lib.Outcome
import Mathlib.Algebra.Order.BigOperators.Group.List
import Mathlib.Algebra.Order.Monoid.OrderDual
import Mathlib.Data.List.Basic
import Mathlib.Tactic.TypeStar

/-!
# Runs of transactions that revert on failure

A transaction system is a function `exec : σ → τ → Except ε (ω × σ)`: on success it returns
an output and the next state, on failure nothing it did is kept.

* `step` / `run` — the state after one transaction and after a list of them;
* `Along` — a condition on every transaction of a run together with the state it meets;
* `run_invariant` — the induction rule: what every successful transaction keeps, a run keeps;
* `Reachable` — states reached from an initial one by admissible transactions;
* `run_trace` — the induction rule for what a run leaves behind: a list collected from its
  transactions, related to where the run starts and where it ends;
* `run_le_sum` — the accounting rule: what each transaction adds to a quantity at most, a run adds
  at most in sum;
* `run_replay` — the induction rule for a log from which a view of the state can be replayed;
* `run_simulates` — a system in bounded resources simulated by one that has no bounds, leaving out
  the transactions that exhaust them;
* `run_purge` — unwinding: transactions that no observation depends on can be left out of a
  run without changing what the others return.
-/

namespace Revert

variable {σ τ ω ε : Type*} {exec : σ → τ → Except ε (ω × σ)}

/-- The state after one transaction, reverted when it fails. -/
def step (exec : σ → τ → Except ε (ω × σ)) (s : σ) (t : τ) : σ :=
  match exec s t with
  | .ok r => r.2
  | .error _ => s

/-- A transaction that succeeds leaves the state it returns. -/
theorem step_ok {s s' : σ} {t : τ} {w : ω} (h : exec s t = .ok (w, s')) : step exec s t = s' := by
  rw [step, h]

/-- A transaction that fails leaves the state it found. -/
theorem step_error {s : σ} {t : τ} {e : ε} (h : exec s t = .error e) : step exec s t = s := by
  rw [step, h]

/-- A property of the old state that every successful execution carries over holds of the
    state after the step. -/
theorem step_induction {I : σ → Prop} {s : σ} {t : τ} (hI : I s)
    (hok : ∀ w s', exec s t = .ok (w, s') → I s') : I (step exec s t) := by
  cases h : exec s t with
  | ok r => exact step_ok (w := r.1) h ▸ hok r.1 r.2 h
  | error e => exact (step_error h).symm ▸ hI

/-- The state after a list of transactions. -/
def run (exec : σ → τ → Except ε (ω × σ)) (s : σ) (ts : List τ) : σ := ts.foldl (step exec) s

@[simp] theorem run_nil (s : σ) : run exec s [] = s := rfl

@[simp] theorem run_cons (s : σ) (t : τ) (ts : List τ) :
    run exec s (t :: ts) = run exec (step exec s t) ts := rfl

/-- A run in two parts: the second starts where the first ended. -/
theorem run_append (s : σ) (ts us : List τ) :
    run exec s (ts ++ us) = run exec (run exec s ts) us := List.foldl_append

/-! ### Conditions along a run -/

/-- `P` holds of every transaction of the run, together with the state it is applied to. -/
def Along (exec : σ → τ → Except ε (ω × σ)) (P : σ → τ → Prop) : σ → List τ → Prop
  | _, [] => True
  | s, t :: ts => P s t ∧ Along exec P (step exec s t) ts

variable {P Q : σ → τ → Prop}

/-- Two conditions along a run are one. -/
theorem Along.and {s : σ} {ts : List τ} (hP : Along exec P s ts) (hQ : Along exec Q s ts) :
    Along exec (fun s t => P s t ∧ Q s t) s ts := by
  induction ts generalizing s with
  | nil => trivial
  | cons t ts ih => exact ⟨⟨hP.1, hQ.1⟩, ih hP.2 hQ.2⟩

/-- A condition along a run may be weakened transaction by transaction. -/
theorem Along.mono (h : ∀ s t, P s t → Q s t) {s : σ} {ts : List τ} (hP : Along exec P s ts) :
    Along exec Q s ts := by
  induction ts generalizing s with
  | nil => trivial
  | cons t ts ih => exact ⟨h s t hP.1, ih hP.2⟩

/-- A condition on the transactions alone holds along every run of them, from whatever
    state it starts. -/
theorem along_of_forall {A : τ → Prop} {s : σ} {ts : List τ} (h : ∀ t ∈ ts, A t) :
    Along exec (fun _ t => A t) s ts := by
  induction ts generalizing s with
  | nil => trivial
  | cons t ts ih =>
    exact ⟨h t List.mem_cons_self, ih fun u hu => h u (List.mem_cons_of_mem t hu)⟩

/-- **Invariant rule.**  What every successful transaction meeting `P` keeps, a run along
    which `P` holds keeps. -/
theorem run_invariant {I : σ → Prop}
    (hstep : ∀ s t w s', I s → P s t → exec s t = .ok (w, s') → I s')
    {s : σ} {ts : List τ} (hI : I s) (hP : Along exec P s ts) : I (run exec s ts) := by
  induction ts generalizing s with
  | nil => exact hI
  | cons t ts ih =>
    exact ih (step_induction hI fun w s' h => hstep s t w s' hI hP.1 h) hP.2

/-! ### Reachable states -/

/-- States reached from an initial one by transactions admitted by `A`. -/
inductive Reachable (exec : σ → τ → Except ε (ω × σ)) (init : σ → Prop) (A : τ → Prop) :
    σ → Prop
  | init {s} (h : init s) : Reachable exec init A s
  | step {s t} (hs : Reachable exec init A s) (ht : A t) : Reachable exec init A (step exec s t)

variable {init : σ → Prop} {A B : τ → Prop} {s : σ}

/-- What a run of admissible transactions reaches from a reachable state is reachable. -/
theorem Reachable.run (hs : Reachable exec init A s) {ts : List τ} (hts : ∀ t ∈ ts, A t) :
    Reachable exec init A (run exec s ts) := by
  induction ts generalizing s with
  | nil => exact hs
  | cons t ts ih =>
    exact ih (hs.step (hts t List.mem_cons_self)) fun u hu => hts u (List.mem_cons_of_mem t hu)

/-- With more transactions admitted, no fewer states are reachable. -/
theorem Reachable.mono (h : ∀ t, A t → B t) (hs : Reachable exec init A s) :
    Reachable exec init B s := by
  induction hs with
  | init h => exact .init h
  | step _ ht ih => exact ih.step (h _ ht)

/-- **Invariant rule for reachable states.**  The step may use that its state is reachable,
    so earlier invariants are at hand. -/
theorem Reachable.invariant {I : σ → Prop} (hinit : ∀ s, init s → I s)
    (hstep : ∀ s t w s', Reachable exec init A s → I s → A t → exec s t = .ok (w, s') → I s')
    (hs : Reachable exec init A s) : I s := by
  induction hs with
  | init h => exact hinit _ h
  | step hr ht ih => exact step_induction ih fun w s' h => hstep _ _ w s' hr ih ht h

/-! ### The transactions that took effect -/

/-- The transactions of a run that succeed, in order. -/
def committed (exec : σ → τ → Except ε (ω × σ)) : σ → List τ → List τ
  | _, [] => []
  | s, t :: ts =>
    match exec s t with
    | .ok r => t :: committed exec r.2 ts
    | .error _ => committed exec s ts

/-- A transaction that succeeds is put in front of those that take effect after it. -/
theorem committed_cons_ok {s s' : σ} {t : τ} {w : ω} {ts : List τ}
    (h : exec s t = .ok (w, s')) : committed exec s (t :: ts) = t :: committed exec s' ts := by
  rw [committed, h]

/-- A transaction that fails is left out, and the rest starts from the same state. -/
theorem committed_cons_error {s : σ} {t : τ} {e : ε} {ts : List τ}
    (h : exec s t = .error e) : committed exec s (t :: ts) = committed exec s ts := by
  rw [committed, h]

/-- What `f` says of each transaction of a run that succeeds, of the state before it and of the
    state after it, in order. -/
def collect {α : Type*} (exec : σ → τ → Except ε (ω × σ)) (f : σ → τ → σ → α) :
    σ → List τ → List α
  | _, [] => []
  | s, t :: ts =>
    match exec s t with
    | .ok r => f s t r.2 :: collect exec f r.2 ts
    | .error _ => collect exec f s ts

section Collect

variable {α : Type*} {f : σ → τ → σ → α} {P : σ → τ → Prop}

/-- A transaction that succeeds adds what `f` says of it to what is collected. -/
theorem collect_cons_ok {s s' : σ} {t : τ} {w : ω} {ts : List τ} (h : exec s t = .ok (w, s')) :
    collect exec f s (t :: ts) = f s t s' :: collect exec f s' ts := by
  rw [collect, h]

/-- A transaction that fails adds nothing. -/
theorem collect_cons_error {s : σ} {t : τ} {e : ε} {ts : List τ} (h : exec s t = .error e) :
    collect exec f s (t :: ts) = collect exec f s ts := by
  rw [collect, h]

/-- Everything collected is said of some transaction of the run. -/
theorem exists_of_mem_collect {s : σ} {ts : List τ} {a : α} (ha : a ∈ collect exec f s ts) :
    ∃ t ∈ ts, ∃ s₁ s₂, a = f s₁ t s₂ := by
  induction ts generalizing s with
  | nil => cases ha
  | cons t ts ih =>
    have hrest {s' : σ} (h : a ∈ collect exec f s' ts) :
        ∃ t' ∈ t :: ts, ∃ s₁ s₂, a = f s₁ t' s₂ := by
      obtain ⟨t', ht', hf⟩ := ih h
      exact ⟨t', List.mem_cons_of_mem t ht', hf⟩
    cases h : exec s t with
    | ok r =>
      rw [collect_cons_ok (w := r.1) h] at ha
      rcases List.mem_cons.1 ha with rfl | ha
      · exact ⟨t, List.mem_cons_self, s, r.2, rfl⟩
      · exact hrest ha
    | error e =>
      rw [collect_cons_error h] at ha
      exact hrest ha

/-- **Trace rule.**  A relation between the start of a run, what was collected along it and its
    end holds of every run once it holds of the empty one and a successful transaction can be put
    before it; an invariant of the transactions admitted is at hand. -/
theorem run_trace {I : σ → Prop} {R : σ → List α → σ → Prop} (hnil : ∀ s, I s → R s [] s)
    (hinv : ∀ s t w s', I s → P s t → exec s t = .ok (w, s') → I s')
    (hcons : ∀ s t w s' as s'', I s → P s t → exec s t = .ok (w, s') → R s' as s'' →
      R s (f s t s' :: as) s'')
    {s : σ} {ts : List τ} (hI : I s) (hP : Along exec P s ts) :
    R s (collect exec f s ts) (run exec s ts) := by
  induction ts generalizing s with
  | nil => exact hnil s hI
  | cons t ts ih =>
    obtain ⟨ht, hrest⟩ := hP
    rw [run_cons]
    cases h : exec s t with
    | ok r =>
      rw [step_ok (w := r.1) h] at hrest ⊢
      rw [collect_cons_ok (w := r.1) h]
      exact hcons s t r.1 r.2 _ _ hI ht h (ih (hinv s t r.1 r.2 hI ht h) hrest)
    | error e =>
      rw [step_error h] at hrest ⊢
      rw [collect_cons_error h]
      exact ih hI hrest

section Sums

variable {M : Type*} [AddCommMonoid M] [PartialOrder M] [IsOrderedAddMonoid M] {g : σ → M}
  {f : σ → τ → σ → M} {I : σ → Prop}

/-- **Accounting rule.**  What every successful transaction adds to `g` at most, a run
    adds at most in sum. -/
theorem run_le_sum (hinv : ∀ s t w s', I s → P s t → exec s t = .ok (w, s') → I s')
    (hstep : ∀ s t w s', I s → P s t → exec s t = .ok (w, s') → g s' ≤ g s + f s t s')
    {s : σ} {ts : List τ} (hI : I s) (hP : Along exec P s ts) :
    g (run exec s ts) ≤ g s + (collect exec f s ts).sum := by
  refine run_trace (R := fun s as s' => g s' ≤ g s + as.sum) ?_ hinv ?_ hI hP
  · intro s _
    rw [List.sum_nil, add_zero]
  · intro s t w s' as s'' hs ht h hrest
    rw [List.sum_cons, ← add_assoc]
    exact hrest.trans (add_le_add_left (hstep s t w s' hs ht h) as.sum)

/-- And what it adds at least, a run adds at least. -/
theorem sum_le_run (hinv : ∀ s t w s', I s → P s t → exec s t = .ok (w, s') → I s')
    (hstep : ∀ s t w s', I s → P s t → exec s t = .ok (w, s') → g s + f s t s' ≤ g s')
    {s : σ} {ts : List τ} (hI : I s) (hP : Along exec P s ts) :
    g s + (collect exec f s ts).sum ≤ g (run exec s ts) :=
  run_le_sum (M := Mᵒᵈ) hinv hstep hI hP

end Sums

end Collect

/-! ### Logs -/

/-- **Replay.**  Where every successful transaction appends to a log what a reader needs to bring
    the view of the old state to that of the new one, the log of a run is enough for the run. -/
theorem run_replay {α β : Type*} {log : σ → List α} {view : σ → β} {record : β → α → β}
    {I : σ → Prop} (hinv : ∀ s t w s', I s → exec s t = .ok (w, s') → I s')
    (hstep : ∀ s t w s', I s → exec s t = .ok (w, s') →
      ∃ as, log s' = log s ++ as ∧ view s' = as.foldl record (view s))
    {s : σ} {ts : List τ} (hI : I s) :
    ∃ as, log (run exec s ts) = log s ++ as ∧ view (run exec s ts) = as.foldl record (view s) := by
  induction ts generalizing s with
  | nil => exact ⟨[], (List.append_nil _).symm, rfl⟩
  | cons t ts ih =>
    rw [run_cons]
    cases h : exec s t with
    | ok r =>
      rw [step_ok (w := r.1) h]
      obtain ⟨as, hlog, hview⟩ := hstep s t r.1 r.2 hI h
      obtain ⟨bs, hlog', hview'⟩ := ih (hinv s t r.1 r.2 hI h)
      refine ⟨as ++ bs, ?_, ?_⟩
      · rw [hlog', hlog, List.append_assoc]
      · rw [hview', hview, List.foldl_append]
    | error e =>
      rw [step_error h]
      exact ih hI

/-! ### Leaving transactions out -/

/-- What the transactions selected by `vis` return, in the order of the run. -/
def results (exec : σ → τ → Except ε (ω × σ)) (vis : τ → Bool) : σ → List τ → List (Except ε ω)
  | _, [] => []
  | s, t :: ts =>
    if vis t then (exec s t).map Prod.fst :: results exec vis (step exec s t) ts
    else results exec vis (step exec s t) ts

/-- Transactions, of one system or of two, whose executions from related states agree keep them
    related and return the same. -/
theorem step_of_agree {σ' : Type _} {τ' : Type*} {exec' : σ' → τ' → Except ε (ω × σ')}
    {R : σ → σ' → Prop} {s : σ} {s' : σ'} {t : τ} {t' : τ'} (hR : R s s')
    (h : Outcome.Agree (fun x y => x.1 = y.1 ∧ R x.2 y.2) (exec s t) (exec' s' t')) :
    R (step exec s t) (step exec' s' t') ∧
      (exec s t).map Prod.fst = (exec' s' t').map Prod.fst := by
  unfold step
  generalize exec s t = x at *
  generalize exec' s' t' = y at *
  cases h with
  | ok h => exact ⟨h.2, congrArg Except.ok h.1⟩
  | error f => exact ⟨hR, rfl⟩

/-- **Unwinding.**  If related states give every visible transaction the same output and
    stay related, and hidden transactions keep the relation on their own, then dropping the
    hidden transactions changes no output and ends in a related state.  The two runs may be held to
    conditions of their own. -/
theorem run_purge_along {vis : τ → Bool} {R : σ → σ → Prop} {P Q : σ → τ → Prop}
    (hvis : ∀ s s' t, P s t → Q s' t → vis t = true → R s s' →
      R (step exec s t) (step exec s' t) ∧ (exec s t).map Prod.fst = (exec s' t).map Prod.fst)
    (hhid : ∀ s s' t, P s t → vis t = false → R s s' → R (step exec s t) s')
    {s s' : σ} {ts : List τ} (hP : Along exec P s ts) (hQ : Along exec Q s' (ts.filter vis))
    (hR : R s s') :
    R (run exec s ts) (run exec s' (ts.filter vis)) ∧
      results exec vis s ts = results exec vis s' (ts.filter vis) := by
  induction ts generalizing s s' with
  | nil => exact ⟨hR, rfl⟩
  | cons t ts ih =>
    obtain ⟨ht, hP⟩ := hP
    cases hv : vis t with
    | true =>
      rw [List.filter_cons_of_pos hv] at hQ ⊢
      obtain ⟨hR', hout⟩ := hvis s s' t ht hQ.1 hv hR
      obtain ⟨hend, hres⟩ := ih hP hQ.2 hR'
      simp only [run_cons, results, hv, if_true]
      exact ⟨hend, by rw [hout, hres]⟩
    | false =>
      rw [List.filter_cons_of_neg (by simp [hv])] at hQ ⊢
      obtain ⟨hend, hres⟩ := ih hP hQ (hhid s s' t ht hv hR)
      simp only [run_cons, results, hv]
      exact ⟨hend, hres⟩

/-- **Unwinding**, under a condition on the transactions alone. -/
theorem run_purge {vis : τ → Bool} {R : σ → σ → Prop} {A : τ → Prop}
    (hvis : ∀ s s' t, A t → vis t = true → R s s' →
      R (step exec s t) (step exec s' t) ∧ (exec s t).map Prod.fst = (exec s' t).map Prod.fst)
    (hhid : ∀ s s' t, A t → vis t = false → R s s' → R (step exec s t) s')
    {s s' : σ} {ts : List τ} (hts : ∀ t ∈ ts, A t) (hR : R s s') :
    R (run exec s ts) (run exec s' (ts.filter vis)) ∧
      results exec vis s ts = results exec vis s' (ts.filter vis) :=
  run_purge_along (P := fun _ t => A t) (Q := fun _ _ => True) (fun s s' t ht _ => hvis s s' t ht)
    hhid (along_of_forall hts) (along_of_forall fun _ _ => trivial) hR

/-! ### Simulation by a system without bounds -/

section Simulation

universe u v

variable {σ σ' : Type u} {ω ω' : Type v} {τ ε : Type*} [DecidableEq ε]
  {exec : σ → τ → Except ε (ω × σ)} {exec' : σ' → τ → Except ε (ω' × σ')}

omit [DecidableEq ε] in
/-- A transaction whose executions in two systems agree up to a translation `out` of
    what they return. -/
theorem step_of_agree_map {out : ω → ω'} {R : σ → σ' → Prop} {s : σ} {s' : σ'} {t : τ}
    (hR : R s s')
    (h : Outcome.Agree (fun x y => out x.1 = y.1 ∧ R x.2 y.2) (exec s t) (exec' s' t)) :
    R (step exec s t) (step exec' s' t) ∧
      ((exec s t).map Prod.fst).map out = (exec' s' t).map Prod.fst := by
  unfold step
  generalize exec s t = x at *
  generalize exec' s' t = y at *
  cases h with
  | ok h => exact ⟨h.2, congrArg Except.ok h.1⟩
  | error f => exact ⟨hR, rfl⟩

/-- The transactions of a run that do not stop in the failure `f`, in order. -/
def surviving (exec : σ → τ → Except ε (ω × σ)) (f : ε) : σ → List τ → List τ
  | _, [] => []
  | s, t :: ts =>
    if Outcome.stopsIn f (exec s t) then surviving exec f (step exec s t) ts
    else t :: surviving exec f (step exec s t) ts

/-- **Simulation.**  If from related states every execution stops in `f` or agrees with the one of
    the other system, then a run ends in a state related to the end of the other system's run over
    the transactions that do not stop in `f`, and these return the same. -/
theorem run_simulates {f : ε} {out : ω → ω'} {R : σ → σ' → Prop}
    (h : ∀ s s' t, R s s' → Outcome.AgreeUnless f (fun x y => out x.1 = y.1 ∧ R x.2 y.2)
      (exec s t) (exec' s' t)) {s : σ} {s' : σ'} (hR : R s s') (ts : List τ) :
    R (run exec s ts) (run exec' s' (surviving exec f s ts)) ∧
      ((results exec (fun _ => true) s ts).filter fun x => !Outcome.stopsIn f x).map
          (Except.map out) =
        results exec' (fun _ => true) s' (surviving exec f s ts) := by
  induction ts generalizing s s' with
  | nil => exact ⟨hR, rfl⟩
  | cons t ts ih =>
    simp only [run_cons, surviving, results, if_true, List.filter_cons, Outcome.stopsIn_map]
    by_cases hstop : Outcome.stopsIn f (exec s t) = true
    · -- the other system does not see this transaction
      rw [step_error (Outcome.stopsIn_iff.1 hstop)]
      simpa [hstop] using ih hR
    · obtain ⟨hR', hout⟩ := step_of_agree_map hR
        ((h s s' t hR).of_ne (mt Outcome.stopsIn_iff.2 hstop))
      obtain ⟨hend, hres⟩ := ih hR'
      rw [if_neg hstop, if_pos (by simp [hstop]), List.map_cons, hout, hres]
      simp only [run_cons, results, if_true]
      exact ⟨hend, trivial⟩

end Simulation

end Revert
