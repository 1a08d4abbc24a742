import Mathlib.Tactic.TypeStar

namespace Outcome

/-!
# Computations that may fail — rules for `Except`

Ways to reason about a composed computation without looking at its parts twice:

* `FailsOnly P x` — every failure of `x` is one that `P` admits; for showing that a given error
  never comes out of a sequence of checks;
* `Agree Q x y` — `x` and `y` fail alike or return results related by `Q`; for showing that two
  runs of the same code from related states cannot be told apart;
* `AgreeUnless f Q x y` — the same, but `x` may stop in the failure `f` where `y` goes on; for
  showing that a computation in bounded resources is the unbounded one while they last.

Each has a rule for sequencing (`FailsOnly.bind`, `Agree.bind`, `AgreeUnless.bind`).
-/

universe u

variable {ε : Type*} {α β α' β' : Type u}

/-! ### One computation -/

/-- Every failure of `x` is one that `P` admits. -/
def FailsOnly (P : ε → Prop) (x : Except ε α) : Prop := ∀ f, x = .error f → P f

namespace FailsOnly

variable {P : ε → Prop} {x : Except ε α} {f : ε}

/-- A computation that succeeds fails in no way at all. -/
theorem ok (a : α) : FailsOnly P (.ok a : Except ε α) := by
  rintro _ ⟨⟩

/-- A computation that fails in an admitted way fails only in admitted ways. -/
theorem error (hf : P f) : FailsOnly P (.error f : Except ε α) := by
  rintro _ ⟨⟩
  exact hf

/-- So does one that is known to succeed, the leaf of a composed argument. -/
theorem of_eq_ok {a : α} (h : x = .ok a) : FailsOnly P x := h ▸ .ok a

/-- What can only fail in one way and does not fail in it succeeds. -/
theorem isOk (h : FailsOnly (· = f) x) (hf : x ≠ .error f) : ∃ a, x = .ok a := by
  cases x with
  | ok a => exact ⟨a, rfl⟩
  | error f' => exact absurd (congrArg _ (h f' rfl)) hf

/-- **Sequencing.**  The rest only has to be looked at where the first part succeeds. -/
theorem bind {g : α → Except ε β} (hx : FailsOnly P x)
    (hg : ∀ a, x = .ok a → FailsOnly P (g a)) : FailsOnly P (x >>= g) := by
  cases x with
  | ok a => exact hg a rfl
  | error f => exact fun _ h => hx _ (by cases h; rfl)

end FailsOnly

/-! ### Two computations -/

/-- `x` and `y` fail alike, or return results related by `Q`. -/
inductive Agree (Q : α → β → Prop) : Except ε α → Except ε β → Prop
  | ok {a b} (h : Q a b) : Agree Q (.ok a) (.ok b)
  | error (f) : Agree Q (.error f) (.error f)

namespace Agree

variable {Q : α → β → Prop} {x : Except ε α} {y : Except ε β}

/-- A computation agrees with itself under any reflexive relation on results. -/
theorem refl {Q : α → α → Prop} (hQ : ∀ a, Q a a) (x : Except ε α) : Agree Q x x := by
  cases x with
  | ok a => exact .ok (hQ a)
  | error f => exact .error f

/-- The relation between the results may be weakened. -/
theorem mono {Q' : α → β → Prop} (h : Agree Q x y) (hQ : ∀ a b, Q a b → Q' a b) :
    Agree Q' x y := by
  cases h with
  | ok h => exact .ok (hQ _ _ h)
  | error f => exact .error f

/-- The results are those of the two computations. -/
theorem with_eq (h : Agree Q x y) : Agree (fun a b => Q a b ∧ x = .ok a ∧ y = .ok b) x y := by
  cases h with
  | ok h => exact .ok ⟨h, rfl, rfl⟩
  | error f => exact .error f

/-- **Sequencing.** -/
theorem bind {Q' : α' → β' → Prop} {g : α → Except ε α'} {g' : β → Except ε β'}
    (h : Agree Q x y) (hg : ∀ a b, Q a b → Agree Q' (g a) (g' b)) :
    Agree Q' (x >>= g) (y >>= g') := by
  cases h with
  | ok h => exact hg _ _ h
  | error f => exact .error f

/-- The same computation may be run first on both sides. -/
theorem bind_left {Q' : α' → β' → Prop} {x : Except ε α} {g : α → Except ε α'}
    {g' : α → Except ε β'} (hg : ∀ a, Agree Q' (g a) (g' a)) :
    Agree Q' (x >>= g) (x >>= g') :=
  (refl (Q := Eq) (fun _ => rfl) x).bind fun a _ h => h ▸ hg a

/-- What is done with the results afterwards cannot bring in a failure, so only the relation
    between the results changes. -/
theorem map {Q' : α' → β' → Prop} {g : α → α'} {g' : β → β'} (h : Agree Q x y)
    (hg : ∀ a b, Q a b → Q' (g a) (g' b)) : Agree Q' (x.map g) (y.map g') := by
  cases h with
  | ok h => exact .ok (hg _ _ h)
  | error f => exact .error f

/-- Computations that agree up to equality are equal. -/
theorem eq {x y : Except ε α} (h : Agree Eq x y) : x = y := by
  cases h with
  | ok h => rw [h]
  | error f => rfl

end Agree

/-! ### A computation and a less bounded one -/

/-- `x` stops in the failure `f`, or agrees with `y`. -/
inductive AgreeUnless (f : ε) (Q : α → β → Prop) : Except ε α → Except ε β → Prop
  | stop (y) : AgreeUnless f Q (.error f) y
  | agree {x y} (h : Agree Q x y) : AgreeUnless f Q x y

namespace AgreeUnless

variable {f : ε} {Q : α → β → Prop} {x : Except ε α} {y : Except ε β}

/-- **Sequencing.** -/
theorem bind {Q' : α' → β' → Prop} {g : α → Except ε α'} {g' : β → Except ε β'}
    (h : AgreeUnless f Q x y) (hg : ∀ a b, Q a b → AgreeUnless f Q' (g a) (g' b)) :
    AgreeUnless f Q' (x >>= g) (y >>= g') := by
  cases h with
  | stop y => exact .stop _
  | agree h =>
    cases h with
    | ok h => exact hg _ _ h
    | error e => exact .agree (.error e)

/-- A part that can only stop in `f` has no counterpart on the other side. -/
theorem bind_skip {g : α' → Except ε α} {x : Except ε α'} (hx : FailsOnly (· = f) x)
    (hg : ∀ a, x = .ok a → AgreeUnless f Q (g a) y) : AgreeUnless f Q (x >>= g) y := by
  cases x with
  | ok a => exact hg a rfl
  | error e =>
    obtain rfl := hx e rfl
    exact .stop y

/-- So a computation that can only stop in `f` agrees with what it returns otherwise. -/
theorem of_failsOnly {b : β} (hx : FailsOnly (· = f) x) (h : ∀ a, x = .ok a → Q a b) :
    AgreeUnless f Q x (.ok b) := by
  cases x with
  | ok a => exact .agree (.ok (h a rfl))
  | error e =>
    obtain rfl := hx e rfl
    exact .stop _

/-- A check that both sides make first. -/
theorem bind_left {Q' : α' → β' → Prop} {x : Except ε α} {g : α → Except ε α'}
    {g' : α → Except ε β'} (hg : ∀ a, x = .ok a → AgreeUnless f Q' (g a) (g' a)) :
    AgreeUnless f Q' (x >>= g) (x >>= g') := by
  cases x with
  | ok a => exact hg a rfl
  | error e => exact .agree (.error e)

/-- The relation between the results may be weakened, as for `Agree`. -/
theorem mono {Q' : α → β → Prop} (h : AgreeUnless f Q x y) (hQ : ∀ a b, Q a b → Q' a b) :
    AgreeUnless f Q' x y := by
  cases h with
  | stop y => exact .stop y
  | agree h => exact .agree (h.mono hQ)

/-- What is done with the results afterwards changes only the relation between them. -/
theorem map {Q' : α' → β' → Prop} {g : α → α'} {g' : β → β'} (h : AgreeUnless f Q x y)
    (hg : ∀ a b, Q a b → Q' (g a) (g' b)) : AgreeUnless f Q' (x.map g) (y.map g') := by
  cases h with
  | stop y => exact .stop _
  | agree h => exact .agree (h.map hg)

/-- The results are those of the two computations. -/
theorem with_eq (h : AgreeUnless f Q x y) :
    AgreeUnless f (fun a b => Q a b ∧ x = .ok a ∧ y = .ok b) x y := by
  cases h with
  | stop y => exact .stop y
  | agree h => exact .agree h.with_eq

/-- A computation that did not stop in `f` agrees with the unbounded one after all. -/
theorem of_ne (h : AgreeUnless f Q x y) (hx : x ≠ .error f) : Agree Q x y := by
  cases h with
  | stop y => exact absurd rfl hx
  | agree h => exact h

end AgreeUnless

section Stops

variable [DecidableEq ε] {f : ε} {x : Except ε α}

/-- Whether a computation stops in the failure `f`. -/
def stopsIn (f : ε) : Except ε α → Bool
  | .ok _ => false
  | .error e => e = f

@[simp] theorem stopsIn_iff : stopsIn f x = true ↔ x = .error f := by
  cases x <;> simp [stopsIn]

/-- It does not depend on what is returned otherwise. -/
@[simp] theorem stopsIn_map {α β : Type*} (g : α → β) (x : Except ε α) :
    stopsIn f (x.map g) = stopsIn f x := by
  cases x <;> rfl

end Stops

end Outcome
