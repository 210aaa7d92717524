import Mathlib.Data.List.Basic
import TorqueScript.Address
import TorqueScript.Error

/-!
# Computations that can slip

Lists have an element at every position that is used, or `none`, and natural numbers never overflow.  Whether
a run keeps to the positions that exist, and to the numbers that fit into a code word, cannot be seen in such
a computation.  In a checked one it can: everything that might go wrong in this way is done by an operation
that slips (`Checked.get`, `Checked.slice`, `Checked.add`, `Checked.sub`, `Checked.require`).  To slip is not
to fail: a file may be refused with an `Error`, but never with a `Slip`.

Two relations tie a checked computation to one that cannot slip, and a third one is about steps.

* `Checked.Tracks`: both fail for the same reason or return related values.
* `Checked.Mirrors`: the same for computations with a state, from related states.
* `Checked.Ends`: a computation that is given a number of steps has the same outcome for every number from
  some point on.
-/

namespace TorqueScript

/-- What must never happen in a run. -/
inductive Slip where
  /-- There is nothing at the position. -/
  | outOfRange
  /-- The number does not fit into a code word. -/
  | overflow
  /-- A jump ahead leads to itself or back. -/
  | notAhead
  /-- No block is open. -/
  | emptyStack
  /-- More steps would be needed than are given. -/
  | outOfSteps
  deriving DecidableEq, Repr

/-- A computation that may fail or slip. -/
abbrev Checked := ExceptT Error (Except Slip)

namespace Checked

variable {α β σ τ : Type}

/-- Goes wrong. -/
def slip (s : Slip) : Checked α :=
  ExceptT.mk (.error s)

/-- An outcome that is reached without slipping. -/
def of (x : Except Error α) : Checked α :=
  ExceptT.mk (.ok x)

/-- The element at a position. -/
def get (xs : List α) (i : Nat) : Checked α :=
  match xs[i]? with
  | some x => pure x
  | none => slip .outOfRange

/-- The `n` elements from a position on. -/
def slice (xs : List α) (i n : Nat) : Checked (List α) :=
  if i + n ≤ xs.length then pure ((xs.drop i).take n) else slip .outOfRange

/-- The sum of two numbers. -/
def add (a b : Nat) : Checked Nat :=
  if a + b ≤ Addr.last then pure (a + b) else slip .overflow

/-- The difference of two numbers. -/
def sub (a b : Nat) : Checked Nat :=
  if b ≤ a then pure (a - b) else slip .overflow

/-- Asserts a condition. -/
def require (p : Prop) [Decidable p] (s : Slip) : Checked Unit :=
  if p then pure () else slip s

theorem throw_bind (e : Error) (f : α → Checked β) : (throw e >>= f : Checked β) = throw e := rfl

/-- Outcomes follow each other as those of computations that cannot slip. -/
theorem of_bind (x : Except Error α) (f : α → Except Error β) : of (x >>= f) = of x >>= fun a => of (f a) := by
  cases x <;> rfl

theorem get_eq {xs : List α} {i : Nat} {x : α} (h : xs[i]? = some x) : get xs i = pure x := by
  rw [get, h]

theorem slice_eq {xs : List α} {i n : Nat} (h : i + n ≤ xs.length) :
    slice xs i n = pure ((xs.drop i).take n) :=
  if_pos h

theorem add_eq {a b : Nat} (h : a + b ≤ Addr.last) : add a b = pure (a + b) :=
  if_pos h

theorem sub_eq {a b : Nat} (h : b ≤ a) : sub a b = pure (a - b) :=
  if_pos h

theorem require_eq {p : Prop} [Decidable p] {s : Slip} (h : p) : require p s = pure () :=
  if_pos h

/-! ### Computations side by side -/

/-- Both computations fail for the same reason, or return related values. -/
def Tracks (R : α → β → Prop) (x : Checked α) (y : Except Error β) : Prop :=
  (∃ e, y = .error e ∧ x = throw e) ∨ ∃ a b, y = .ok b ∧ x = pure a ∧ R a b

namespace Tracks

variable {γ δ : Type} {R : α → β → Prop} {S : γ → δ → Prop} {x : Checked α} {y : Except Error β}
  {f : α → Checked γ} {g : β → Except Error δ}

theorem pure {a : α} {b : β} (h : R a b) : Tracks R (Pure.pure a) (Pure.pure b) :=
  .inr ⟨a, b, rfl, rfl, h⟩

theorem throw (e : Error) : Tracks R (throw e) (throw e) :=
  .inl ⟨e, rfl, rfl⟩

/-- **One computation after the other.** -/
theorem bind (h : Tracks R x y) (hfg : ∀ a b, R a b → Tracks S (f a) (g b)) : Tracks S (x >>= f) (y >>= g) := by
  rcases h with ⟨e, rfl, rfl⟩ | ⟨a, b, rfl, rfl, hab⟩
  · exact .throw e
  · rw [pure_bind]
    exact hfg a b hab

theorem map {h : α → γ} (hxy : Tracks R x y) {T : γ → β → Prop} (hT : ∀ a b, R a b → T (h a) b) :
    Tracks T (h <$> x) y := by
  rcases hxy with ⟨e, rfl, rfl⟩ | ⟨a, b, rfl, rfl, hab⟩
  · exact .throw e
  · exact .pure (hT a b hab)

end Tracks

/-- From related states both computations fail for the same reason, or return the same value in related
states. -/
def Mirrors (R : σ → τ → Prop) (x : StateT σ Checked α) (y : StateT τ (Except Error) α) : Prop :=
  ∀ s t, R s t → Tracks (fun p q => p.1 = q.1 ∧ R p.2 q.2) (x s) (y t)

namespace Mirrors

variable {R : σ → τ → Prop} {x : StateT σ Checked α} {y : StateT τ (Except Error) α}
  {f : α → StateT σ Checked β} {g : α → StateT τ (Except Error) β}

theorem pure (a : α) : Mirrors R (Pure.pure a) (Pure.pure a) :=
  fun _ _ h => .pure ⟨rfl, h⟩

theorem throw (e : Error) : Mirrors R (throw e : StateT σ Checked α) (throw e) :=
  fun _ _ _ => .throw e

theorem bind (hxy : Mirrors R x y) (hfg : ∀ a, Mirrors R (f a) (g a)) : Mirrors R (x >>= f) (y >>= g) := by
  intro s t h
  refine (hxy s t h).bind ?_
  rintro ⟨a, s'⟩ ⟨_, t'⟩ ⟨rfl, h'⟩
  exact hfg a s' t' h'

/-- The outcome of the whole computation. -/
theorem outcome (hxy : Mirrors R x y) {s : σ} {t : τ} (h : R s t) :
    Prod.fst <$> x s = of (Prod.fst <$> y t) := by
  rcases hxy s t h with ⟨e, hy, hx⟩ | ⟨⟨a, s'⟩, ⟨_, t'⟩, hy, hx, rfl, -⟩ <;> rw [hx, hy] <;> rfl

end Mirrors

/-! ### Enough steps -/

/-- With enough steps the computation has the outcome. -/
def Ends (x : Nat → Checked α) (y : Checked α) : Prop :=
  ∃ n, ∀ steps ≥ n, x steps = y

namespace Ends

variable {x : Nat → Checked α} {y : Checked α} {f : Nat → α → Checked β} {z : Checked β}

theorem const (y : Checked α) : Ends (fun _ => y) y :=
  ⟨0, fun _ _ => rfl⟩

theorem congr {x' : Nat → Checked α} (h : Ends x y) (hx : ∀ steps, x' steps = x steps) : Ends x' y := by
  obtain ⟨n, h⟩ := h
  exact ⟨n, fun steps hsteps => (hx steps).trans (h steps hsteps)⟩

theorem map (h : Ends x y) (g : α → β) : Ends (fun steps => g <$> x steps) (g <$> y) := by
  obtain ⟨n, h⟩ := h
  exact ⟨n, fun steps hsteps => congrArg (g <$> ·) (h steps hsteps)⟩

/-- One step and then what the others lead to. -/
theorem succ (h : Ends (fun steps => x (steps + 1)) y) : Ends x y := by
  obtain ⟨n, h⟩ := h
  refine ⟨n + 1, fun steps hsteps => ?_⟩
  obtain ⟨k, rfl⟩ := Nat.exists_eq_add_of_le' hsteps
  exact h (k + n) (Nat.le_add_left n k)

theorem bind {a : α} (hx : Ends x (pure a)) (hf : Ends (fun steps => f steps a) z) :
    Ends (fun steps => x steps >>= f steps) z := by
  obtain ⟨n, hx⟩ := hx
  obtain ⟨m, hf⟩ := hf
  refine ⟨max n m, fun steps hsteps => ?_⟩
  show x steps >>= f steps = z
  rw [hx steps (Nat.le_trans (Nat.le_max_left n m) hsteps), pure_bind]
  exact hf steps (Nat.le_trans (Nat.le_max_right n m) hsteps)

theorem bind_throw {e : Error} (hx : Ends x (throw e)) : Ends (fun steps => x steps >>= f steps) (throw e) := by
  obtain ⟨n, hx⟩ := hx
  exact ⟨n, fun steps hsteps => congrArg (· >>= f steps) (hx steps hsteps)⟩

/-- Outcomes follow each other, failures included. -/
theorem bind_of {r : Except Error α} {g : α → Except Error β} (hx : Ends x (of r))
    (hf : ∀ a, r = .ok a → Ends (fun steps => f steps a) (of (g a))) :
    Ends (fun steps => x steps >>= f steps) (of (r >>= g)) := by
  cases r with
  | ok a => exact hx.bind (hf a rfl)
  | error e => exact hx.bind_throw

end Ends

end Checked

end TorqueScript
