/-!
# Checked results

The outcome of a check that goes on after a failure: the result, or everything that is wrong. A
failed outcome always tells at least one thing that is wrong.
-/

namespace CallContract

/-- A result, or all that is wrong in the order in which it was met. -/
inductive Checked (ε α : Type) where
  | ok (value : α)
  | failed (first : ε) (others : List ε)
  deriving DecidableEq, Repr

namespace Checked

variable {ε δ α β γ : Type}

def faults : Checked ε α → List ε
  | .ok _ => []
  | .failed e es => e :: es

def value? : Checked ε α → Option α
  | .ok a => some a
  | .failed _ _ => none

def fail (e : ε) : Checked ε α := .failed e []

def map (f : α → β) : Checked ε α → Checked ε β
  | .ok a => .ok (f a)
  | .failed e es => .failed e es

def mapFaults (f : ε → δ) : Checked ε α → Checked δ α
  | .ok a => .ok a
  | .failed e es => .failed (f e) (es.map f)

/-- Goes on with the result if nothing is wrong. -/
def bind (x : Checked ε α) (f : α → Checked ε β) : Checked ε β :=
  match x with
  | .ok a => f a
  | .failed e es => .failed e es

/-- Joins two results; what is wrong with either is kept. -/
def both (f : α → β → γ) : Checked ε α → Checked ε β → Checked ε γ
  | .ok a, .ok b => .ok (f a b)
  | .ok _, .failed e es => .failed e es
  | .failed e es, y => .failed e (es ++ y.faults)

/-- All results of a list; what is wrong with any of them is kept. -/
def each : List (Checked ε α) → Checked ε (List α)
  | [] => .ok []
  | x :: rest => both List.cons x (each rest)

@[simp] theorem faults_ok (a : α) : (ok a : Checked ε α).faults = [] := rfl

@[simp] theorem faults_failed (e : ε) (es : List ε) :
    (failed e es : Checked ε α).faults = e :: es := rfl

@[simp] theorem faults_map (f : α → β) (x : Checked ε α) : (x.map f).faults = x.faults := by
  cases x <;> rfl

@[simp] theorem faults_mapFaults (f : ε → δ) (x : Checked ε α) :
    (x.mapFaults f).faults = x.faults.map f := by
  cases x <;> rfl

/-- Of two results everything that is wrong is kept, in order. -/
@[simp] theorem faults_both (f : α → β → γ) (x : Checked ε α) (y : Checked ε β) :
    (both f x y).faults = x.faults ++ y.faults := by
  cases x <;> cases y <;> simp [both]

@[simp] theorem faults_each (xs : List (Checked ε α)) : (each xs).faults = xs.flatMap faults := by
  induction xs with
  | nil => rfl
  | cons x rest ih => simp [each, ih]

/-- A result comes out exactly if nothing is wrong. -/
theorem faults_eq_nil_iff {x : Checked ε α} : x.faults = [] ↔ ∃ a, x = .ok a := by
  cases x <;> simp

/-! ## Results that came out -/

@[simp] theorem map_eq_ok_iff {f : α → β} {x : Checked ε α} {b : β} :
    x.map f = .ok b ↔ ∃ a, x = .ok a ∧ f a = b := by
  cases x <;> simp [map]

@[simp] theorem mapFaults_eq_ok_iff {f : ε → δ} {x : Checked ε α} {a : α} :
    x.mapFaults f = .ok a ↔ x = .ok a := by
  cases x <;> simp [mapFaults]

@[simp] theorem bind_eq_ok_iff {x : Checked ε α} {f : α → Checked ε β} {b : β} :
    x.bind f = .ok b ↔ ∃ a, x = .ok a ∧ f a = .ok b := by
  cases x <;> simp [bind]

@[simp] theorem both_eq_ok_iff {f : α → β → γ} {x : Checked ε α} {y : Checked ε β} {c : γ} :
    both f x y = .ok c ↔ ∃ a b, x = .ok a ∧ y = .ok b ∧ f a b = c := by
  cases x <;> cases y <;> simp [both]

@[simp] theorem fail_ne_ok {e : ε} {a : α} : (fail e : Checked ε α) ≠ .ok a := nofun

end Checked
end CallContract
