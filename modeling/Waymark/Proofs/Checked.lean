import Mathlib.Tactic
import Waymark.Failure
import Waymark.Proofs.Outcome

/-!
# Checked computations

A checked computation has no result if it reads or writes a place that an array does not have. The definitions
elsewhere in this library give such an access a default. Where a checked computation always has a result, and
it is that of the computation with defaults, no default is ever taken.

* `setAt?`, `modifyAt?`: checked writes;
* `mapM_eq_some`, `filterM_eq_some`, `foldlM_eq_some`: loops whose steps never leave their arrays;
* `Checked`, `Checked.EndsAs`: checked computations that can also fail, and what it means that one never leaves
  its arrays.
-/

namespace Waymark

variable {α β : Type}

/-! ## Arrays -/

/-- Puts an element into a place of an array, none if there is no such place. -/
def setAt? (xs : Array α) (i : Nat) (x : α) : Option (Array α) :=
  if i < xs.size then some (xs.setIfInBounds i x) else none

/-- Changes the element in a place of an array, none if there is no such place. -/
def modifyAt? (xs : Array α) (i : Nat) (f : α → α) : Option (Array α) :=
  if i < xs.size then some (xs.modify i f) else none

theorem setAt?_eq_some {xs : Array α} {i : Nat} (h : i < xs.size) (x : α) :
    setAt? xs i x = some (xs.setIfInBounds i x) := if_pos h

theorem modifyAt?_eq_some {xs : Array α} {i : Nat} (h : i < xs.size) (f : α → α) :
    modifyAt? xs i f = some (xs.modify i f) := if_pos h

theorem getElem?_eq_some_getD {xs : Array α} {i : Nat} (h : i < xs.size) (x : α) : xs[i]? = some (xs.getD i x) := by
  rw [Array.getD_eq_getD_getElem?, Array.getElem?_eq_getElem h]
  rfl

/-! ## Loops -/

section Loops

variable {xs : List α}

theorem mapM_eq_some {f? : α → Option β} {f : α → β} (h : ∀ x ∈ xs, f? x = some (f x)) :
    xs.mapM f? = some (xs.map f) := by
  induction xs with
  | nil => rfl
  | cons x xs ih =>
    obtain ⟨hx, hxs⟩ := List.forall_mem_cons.1 h
    rw [List.mapM_cons, hx, ih hxs]
    rfl

theorem allM_eq_some {p? : α → Option Bool} {p : α → Bool} (h : ∀ x ∈ xs, p? x = some (p x)) :
    xs.allM p? = some (xs.all p) := by
  induction xs with
  | nil => rfl
  | cons x xs ih =>
    obtain ⟨hx, hxs⟩ := List.forall_mem_cons.1 h
    rw [List.allM, hx, List.all_cons]
    cases p x with
    | false => rfl
    | true => exact ih hxs

theorem filterM_eq_some {p? : α → Option Bool} {p : α → Bool} (h : ∀ x ∈ xs, p? x = some (p x)) :
    xs.filterM p? = some (xs.filter p) := by
  have haux (kept : List α) : List.filterAuxM p? xs kept = some ((xs.filter p).reverse ++ kept) := by
    induction xs generalizing kept with
    | nil => rfl
    | cons x xs ih =>
      obtain ⟨hx, hxs⟩ := List.forall_mem_cons.1 h
      rw [List.filterAuxM, hx]
      refine (ih hxs _).trans ?_
      cases hp : p x <;> simp [hp]
  rw [List.filterM, haux]
  simp

/-- If every step of a fold has the result that it has unchecked, as long as an invariant holds that the steps
keep, then so has the fold. -/
theorem foldlM_eq_some {f? : β → α → Option β} {f : β → α → β} (P : β → Prop) {b : β} (hb : P b)
    (h : ∀ x ∈ xs, ∀ b, P b → f? b x = some (f b x) ∧ P (f b x)) :
    xs.foldlM f? b = some (xs.foldl f b) ∧ P (xs.foldl f b) := by
  induction xs generalizing b with
  | nil => exact ⟨rfl, hb⟩
  | cons x xs ih =>
    obtain ⟨hx, hxs⟩ := List.forall_mem_cons.1 h
    obtain ⟨hstep, hkept⟩ := hx b hb
    rw [List.foldlM_cons, hstep]
    exact ih hkept hxs

end Loops

/-! ## Computations that can fail -/

/-- A checked computation that can fail: it has no result if it leaves an array. -/
abbrev Checked (α : Type) : Type := ExceptT Failure Option α

namespace Checked

/-- The checked computation never leaves its arrays, and ends as the computation does. -/
def EndsAs (x? : Checked α) (x : Except Failure α) : Prop := x?.run = some x

theorem endsAs_pure (a : α) : EndsAs (pure a) (.ok a) := rfl

theorem endsAs_throw (e : Failure) : EndsAs (throw e : Checked α) (.error e) := rfl

/-- A computation without arrays never leaves them. -/
theorem endsAs_liftM (x : Except Failure α) : EndsAs (liftM x) x := rfl

theorem endsAs_some {x? : Option α} {a : α} (h : x? = some a) : EndsAs (liftM x?) (.ok a) := by
  subst h
  rfl

/-- A place that exists is read first. -/
theorem EndsAs.read {x? : Option α} {a : α} {f? : α → Checked β} {y : Except Failure β} (h : x? = some a)
    (hf : EndsAs (f? a) y) : EndsAs (liftM x? >>= f?) y := by
  subst h
  exact hf

theorem EndsAs.bind {x? : Checked α} {x : Except Failure α} {f? : α → Checked β} {f : α → Except Failure β}
    (hx : EndsAs x? x) (hf : ∀ a, x = .ok a → EndsAs (f? a) (f a)) : EndsAs (x? >>= f?) (x >>= f) := by
  obtain rfl : x? = ExceptT.mk (some x) := hx
  cases x with
  | error e => rfl
  | ok a => exact hf a rfl

theorem EndsAs.foldlM {f? : β → α → Checked β} {f : β → α → Except Failure β} {xs : List α} {b : β}
    (h : ∀ x ∈ xs, ∀ b, EndsAs (f? b x) (f b x)) : EndsAs (xs.foldlM f? b) (xs.foldlM f b) := by
  induction xs generalizing b with
  | nil => exact endsAs_pure b
  | cons x xs ih =>
    obtain ⟨hx, hxs⟩ := List.forall_mem_cons.1 h
    rw [List.foldlM_cons, List.foldlM_cons]
    exact (hx b).bind fun _ _ => ih hxs

end Checked

end Waymark
