import Mathlib.Algebra.Order.Ring.Nat
import Mathlib.Data.List.Forall2
import Mathlib.Tactic.Common

/-!
# Checked machine computations

A `Checked` computation either returns a value or stops with the fault that an
unchecked machine would not notice: an index outside its vector, an arithmetic
operation that wraps, a bit scan of the zero word, a failed assertion, a read
of storage its owner has not filled in, or a loop whose bound ran out.

`Returns c Q` is total correctness: `c` stops without a fault and its result
satisfies `Q`. The rules below turn a goal about a sequence of operations into
the side conditions of the single operations, in program order.
-/

namespace Machine

/-- What stops a checked computation. -/
inductive Fault
  | outOfBounds (index size : Nat)
  | wrap
  | zeroWord
  | indeterminate (index : Nat)
  | assertion (message : String)
  | unfinished
  | abort (message : String)
  deriving DecidableEq, Repr

abbrev Checked (α : Type) := Except Fault α

namespace Checked

variable {α β : Type}

@[simp] theorem ok_bind (a : α) (f : α → Checked β) :
    ((Except.ok a : Checked α) >>= f) = f a := rfl

@[simp] theorem error_bind (e : Fault) (f : α → Checked β) :
    ((Except.error e : Checked α) >>= f) = Except.error e := rfl

@[simp] theorem pure_eq_ok (a : α) : (pure a : Checked α) = Except.ok a := rfl

/-- Total correctness: the computation returns, and its result satisfies `Q`. -/
def Returns (c : Checked α) (Q : α → Prop) : Prop :=
  match c with
  | .ok a => Q a
  | .error _ => False

variable {c : Checked α} {f : α → Checked β} {P Q : α → Prop} {R : β → Prop}

@[simp] theorem returns_ok {a : α} : Returns (.ok a) Q ↔ Q a := Iff.rfl

@[simp] theorem returns_error {e : Fault} : Returns (.error e) Q ↔ False := Iff.rfl

theorem returns_iff : c.Returns Q ↔ ∃ a, c = .ok a ∧ Q a := by
  cases c with
  | ok a => simp
  | error e => simp

@[simp] theorem returns_bind : (c >>= f).Returns R ↔ c.Returns (fun a => (f a).Returns R) := by
  cases c with
  | ok a => rfl
  | error e => rfl

@[simp] theorem returns_ite {p : Prop} [Decidable p] {c₁ c₂ : Checked α} :
    (if p then c₁ else c₂).Returns Q ↔ (p → c₁.Returns Q) ∧ (¬p → c₂.Returns Q) := by
  split <;> simp_all

/-- A guarded result returns exactly when its guard holds. -/
theorem returns_guard {p : Prop} [Decidable p] {a : α} {e : Fault} :
    Returns (if p then .ok a else .error e) Q ↔ p ∧ Q a := by
  by_cases h : p <;> simp [h]

theorem Returns.mono (h : c.Returns P) (imp : ∀ a, P a → Q a) : c.Returns Q := by
  cases c with
  | ok a => exact imp a h
  | error e => exact h

theorem Returns.result {a : α} (h : c.Returns Q) (heq : c = .ok a) : Q a := by
  rw [heq] at h
  exact h

/-- Compose specifications: the second computation starts from any result the
first one's specification allows. -/
theorem Returns.bind (h : c.Returns P) (next : ∀ a, P a → (f a).Returns R) :
    (c >>= f).Returns R :=
  returns_bind.mpr (h.mono next)

/-- Peel a sequence of operations that returned into its steps. -/
theorem bind_eq_ok_iff {b : β} : (c >>= f) = .ok b ↔ ∃ a, c = .ok a ∧ f a = .ok b := by
  cases c with
  | ok a => simp
  | error e => simp

/-! ### Two computations side by side -/

section Alike

variable {γ δ : Type} {d : Checked γ} {g : γ → Checked δ} {R : α → γ → Prop} {S : β → δ → Prop}

/-- Both return, with results related by `R`, or both stop with one fault. -/
def Alike (c : Checked α) (d : Checked γ) (R : α → γ → Prop) : Prop :=
  match c, d with
  | .ok a, .ok b => R a b
  | .error e, .error e' => e = e'
  | _, _ => False

@[simp] theorem alike_ok {a : α} {b : γ} : Alike (.ok a) (.ok b) R ↔ R a b := Iff.rfl

theorem Alike.bind (h : Alike c d R) (next : ∀ a b, R a b → Alike (f a) (g b) S) :
    Alike (c >>= f) (d >>= g) S := by
  cases c with
  | ok a =>
      cases d with
      | ok b => exact next a b h
      | error e => exact h.elim
  | error e =>
      cases d with
      | ok b => exact h.elim
      | error e' => exact h

/-- Two computations that begin with the same step are alike when their rests are,
from any result of that step. -/
theorem alike_bind_same {f' : α → Checked δ} (next : ∀ a, c = .ok a → Alike (f a) (f' a) S) :
    Alike (c >>= f) (c >>= f') S := by
  cases c with
  | ok a => exact next a rfl
  | error e => exact rfl

theorem Alike.returns {Q : γ → Prop} (h : Alike c d R) (hd : d.Returns Q) :
    c.Returns (fun a => ∃ b, d = .ok b ∧ R a b ∧ Q b) := by
  cases c with
  | ok a =>
      cases d with
      | ok b => exact ⟨b, rfl, h, hd⟩
      | error e => exact h.elim
  | error e =>
      cases d with
      | ok b => exact h.elim
      | error e' => exact hd

end Alike

theorem mapM_eq {f : α → Checked β} {h : α → β} {as : List α} (heq : ∀ a ∈ as, f a = .ok (h a)) :
    as.mapM f = .ok (as.map h) := by
  induction as with
  | nil => rfl
  | cons a as ih =>
      rw [List.mapM_cons, heq a List.mem_cons_self, ok_bind,
        ih (fun b hb => heq b (List.mem_cons_of_mem a hb)), ok_bind]
      rfl

/-- A loop returns exactly if every iteration does, with the results in order. -/
theorem mapM_eq_ok_iff {f : α → Checked β} {as : List α} {bs : List β} :
    as.mapM f = .ok bs ↔ List.Forall₂ (fun a b => f a = .ok b) as bs := by
  induction as generalizing bs with
  | nil =>
      rw [List.mapM_nil, pure_eq_ok, Except.ok.injEq, List.forall₂_nil_left_iff, eq_comm]
  | cons a as ih =>
      rw [List.mapM_cons, bind_eq_ok_iff, List.forall₂_cons_left_iff]
      refine exists_congr (fun b => ?_)
      simp only [bind_eq_ok_iff, ih, pure_eq_ok, Except.ok.injEq]
      constructor
      · rintro ⟨hb, bs, hbs, rfl⟩
        exact ⟨bs, hb, hbs, rfl⟩
      · rintro ⟨bs, hb, hbs, rfl⟩
        exact ⟨hb, bs, hbs, rfl⟩

theorem mapM_returns {f : α → Checked β} {as : List α} (h : ∀ a ∈ as, ∃ b, f a = .ok b) :
    ∃ bs, as.mapM f = .ok bs := by
  induction as with
  | nil => exact ⟨[], rfl⟩
  | cons a as ih =>
      obtain ⟨b, hb⟩ := h a List.mem_cons_self
      obtain ⟨bs, hbs⟩ := ih (fun a' ha' => h a' (List.mem_cons_of_mem a ha'))
      exact ⟨b :: bs, mapM_eq_ok_iff.mpr (.cons hb (mapM_eq_ok_iff.mp hbs))⟩

/-- The iteration for `a` returned. -/
theorem of_mapM {f : α → Checked β} {as : List α} {bs : List β} (h : as.mapM f = .ok bs) {a : α}
    (ha : a ∈ as) : ∃ b ∈ bs, f a = .ok b := by
  induction mapM_eq_ok_iff.mp h with
  | nil => exact absurd ha List.not_mem_nil
  | @cons a' b as bs hb hrest ih =>
      rcases List.mem_cons.mp ha with rfl | ha
      · exact ⟨b, List.mem_cons_self, hb⟩
      · obtain ⟨b', hb', heq⟩ := ih (mapM_eq_ok_iff.mpr hrest) ha
        exact ⟨b', List.mem_cons_of_mem b hb', heq⟩

/-- Every result is that of an iteration. -/
theorem forall_of_mapM {f : α → Checked β} {as : List α} {bs : List β} {P : β → Prop}
    (h : as.mapM f = .ok bs) : (∀ b ∈ bs, P b) ↔ ∀ a ∈ as, (f a).Returns P := by
  induction mapM_eq_ok_iff.mp h with
  | nil => simp
  | cons hb hrest ih =>
      rw [List.forall_mem_cons, List.forall_mem_cons, ih (mapM_eq_ok_iff.mpr hrest), hb,
        returns_ok]

/-- What the iterations return, seen through `k`. -/
theorem map_of_mapM {γ : Type} {f : α → Checked β} {as : List α} {bs : List β} {k : β → γ}
    {k' : α → γ} (h : as.mapM f = .ok bs) (hk : ∀ a ∈ as, (f a).Returns (fun b => k b = k' a)) :
    bs.map k = as.map k' := by
  induction mapM_eq_ok_iff.mp h with
  | nil => rfl
  | @cons a b as bs hb hrest ih =>
      have ha := hk a List.mem_cons_self
      rw [hb, returns_ok] at ha
      rw [List.map_cons, List.map_cons, ha,
        ih (mapM_eq_ok_iff.mpr hrest) (fun a' ha' => hk a' (List.mem_cons_of_mem a ha'))]

end Checked

open Checked

/-! ## Vectors -/

section Vector

variable {α : Type} {xs : Array α} {i : Nat} {x : α}

/-- `xs[i]` of a C++ vector, with the bounds check the machine does not make. -/
def vecRead (xs : Array α) (i : Nat) : Checked α :=
  match xs[i]? with
  | some x => .ok x
  | none => .error (.outOfBounds i xs.size)

/-- `xs[i] = x`. -/
def vecWrite (xs : Array α) (i : Nat) (x : α) : Checked (Array α) :=
  if i < xs.size then .ok (xs.setIfInBounds i x) else .error (.outOfBounds i xs.size)

theorem vecRead_eq (h : xs[i]? = some x) : vecRead xs i = .ok x := by
  simp only [vecRead, h]

theorem vecWrite_eq (h : i < xs.size) : vecWrite xs i x = .ok (xs.setIfInBounds i x) := if_pos h

theorem vecRead_eq_ok_iff : vecRead xs i = .ok x ↔ xs[i]? = some x := by
  unfold vecRead
  cases h : xs[i]? with
  | none => simp
  | some y => simp

theorem vecWrite_eq_ok_iff {ys : Array α} :
    vecWrite xs i x = .ok ys ↔ i < xs.size ∧ xs.setIfInBounds i x = ys := by
  unfold vecWrite
  split <;> simp_all

@[simp] theorem returns_vecRead {Q : α → Prop} :
    (vecRead xs i).Returns Q ↔ ∃ x, xs[i]? = some x ∧ Q x := by
  unfold vecRead
  cases h : xs[i]? with
  | none => simp
  | some x => simp

@[simp] theorem returns_vecWrite {Q : Array α → Prop} :
    (vecWrite xs i x).Returns Q ↔ i < xs.size ∧ Q (xs.setIfInBounds i x) :=
  returns_guard

theorem lt_size_of_getElem? (h : xs[i]? = some x) : i < xs.size :=
  (Array.getElem?_eq_some_iff.mp h).1

end Vector

/-! ## Unsigned arithmetic of width `w` -/

section Arithmetic

variable {w a b : Nat} {Q : Nat → Prop}

def checkedAdd (w a b : Nat) : Checked Nat :=
  if a + b < 2 ^ w then .ok (a + b) else .error .wrap

def checkedSub (a b : Nat) : Checked Nat :=
  if b ≤ a then .ok (a - b) else .error .wrap

def checkedMul (w a b : Nat) : Checked Nat :=
  if a * b < 2 ^ w then .ok (a * b) else .error .wrap

/-- A cast to width `w` that must not lose a bit. -/
def narrow (w a : Nat) : Checked Nat :=
  if a < 2 ^ w then .ok a else .error .wrap

@[simp] theorem returns_checkedAdd :
    (checkedAdd w a b).Returns Q ↔ a + b < 2 ^ w ∧ Q (a + b) :=
  returns_guard

@[simp] theorem returns_checkedSub : (checkedSub a b).Returns Q ↔ b ≤ a ∧ Q (a - b) :=
  returns_guard

@[simp] theorem returns_checkedMul :
    (checkedMul w a b).Returns Q ↔ a * b < 2 ^ w ∧ Q (a * b) :=
  returns_guard

@[simp] theorem returns_narrow : (narrow w a).Returns Q ↔ a < 2 ^ w ∧ Q a :=
  returns_guard

end Arithmetic

/-- `assert(p && message)`. -/
def check (p : Bool) (message : String) : Checked Unit :=
  if p then .ok () else .error (.assertion message)

@[simp] theorem returns_check {p : Bool} {message : String} {Q : Unit → Prop} :
    (check p message).Returns Q ↔ p = true ∧ Q () :=
  returns_guard

end Machine
