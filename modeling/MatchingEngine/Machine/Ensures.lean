import MatchingEngine.Machine.Runs

/-!
# Partial correctness

`Ensures c Q`: whatever `c` returns satisfies `Q`. Nothing is said of a computation that
stops with a fault, so a frame condition needs no side conditions: it is read off the
writes of a computation, from any state.
-/

namespace Machine.Checked

variable {α β σ ι κ : Type} {c : Checked α} {f : α → Checked β} {P Q : α → Prop} {R : β → Prop}

def Ensures (c : Checked α) (Q : α → Prop) : Prop := ∀ a, c = .ok a → Q a

theorem Ensures.ok {a : α} (h : Q a) : Ensures (.ok a) Q := by
  intro b hb
  cases hb
  exact h

theorem Ensures.error {e : Fault} : Ensures (.error e) Q := fun _ h => by cases h

theorem Ensures.bind (h : c.Ensures P) (next : ∀ a, P a → (f a).Ensures R) :
    (c >>= f).Ensures R := by
  intro b hb
  obtain ⟨a, ha, hb⟩ := bind_eq_ok_iff.mp hb
  exact next a (h a ha) b hb

/-- What the first computation returns does not matter. -/
theorem Ensures.skip (next : ∀ a, (f a).Ensures R) : (c >>= f).Ensures R := by
  intro b hb
  obtain ⟨a, -, hb⟩ := bind_eq_ok_iff.mp hb
  exact next a b hb

theorem Ensures.ite {p : Prop} [Decidable p] {c₁ c₂ : Checked α} (h₁ : c₁.Ensures Q)
    (h₂ : c₂.Ensures Q) : (if p then c₁ else c₂).Ensures Q := by
  split
  · exact h₁
  · exact h₂

theorem Ensures.mono (h : c.Ensures P) (imp : ∀ a, P a → Q a) : c.Ensures Q :=
  fun a ha => imp a (h a ha)

/-- A computation that returns does so with what is ensured as well. -/
theorem Returns.and_ensures (h : c.Returns P) (h' : c.Ensures Q) :
    c.Returns (fun a => P a ∧ Q a) := by
  obtain ⟨a, ha, hP⟩ := returns_iff.mp h
  exact returns_iff.mpr ⟨a, ha, hP, h' a ha⟩

theorem vecWrite_ensures {xs : Array α} {i : Nat} {x : α} :
    (vecWrite xs i x).Ensures (fun ys => ys.size = xs.size) := by
  intro ys hys
  obtain ⟨-, rfl⟩ := vecWrite_eq_ok_iff.mp hys
  exact Array.size_setIfInBounds

theorem checkedAdd_ensures {w a b : Nat} : (checkedAdd w a b).Ensures (· = a + b) :=
  .ite (.ok rfl) .error

theorem checkedSub_ensures {a b : Nat} : (checkedSub a b).Ensures (· = a - b) :=
  .ite (.ok rfl) .error

/-- What every step leaves as it is, a run leaves as it is. -/
theorem checkedRuns_ensures {step : σ → ι → Checked (β × σ)} {view : σ → κ}
    (same : ∀ s input, (step s input).Ensures (fun (_, s') => view s' = view s))
    (s : σ) (inputs : List ι) :
    (checkedRuns step s inputs).Ensures (fun (_, s') => view s' = view s) := by
  induction inputs generalizing s with
  | nil => exact .ok rfl
  | cons input inputs ih =>
      refine (same s input).bind ?_
      rintro ⟨output, s'⟩ hs'
      refine (ih s').bind ?_
      rintro ⟨outputs, s''⟩ hs''
      exact .ok (hs''.trans hs')

end Machine.Checked
