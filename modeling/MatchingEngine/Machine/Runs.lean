import MatchingEngine.Machine.Checked

/-!
# Runs of machines that answer inputs one by one

A step takes a state and an input to an output and a state. `runs` feeds a list of
inputs; `checkedRuns` does so with a step that may stop with a fault. What one
step preserves is preserved by runs: an invariant of the states, a relation
between the states of two machines whose inputs and outputs correspond, and the
refinement of a model by a checked step, which is total.
-/

namespace Machine

open Checked

section

variable {σ τ ι κ β γ : Type}

def runs (step : σ → ι → β × σ) (s : σ) : List ι → List β × σ
  | [] => ([], s)
  | input :: inputs =>
      let (output, s) := step s input
      let (outputs, s) := runs step s inputs
      (output :: outputs, s)

def checkedRuns (step : σ → ι → Checked (β × σ)) (s : σ) : List ι → Checked (List β × σ)
  | [] => .ok ([], s)
  | input :: inputs => do
      let (output, s) ← step s input
      let (outputs, s) ← checkedRuns step s inputs
      return (output :: outputs, s)

variable {step : σ → ι → β × σ} {step' : τ → κ → γ × τ} {s : σ} {t : τ}
variable {inputs : List ι}

theorem runs_invariant {P : σ → Prop} (start : P s)
    (preserved : ∀ s input, P s → P (step s input).2) : P (runs step s inputs).2 := by
  induction inputs generalizing s with
  | nil => exact start
  | cons input inputs ih => exact ih (preserved s input start)

theorem runs_append (inputs inputs' : List ι) : runs step s (inputs ++ inputs') =
    ((runs step s inputs).1 ++ (runs step (runs step s inputs).2 inputs').1,
      (runs step (runs step s inputs).2 inputs').2) := by
  induction inputs generalizing s with
  | nil => rfl
  | cons input inputs ih =>
      simp only [List.cons_append, runs, ih]

/-- Every output of a run is that of a step from a state satisfying the invariant. -/
theorem runs_outputs {P : σ → Prop} {Q : β → Prop} (start : P s)
    (preserved : ∀ s input, P s → P (step s input).2)
    (outputs : ∀ s input, P s → Q (step s input).1) : ∀ b ∈ (runs step s inputs).1, Q b := by
  induction inputs generalizing s with
  | nil => exact fun b hb => absurd hb List.not_mem_nil
  | cons input inputs ih =>
      intro b hb
      rcases List.mem_cons.mp hb with rfl | hb
      · exact outputs s input start
      · exact ih (preserved s input start) b hb

/-- Amortization: what a step spends is paid for by its input or taken from a potential. -/
theorem runs_paid {P : σ → Prop} {potential : σ → Nat} {spent paid : ι → β → Nat} (start : P s)
    (preserved : ∀ s input, P s → P (step s input).2)
    (balance : ∀ s input, P s → spent input (step s input).1 + potential (step s input).2 ≤
      potential s + paid input (step s input).1) :
    ((inputs.zip (runs step s inputs).1).map (fun p => spent p.1 p.2)).sum +
        potential (runs step s inputs).2 ≤
      potential s + ((inputs.zip (runs step s inputs).1).map (fun p => paid p.1 p.2)).sum := by
  induction inputs generalizing s with
  | nil => exact Nat.le_of_eq (Nat.add_comm 0 _)
  | cons input inputs ih =>
      have hfirst := balance s input start
      have hrest := ih (preserved s input start)
      simp only [runs, List.zip_cons_cons, List.map_cons, List.sum_cons]
      omega

/-- What happens if some inputs are left out. The outputs to the others are the same, if the
states stay related after an input that is kept and after one that is not. -/
theorem runs_filter {step' : τ → ι → β × τ} {R : σ → τ → Prop} {keep : ι → Bool}
    {C : ι → β → Prop} (start : R s t)
    (kept : ∀ s t input, R s t → keep input = true → C input (step s input).1 →
      (step' t input).1 = (step s input).1 ∧ R (step s input).2 (step' t input).2)
    (dropped : ∀ s t input, R s t → keep input = false → C input (step s input).1 →
      R (step s input).2 t)
    (conditions : ∀ p ∈ inputs.zip (runs step s inputs).1, C p.1 p.2) :
    (runs step' t (inputs.filter keep)).1 =
        ((inputs.zip (runs step s inputs).1).filter (fun p => keep p.1)).map Prod.snd ∧
      R (runs step s inputs).2 (runs step' t (inputs.filter keep)).2 := by
  induction inputs generalizing s t with
  | nil => exact ⟨rfl, start⟩
  | cons input inputs ih =>
      have hzip : (input :: inputs).zip (runs step s (input :: inputs)).1 =
          (input, (step s input).1) :: inputs.zip (runs step (step s input).2 inputs).1 := rfl
      rw [hzip] at conditions ⊢
      have hfirst : C input (step s input).1 := conditions _ List.mem_cons_self
      have hothers := fun p hp => conditions p (List.mem_cons_of_mem _ hp)
      cases hkeep : keep input with
      | true =>
          obtain ⟨houtput, hnext⟩ := kept s t input start hkeep hfirst
          obtain ⟨houtputs, hend⟩ := ih hnext hothers
          rw [List.filter_cons_of_pos hkeep,
            List.filter_cons_of_pos (p := fun p : ι × β => keep p.1) hkeep]
          exact ⟨congrArg₂ List.cons houtput houtputs, hend⟩
      | false =>
          have hnot : ¬keep input = true := by simp [hkeep]
          rw [List.filter_cons_of_neg hnot,
            List.filter_cons_of_neg (p := fun p : ι × β => keep p.1) hnot]
          exact ih (dropped s t input start hkeep hfirst) hothers

theorem zip_filter_map {f : ι → κ} {h : β → γ} (keep : ι → Bool) (keep' : κ → Bool)
    (hkeep : ∀ input, keep' (f input) = keep input) (inputs : List ι) (outputs : List β) :
    ((inputs.zip (outputs.map h)).filter (fun p => keep p.1)).map Prod.snd =
      ((((inputs.map f).zip outputs).filter (fun p => keep' p.1)).map Prod.snd).map h := by
  rw [List.zip_map_left, List.zip_map_right, List.filter_map, List.filter_map, List.map_map,
    List.map_map, List.map_map]
  refine congrArg _ (List.filter_congr (fun p _ => ?_))
  exact (hkeep p.1).symm

/-- Corresponding inputs lead related states to corresponding outputs and related states. -/
def Simulates (step : σ → ι → β × σ) (step' : τ → κ → γ × τ) (R : σ → τ → Prop)
    (I : ι → κ → Prop) (Q : β → γ → Prop) : Prop :=
  ∀ s t input input', R s t → I input input' →
    Q (step s input).1 (step' t input').1 ∧ R (step s input).2 (step' t input').2

theorem Simulates.runs {R : σ → τ → Prop} {I : ι → κ → Prop} {Q : β → γ → Prop}
    (h : Simulates step step' R I Q) (start : R s t) {inputs' : List κ}
    (correspond : List.Forall₂ I inputs inputs') :
    List.Forall₂ Q (runs step s inputs).1 (Machine.runs step' t inputs').1 ∧
      R (Machine.runs step s inputs).2 (Machine.runs step' t inputs').2 := by
  induction correspond generalizing s t with
  | nil => exact ⟨.nil, start⟩
  | cons hinput _ ih =>
      obtain ⟨houtput, hnext⟩ := h s t _ _ start hinput
      obtain ⟨houtputs, hfinal⟩ := ih hnext
      exact ⟨.cons houtput houtputs, hfinal⟩

/-- The checked step returns from every represented state, as the model says. -/
def Refines (step : σ → ι → Checked (β × σ)) (model : τ → ι → β × τ) (R : σ → τ → Prop) : Prop :=
  ∀ s t input, R s t → (step s input).Returns (fun (output, s') =>
    output = (model t input).1 ∧ R s' (model t input).2)

theorem Refines.runs {step : σ → ι → Checked (β × σ)} {model : τ → ι → β × τ} {R : σ → τ → Prop}
    (h : Refines step model R) (start : R s t) :
    (checkedRuns step s inputs).Returns (fun (outputs, s') =>
      outputs = (Machine.runs model t inputs).1 ∧ R s' (Machine.runs model t inputs).2) := by
  induction inputs generalizing s t with
  | nil => exact ⟨rfl, start⟩
  | cons input inputs ih =>
      refine (h s t input start).bind ?_
      rintro ⟨output, s'⟩ ⟨houtput, hnext⟩
      refine (ih hnext).bind ?_
      rintro ⟨outputs, s''⟩ ⟨houtputs, hfinal⟩
      exact ⟨congrArg₂ List.cons houtput houtputs, hfinal⟩

/-- Each input is admissible where the model has arrived. -/
def Admissible (model : τ → ι → τ) (C : τ → ι → Prop) : τ → List ι → Prop
  | _, [] => True
  | t, input :: inputs => C t input ∧ Admissible model C (model t input) inputs

/-- A step without outputs that follows the model on admissible inputs follows it over a
run of them. -/
theorem foldlM_refines {step : σ → ι → Checked σ} {model : τ → ι → τ} {R : σ → τ → Prop}
    {C : τ → ι → Prop} (start : R s t)
    (preserved : ∀ s t input, R s t → C t input →
      (step s input).Returns (fun s' => R s' (model t input)))
    (admissible : Admissible model C t inputs) :
    (inputs.foldlM step s).Returns (fun s' => R s' (inputs.foldl model t)) := by
  induction inputs generalizing s t with
  | nil => exact start
  | cons input inputs ih =>
      rw [List.foldlM_cons]
      refine (preserved s t input start admissible.1).bind ?_
      intro s' hs'
      exact ih hs' admissible.2

/-- A step without outputs that follows a specification wherever this is defined follows it over
the runs it defines. -/
theorem foldlM_follows {step : σ → ι → Checked σ} {spec : τ → ι → Option τ} {R : σ → τ → Prop}
    {t' : τ} (start : R s t)
    (preserved : ∀ s t t' input, R s t → spec t input = some t' →
      (step s input).Returns (fun s' => R s' t'))
    (h : inputs.foldlM spec t = some t') :
    (inputs.foldlM step s).Returns (fun s' => R s' t') := by
  induction inputs generalizing s t with
  | nil =>
      obtain rfl := Option.some.inj h
      exact start
  | cons input inputs ih =>
      rw [List.foldlM_cons] at h ⊢
      obtain ⟨t₁, hfirst, hrest⟩ := Option.bind_eq_some_iff.mp h
      refine (preserved s t t₁ input start hfirst).bind ?_
      intro s' hs'
      exact ih hs' hrest

theorem admissible_of_forall {model : τ → ι → τ} {C : τ → ι → Prop} (h : ∀ t input, C t input) :
    Admissible model C t inputs := by
  induction inputs generalizing t with
  | nil => trivial
  | cons input inputs ih => exact ⟨h t input, ih⟩

/-- An invariant every step returns with is what a run without outputs returns with. -/
theorem foldlM_invariant {step : σ → ι → Checked σ} {P : σ → Prop} (start : P s)
    (preserved : ∀ s input, P s → (step s input).Returns P) :
    (inputs.foldlM step s).Returns P := by
  induction inputs generalizing s with
  | nil => exact start
  | cons input inputs ih =>
      rw [List.foldlM_cons]
      exact (preserved s input start).bind (fun s' hs' => ih hs')

/-- An invariant every step returns with is what a run returns with. -/
theorem checkedRuns_invariant {step : σ → ι → Checked (β × σ)} {P : σ → Prop} (start : P s)
    (preserved : ∀ s input, P s → (step s input).Returns (fun (_, s') => P s')) :
    (checkedRuns step s inputs).Returns (fun (_, s') => P s') := by
  induction inputs generalizing s with
  | nil => exact start
  | cons input inputs ih =>
      refine (preserved s input start).bind ?_
      rintro ⟨output, s'⟩ hs'
      refine (ih hs').bind ?_
      rintro ⟨outputs, s''⟩ hs''
      exact hs''

theorem checkedRuns_length {step : σ → ι → Checked (β × σ)} {outputs : List β} {s' : σ}
    (h : checkedRuns step s inputs = .ok (outputs, s')) : outputs.length = inputs.length := by
  induction inputs generalizing s outputs with
  | nil =>
      obtain ⟨rfl, -⟩ := Prod.mk.inj (Except.ok.inj h)
      rfl
  | cons input inputs ih =>
      obtain ⟨⟨output, t⟩, -, h⟩ := bind_eq_ok_iff.mp h
      obtain ⟨⟨outputs', t'⟩, hrest, h⟩ := bind_eq_ok_iff.mp h
      obtain ⟨rfl, rfl⟩ := Prod.mk.inj (Except.ok.inj h)
      exact congrArg (· + 1) (ih hrest)

/-- What every step answers to the inputs at hand, wherever the invariant holds, is what a run
of them answers. -/
theorem checkedRuns_outputs {step : σ → ι → Checked (β × σ)} {P : σ → Prop} {Q : β → Prop}
    (start : P s)
    (preserved : ∀ s, P s → ∀ input ∈ inputs,
      (step s input).Returns (fun (output, s') => Q output ∧ P s')) :
    (checkedRuns step s inputs).Returns (fun (outputs, s') =>
      (∀ output ∈ outputs, Q output) ∧ P s') := by
  induction inputs generalizing s with
  | nil => exact ⟨fun output houtput => absurd houtput List.not_mem_nil, start⟩
  | cons input inputs ih =>
      refine (preserved s start input List.mem_cons_self).bind ?_
      rintro ⟨output, s'⟩ ⟨houtput, hs'⟩
      refine (ih hs' (fun t ht i hi => preserved t ht i (List.mem_cons_of_mem _ hi))).bind ?_
      rintro ⟨outputs, s''⟩ ⟨houtputs, hs''⟩
      exact ⟨List.forall_mem_cons.mpr ⟨houtput, houtputs⟩, hs''⟩

/-- An invariant that only admissible steps preserve holds after a run of them. -/
theorem checkedRuns_guarded {step : σ → ι → Checked (β × σ)} {P : σ → Prop} {C : σ → ι → Prop}
    (start : P s)
    (preserved : ∀ s input, P s → C s input → (step s input).Returns (fun (_, s') => P s'))
    (admissible : ∀ before input after, inputs = before ++ input :: after →
      (checkedRuns step s before).Returns (fun (_, s') => C s' input)) :
    (checkedRuns step s inputs).Returns (fun (_, s') => P s') := by
  induction inputs generalizing s with
  | nil => exact start
  | cons input inputs ih =>
      have hfirst := preserved s input start (admissible [] input inputs rfl)
      obtain ⟨⟨output, s'⟩, heq, hP⟩ := returns_iff.mp hfirst
      rw [checkedRuns, heq, ok_bind]
      refine (ih hP ?_).bind ?_
      · intro before input' after hsplit
        have hrun := admissible (input :: before) input' after (by rw [hsplit]; rfl)
        rw [checkedRuns, heq, ok_bind] at hrun
        obtain ⟨⟨outputs, s''⟩, heq', hC⟩ := returns_iff.mp (returns_bind.mp hrun)
        rw [heq']
        exact hC
      · rintro ⟨outputs, s''⟩ hP''
        exact hP''

theorem checkedRuns_map {step : σ → ι → Checked (β × σ)} {step' : σ → κ → Checked (β × σ)}
    {f : ι → κ} (h : ∀ input ∈ inputs, ∀ s, step s input = step' s (f input)) :
    checkedRuns step s inputs = checkedRuns step' s (inputs.map f) := by
  induction inputs generalizing s with
  | nil => rfl
  | cons input inputs ih =>
      have hrest : ∀ s, checkedRuns step s inputs = checkedRuns step' s (inputs.map f) :=
        fun s => ih (fun i hi => h i (List.mem_cons_of_mem _ hi))
      rw [List.map_cons, checkedRuns, checkedRuns, h input List.mem_cons_self]
      simp only [hrest]

/-- The outputs to the inputs of a kind in their places, and one and the same output to all
other inputs. -/
def weave (own : ι → Bool) (idle : β) : List ι → List β → List β
  | [], _ => []
  | input :: inputs, outputs =>
      if own input then outputs.take 1 ++ weave own idle inputs (outputs.drop 1)
      else idle :: weave own idle inputs outputs

/-- Inputs that leave the state alone can be left out of a run. -/
theorem checkedRuns_weave {step : σ → ι → Checked (β × σ)} {P : σ → Prop} {own : ι → Bool}
    {idle : β} (start : P s)
    (preserved : ∀ s input output s', P s → own input = true →
      step s input = .ok (output, s') → P s')
    (ignored : ∀ s input, P s → own input = false → step s input = .ok (idle, s)) :
    checkedRuns step s inputs = checkedRuns step s (inputs.filter own) >>= fun p =>
      pure (weave own idle inputs p.1, p.2) := by
  induction inputs generalizing s with
  | nil => rfl
  | cons input inputs ih =>
      by_cases hown : own input = true
      · rw [List.filter_cons_of_pos hown, checkedRuns, checkedRuns]
        cases hstep : step s input with
        | error e => rfl
        | ok p =>
            obtain ⟨output, s'⟩ := p
            simp only [ok_bind, ih (preserved s input output s' start hown hstep)]
            cases checkedRuns step s' (inputs.filter own) with
            | error e => rfl
            | ok q => simp only [ok_bind, pure_eq_ok, weave, hown, if_true, List.take_succ_cons,
                List.take_zero, List.singleton_append, List.drop_succ_cons, List.drop_zero]
      · rw [List.filter_cons_of_neg hown, checkedRuns,
          ignored s input start (Bool.eq_false_of_not_eq_true hown), ok_bind]
        simp only [ih start]
        cases checkedRuns step s (inputs.filter own) with
        | error e => rfl
        | ok q => simp only [ok_bind, pure_eq_ok, weave, hown, Bool.false_eq_true, if_false]

end

end Machine
