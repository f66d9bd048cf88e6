import MatchingEngine.Market.Market

/-!
# Limits only refuse

A market within limits answers as it does within wider ones, up to the first request
that it refuses on account of its limits.
-/

namespace Hft

open Machine

/-- A refusal that is due to the limits of the engine and not to the market. -/
def RejectReason.Limiting (reason : RejectReason) : Prop :=
  reason = .OutOfBoundsOrderId ∨ reason = .OutOfBoundsPrice ∨ reason = .PoolExhausted

/-- Whatever the first limits let through, the second do as well. -/
structure Limits.Within {ι π : Type} (limits limits' : Limits ι π) : Prop where
  id : ∀ id, limits.id id = true → limits'.id id = true
  price : ∀ p, limits.price p = true → limits'.price p = true
  room : limits.room ≤ limits'.room

namespace Market

variable {ι π : Type} [DecidableEq ι] [LinearOrder π] {limits limits' : Limits ι π}
variable {M : Market ι π}

omit [DecidableEq ι] in
theorem execute_widened (h : limits.Within limits') {id : ι} {side : Side} {limit : Option π}
    {quantity : Nat}
    (hfree : ¬(M.execute limits id side limit quantity).1.reason.Limiting) :
    M.execute limits' id side limit quantity = M.execute limits id side limit quantity := by
  cases limit with
  | none => rfl
  | some price =>
      unfold execute at hfree ⊢
      simp only at hfree ⊢
      split
      · rfl
      · rename_i hleft
        rw [if_neg hleft] at hfree
        by_cases hroom : (M.take side (some price) quantity).size < limits.room
        · rw [if_pos hroom, if_pos (Nat.lt_of_lt_of_le hroom h.room)]
        · rw [if_neg hroom] at hfree
          exact absurd (Or.inr (Or.inr rfl)) hfree

theorem order_widened (h : limits.Within limits') {id : ι} {side : Side} {limit : Option π}
    {quantity : Nat} (hfree : ¬(M.order limits id side limit quantity).1.reason.Limiting) :
    M.order limits' id side limit quantity = M.order limits id side limit quantity := by
  unfold order at hfree ⊢
  by_cases hzero : quantity = 0
  · rw [if_pos hzero, if_pos hzero]
  rw [if_neg hzero] at hfree
  rw [if_neg hzero, if_neg hzero]
  by_cases hid : limits.id id = true
  · rw [if_neg (not_not.mpr hid)] at hfree
    rw [if_neg (not_not.mpr hid), if_neg (not_not.mpr (h.id id hid))]
    by_cases hholds : M.holds id = true
    · rw [if_pos hholds, if_pos hholds]
    rw [if_neg hholds] at hfree
    rw [if_neg hholds, if_neg hholds]
    by_cases hprice : limit.any (fun p => !limits.price p) = true
    · rw [if_pos hprice] at hfree
      exact absurd (Or.inr (Or.inl rfl)) hfree
    have hprice' : ¬limit.any (fun p => !limits'.price p) = true := by
      cases limit with
      | none => exact hprice
      | some p =>
          simp only [Option.any_some, Bool.not_eq_true', Bool.not_eq_false] at hprice ⊢
          exact h.price p hprice
    rw [if_neg hprice] at hfree
    rw [if_neg hprice, if_neg hprice']
    by_cases hempty : limit = none ∧ M.orders side.opposite = []
    · rw [if_pos hempty, if_pos hempty]
    · rw [if_neg hempty] at hfree
      rw [if_neg hempty, if_neg hempty]
      exact execute_widened h hfree
  · rw [if_pos hid] at hfree
    exact absurd (Or.inl rfl) hfree

omit [LinearOrder π] in
theorem cancel_widened (h : limits.Within limits') {id : ι}
    (hfree : ¬(M.cancel limits id).1.reason.Limiting) :
    M.cancel limits' id = M.cancel limits id := by
  unfold cancel at hfree ⊢
  by_cases hid : limits.id id = true
  · rw [if_neg (not_not.mpr hid), if_neg (not_not.mpr (h.id id hid))]
  · rw [if_pos hid] at hfree
    exact absurd (Or.inl rfl) hfree

theorem step_widened (h : limits.Within limits') (request : Request ι π)
    (hfree : ¬(M.step limits request).1.reason.Limiting) :
    M.step limits' request = M.step limits request := by
  cases request with
  | order id side limit quantity => exact order_widened h hfree
  | cancel id => exact cancel_widened h hfree

/-- Wider limits make no difference to a run that never meets the narrower ones. -/
theorem run_widened (h : limits.Within limits') (requests : List (Request ι π))
    (hfree : ∀ answer ∈ (M.run limits requests).1, ¬answer.reason.Limiting) :
    M.run limits' requests = M.run limits requests := by
  induction requests generalizing M with
  | nil => rfl
  | cons request requests ih =>
      have hfirst : M.step limits' request = M.step limits request :=
        step_widened h request (hfree _ List.mem_cons_self)
      have hrest := ih (M := (M.step limits request).2)
        (fun answer hanswer => hfree answer (List.mem_cons_of_mem _ hanswer))
      simp only [run, runs] at hrest ⊢
      rw [hfirst, hrest]

end Market

end Hft
