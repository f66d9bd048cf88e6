import MatchingEngine.Market.Market

/-!
# Renaming ids and prices

A market knows of ids only which are equal, and of prices only which is the lower one.
So a renaming of the ids it takes on, and an order-preserving change of the prices it
takes on, commute with every request: prices may be shifted, and put on a finer grid.
-/

namespace Hft

open Machine

/-- Ids and prices within some limits take the place of those within others. -/
structure Renaming {ι π ι' π' : Type} [LinearOrder π] [LinearOrder π'] (limits : Limits ι π)
    (limits' : Limits ι' π') where
  id : ι → ι'
  price : π → π'
  id_inj : ∀ i j, limits.id i = true → limits.id j = true → id i = id j → i = j
  price_lt : ∀ p q, limits.price p = true → limits.price q = true → p < q → price p < price q
  limits_id : ∀ i, limits'.id (id i) = limits.id i
  limits_price : ∀ p, limits'.price (price p) = limits.price p
  room : limits'.room = limits.room

namespace Renaming

variable {ι π ι' π' : Type} [LinearOrder π] [LinearOrder π']
variable {limits : Limits ι π} {limits' : Limits ι' π'} (ρ : Renaming limits limits')

def order (o : OpenOrder ι π) : OpenOrder ι' π' := ⟨ρ.id o.id, ρ.price o.price, o.quantity⟩

def deal (d : Deal ι π) : Deal ι' π' := ⟨ρ.id d.maker, ρ.id d.taker, ρ.price d.price, d.quantity⟩

def answer (a : Answer ι π) : Answer ι' π' := ⟨a.reason, a.filled, a.deals.map ρ.deal⟩

def request : Request ι π → Request ι' π'
  | .order id side limit quantity => .order (ρ.id id) side (limit.map ρ.price) quantity
  | .cancel id => .cancel (ρ.id id)

def market (M : Market ι π) : Market ι' π' := ⟨fun side => (M.orders side).map ρ.order⟩

theorem price_lt_iff {p q : π} (hp : limits.price p = true) (hq : limits.price q = true) :
    ρ.price p < ρ.price q ↔ p < q := by
  refine ⟨fun h => ?_, ρ.price_lt p q hp hq⟩
  by_contra hnot
  rcases (not_lt.mp hnot).lt_or_eq with hlt | heq
  · exact lt_asymm h (ρ.price_lt q p hq hp hlt)
  · rw [heq] at h
    exact lt_irrefl _ h

theorem price_le_iff {p q : π} (hp : limits.price p = true) (hq : limits.price q = true) :
    ρ.price p ≤ ρ.price q ↔ p ≤ q := by
  rw [← not_lt, ← not_lt, ρ.price_lt_iff hq hp]

end Renaming

namespace Market

variable {ι π ι' π' : Type} [LinearOrder π] [LinearOrder π']
variable {limits : Limits ι π} {limits' : Limits ι' π'}
variable {M : Market ι π} {side : Side} {limit : Option π} {id : ι} {n : Nat}
variable {o : OpenOrder ι π} {os : List (OpenOrder ι π)}

/-- All open orders are within the limits. -/
def Admitted (limits : Limits ι π) (M : Market ι π) : Prop :=
  ∀ side, ∀ o ∈ M.orders side, limits.id o.id = true ∧ limits.price o.price = true

omit [LinearOrder π] in
theorem Admitted.set (h : M.Admitted limits)
    (hos : ∀ o ∈ os, limits.id o.id = true ∧ limits.price o.price = true) :
    (M.set side os).Admitted limits := by
  intro s o ho
  by_cases hs : s = side
  · subst hs
    rw [set_self] at ho
    exact hos o ho
  · rw [set_of_ne hs] at ho
    exact h s o ho

theorem mem_queueUp {o' : OpenOrder ι π} : o' ∈ queueUp side o os ↔ o' = o ∨ o' ∈ os := by
  induction os with
  | nil => simp [queueUp]
  | cons m os ih =>
      unfold queueUp
      split
      · simp
      · rw [List.mem_cons, ih, List.mem_cons]
        tauto

theorem Admitted.post (h : M.Admitted limits) (hid : limits.id o.id = true)
    (hprice : limits.price o.price = true) : (M.post side o).Admitted limits := by
  refine h.set (fun o' ho' => ?_)
  rcases mem_queueUp.mp ho' with rfl | ho'
  · exact ⟨hid, hprice⟩
  · exact h side o' ho'

omit [LinearOrder π] in
/-- What remains of a consumption are items of the sequence, up to their sizes. -/
theorem mem_rest {o' : OpenOrder ι π}
    (h : o' ∈ Greedy.rest OpenOrder.quantity OpenOrder.shrink os n) :
    ∃ o ∈ os, o'.id = o.id ∧ o'.price = o.price := by
  induction os generalizing n with
  | nil => exact absurd h List.not_mem_nil
  | cons m os ih =>
      unfold Greedy.rest at h
      split at h
      · rcases List.mem_cons.mp h with rfl | h
        · exact ⟨m, List.mem_cons_self, rfl, rfl⟩
        · exact ⟨o', List.mem_cons_of_mem m h, rfl, rfl⟩
      · obtain ⟨o, ho, hsame⟩ := ih h
        exact ⟨o, List.mem_cons_of_mem m ho, hsame⟩

theorem Admitted.take (h : M.Admitted limits) : (M.take side limit n).Admitted limits := by
  refine h.set (fun o' ho' => ?_)
  rcases List.mem_append.mp ho' with ho' | ho'
  · obtain ⟨o, ho, hid, hprice⟩ := mem_rest ho'
    rw [hid, hprice]
    exact h _ o (List.mem_of_mem_filter ho)
  · exact h _ o' (List.mem_of_mem_filter ho')

omit [LinearOrder π] in
theorem Admitted.withdraw [DecidableEq ι] (h : M.Admitted limits) :
    (M.withdraw id).Admitted limits :=
  fun s o ho => h s o (List.mem_of_mem_filter ho)

/-! ## The parts of a request -/

section Parts

variable (ρ : Renaming limits limits')

theorem ahead_rename {p q : π} (hp : limits.price p = true) (hq : limits.price q = true) :
    Ahead side (ρ.price p) (ρ.price q) ↔ Ahead side p q := by
  cases side
  · exact ρ.price_lt_iff hq hp
  · exact ρ.price_lt_iff hp hq

theorem accepts_rename {p : π} (hlimit : ∀ l ∈ limit, limits.price l = true)
    (hp : limits.price p = true) :
    accepts side (limit.map ρ.price) (ρ.price p) = accepts side limit p := by
  cases limit with
  | none => rfl
  | some l =>
      have hl := hlimit l rfl
      cases side
      · exact decide_eq_decide.mpr (ρ.price_le_iff hp hl)
      · exact decide_eq_decide.mpr (ρ.price_le_iff hl hp)

theorem filter_rename {f : OpenOrder ι' π' → Bool} {f' : OpenOrder ι π → Bool}
    (h : ∀ o ∈ os, f (ρ.order o) = f' o) :
    (os.map ρ.order).filter f = (os.filter f').map ρ.order := by
  rw [List.filter_map]
  exact congrArg _ (List.filter_congr h)

variable (h : M.Admitted limits)
include h

theorem makers_rename (hlimit : ∀ l ∈ limit, limits.price l = true) :
    (ρ.market M).makers side (limit.map ρ.price) = (M.makers side limit).map ρ.order :=
  filter_rename ρ (fun o ho => accepts_rename ρ hlimit (h _ o ho).2)

theorem take_rename (hlimit : ∀ l ∈ limit, limits.price l = true) :
    (ρ.market M).take side (limit.map ρ.price) n = ρ.market (M.take side limit n) := by
  have hshrink : ∀ (o : OpenOrder ι π) n, ρ.order (o.shrink n) = (ρ.order o).shrink n :=
    fun _ _ => rfl
  have hkept : ((M.orders side.opposite).map ρ.order).filter
      (fun o => !accepts side (limit.map ρ.price) o.price) =
        ((M.orders side.opposite).filter (fun o => !accepts side limit o.price)).map ρ.order :=
    filter_rename ρ (fun o ho => congrArg (!·) (accepts_rename ρ hlimit (h _ o ho).2))
  refine ext_side side ?_ ?_
  · simp only [Market.take, set_of_opposite, Renaming.market]
  · rw [Market.take, set_self, makers_rename ρ h hlimit, Greedy.rest_map hshrink]
    simp only [Renaming.market, Market.take, set_self, hkept, List.map_append]
    rfl

theorem post_rename (hprice : limits.price o.price = true) :
    (ρ.market M).post side (ρ.order o) = ρ.market (M.post side o) := by
  have hqueue : ∀ os : List (OpenOrder ι π), (∀ o ∈ os, limits.price o.price = true) →
      queueUp side (ρ.order o) (os.map ρ.order) = (queueUp side o os).map ρ.order := by
    intro os hos
    induction os with
    | nil => rfl
    | cons m os ih =>
        have hahead : Ahead side (ρ.order o).price (ρ.order m).price ↔ Ahead side o.price m.price :=
          ahead_rename ρ hprice (hos m List.mem_cons_self)
        have hrest := ih (fun o' ho' => hos o' (List.mem_cons_of_mem m ho'))
        simp only [List.map_cons, queueUp, hahead, hrest]
        split <;> rfl
  refine ext_side side ?_ ?_
  · simp only [Market.post, set_self, Renaming.market]
    exact hqueue _ (fun o' ho' => (h side o' ho').2)
  · simp only [Market.post, set_opposite, Renaming.market]

variable [DecidableEq ι] [DecidableEq ι']

theorem holds_rename (hid : limits.id id = true) : (ρ.market M).holds (ρ.id id) = M.holds id := by
  have hany : ∀ side, ((M.orders side).map ρ.order).any (fun o => decide (o.id = ρ.id id)) =
      (M.orders side).any (fun o => decide (o.id = id)) := by
    intro side
    rw [List.any_map, Bool.eq_iff_iff, List.any_eq_true, List.any_eq_true]
    refine exists_congr (fun o => and_congr_right (fun ho => ?_))
    rw [Function.comp_apply, decide_eq_true_iff, decide_eq_true_iff]
    exact ⟨ρ.id_inj _ _ (h side o ho).1 hid, congrArg ρ.id⟩
  rw [holds, holds]
  exact congrArg₂ _ (hany .Buy) (hany .Sell)

theorem withdraw_rename (hid : limits.id id = true) :
    (ρ.market M).withdraw (ρ.id id) = ρ.market (M.withdraw id) := by
  refine Market.ext (funext (fun side => filter_rename ρ (fun o ho => ?_)))
  refine decide_eq_decide.mpr (not_congr ?_)
  exact ⟨ρ.id_inj _ _ (h side o ho).1 hid, congrArg ρ.id⟩

end Parts

/-! ## Requests -/

section Requests

variable (ρ : Renaming limits limits')

theorem size_rename (M : Market ι π) : (ρ.market M).size = M.size := by
  simp [Market.size, Renaming.market]

variable (h : M.Admitted limits)
include h

theorem execute_admitted (hid : limits.id id = true)
    (hlimit : ∀ l ∈ limit, limits.price l = true) :
    (M.execute limits id side limit n).2.Admitted limits := by
  unfold execute
  cases limit with
  | none => exact h.take
  | some price =>
      simp only
      split
      · exact h.take
      · split
        · exact h.take.post hid (hlimit price rfl)
        · exact h.take

theorem execute_rename (hlimit : ∀ l ∈ limit, limits.price l = true) :
    (ρ.market M).execute limits' (ρ.id id) side (limit.map ρ.price) n =
      Prod.map ρ.answer ρ.market (M.execute limits id side limit n) := by
  have hmakers : (ρ.market M).makers side (limit.map ρ.price) = (M.makers side limit).map ρ.order :=
    makers_rename ρ h hlimit
  have htotal : Greedy.total OpenOrder.quantity ((M.makers side limit).map ρ.order) =
      Greedy.total OpenOrder.quantity (M.makers side limit) := Greedy.total_map _
  have hdeals : (Greedy.fills OpenOrder.quantity ((M.makers side limit).map ρ.order) n).map
      (OpenOrder.deal (ρ.id id)) = ((Greedy.fills OpenOrder.quantity (M.makers side limit) n).map
        (OpenOrder.deal id)).map ρ.deal := by
    rw [Greedy.fills_map, List.map_map, List.map_map]
    rfl
  unfold execute
  simp only [hmakers, take_rename ρ h hlimit, htotal, hdeals, size_rename ρ, ρ.room]
  cases limit with
  | none => rfl
  | some price =>
      simp only [Option.map_some]
      split
      · rfl
      · split
        · refine Prod.ext rfl ?_
          exact post_rename (o := ⟨id, price, _⟩) ρ h.take (hlimit price rfl)
        · rfl

variable [DecidableEq ι] [DecidableEq ι']

omit [DecidableEq ι'] in
theorem order_admitted : (M.order limits id side limit n).2.Admitted limits := by
  unfold order
  split_ifs with hzero hid hholds hprice hempty
  · exact h
  · exact h
  · exact h
  · exact h
  · refine execute_admitted h hid (fun l hl => ?_)
    obtain rfl : limit = some l := hl
    simpa using hprice
  · exact h

theorem order_rename : (ρ.market M).order limits' (ρ.id id) side (limit.map ρ.price) n =
    Prod.map ρ.answer ρ.market (M.order limits id side limit n) := by
  have hprice : (limit.map ρ.price).any (fun p => !limits'.price p) =
      limit.any (fun p => !limits.price p) := by
    cases limit with
    | none => rfl
    | some p => simp [ρ.limits_price]
  have hempty : limit.map ρ.price = none ∧ (ρ.market M).orders side.opposite = [] ↔
      limit = none ∧ M.orders side.opposite = [] := by
    simp [Renaming.market]
  unfold order
  simp only [ρ.limits_id, hprice, hempty]
  by_cases hid : limits.id id = true
  · rw [holds_rename ρ h hid]
    split_ifs with hzero hholds hlimit hmarket
    · rfl
    · rfl
    · rfl
    · rfl
    · refine execute_rename ρ h (fun l hl => ?_)
      obtain rfl : limit = some l := hl
      simpa using hlimit
  · rw [if_pos hid, if_pos hid]
    split <;> rfl

omit [LinearOrder π] in
theorem cancel_admitted : (M.cancel limits id).2.Admitted limits := by
  unfold cancel
  split_ifs
  · exact h.withdraw
  · exact h
  · exact h

theorem cancel_rename : (ρ.market M).cancel limits' (ρ.id id) =
    Prod.map ρ.answer ρ.market (M.cancel limits id) := by
  unfold cancel
  rw [ρ.limits_id]
  by_cases hid : limits.id id = true
  · rw [if_neg (not_not.mpr hid), if_neg (not_not.mpr hid), holds_rename ρ h hid]
    split
    · rfl
    · exact Prod.ext rfl (withdraw_rename ρ h hid)
  · rw [if_pos hid, if_pos hid]
    rfl

theorem step_admitted (request : Request ι π) : (M.step limits request).2.Admitted limits := by
  cases request with
  | order id side limit quantity => exact order_admitted h
  | cancel id => exact cancel_admitted h

theorem step_rename (request : Request ι π) :
    (ρ.market M).step limits' (ρ.request request) =
      Prod.map ρ.answer ρ.market (M.step limits request) := by
  cases request with
  | order id side limit quantity => exact order_rename ρ h
  | cancel id => exact cancel_rename ρ h

/-- Renamed requests get the renamed answers, from a renamed market and to a renamed one. -/
theorem run_rename (requests : List (Request ι π)) :
    (ρ.market M).run limits' (requests.map ρ.request) =
      Prod.map (List.map ρ.answer) ρ.market (M.run limits requests) := by
  induction requests generalizing M with
  | nil => rfl
  | cons request requests ih =>
      have hrest := ih (step_admitted h request)
      simp only [run, runs, List.map_cons] at hrest ⊢
      rw [step_rename ρ h, Prod.map_fst, Prod.map_snd, hrest]
      rfl

end Requests

omit [LinearOrder π] in
theorem empty_admitted (limits : Limits ι π) : (empty : Market ι π).Admitted limits :=
  fun _ _ ho => absurd ho List.not_mem_nil

end Market

end Hft
