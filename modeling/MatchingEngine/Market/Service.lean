import MatchingEngine.Market.Liquidity

/-!
# The order of service

The lists of a market are kept in the order in which they are served, whatever is asked of
it, and its sides never meet.
-/

namespace Hft

open Machine

namespace Market

variable {ι π : Type} [DecidableEq ι] [LinearOrder π] {limits : Limits ι π} {M N : Market ι π}
variable {side : Side} {id : ι} {n : Nat} {limit : Option π} {o : OpenOrder ι π}
variable {os : List (OpenOrder ι π)}

/-- No order is empty, and none is served before one with a better price. -/
structure InTurn (M : Market ι π) : Prop where
  quantity_pos : ∀ side, ∀ o ∈ M.orders side, 0 < o.quantity
  served : ∀ side, (M.orders side).Pairwise (fun o o' => ¬Ahead side o'.price o.price)

omit [DecidableEq ι] in
theorem Ahead.of_not_ahead {p q r : π} (hpq : Ahead side p q) (hqr : ¬Ahead side r q) :
    Ahead side p r := by
  cases side
  · exact lt_of_le_of_lt (not_lt.mp hqr) hpq
  · exact lt_of_lt_of_le hpq (not_lt.mp hqr)

omit [DecidableEq ι] in
theorem Ahead.asymm {p q : π} (hpq : Ahead side p q) : ¬Ahead side q p := by
  cases side
  · exact lt_asymm hpq
  · exact lt_asymm hpq

omit [DecidableEq ι] in
theorem length_queueUp : (queueUp side o os).length = os.length + 1 := by
  induction os with
  | nil => rfl
  | cons m os ih =>
      unfold queueUp
      split
      · rfl
      · rw [List.length_cons, ih, List.length_cons]

omit [DecidableEq ι] in
theorem post_size : (M.post side o).size = M.size + 1 := by
  rw [size_eq_side side, size_eq_side side, Market.post, set_self, set_opposite, length_queueUp]
  omega

theorem post_holds_of_ne (h : id ≠ o.id) : (M.post side o).holds id = M.holds id := by
  rw [Bool.eq_iff_iff, holds_eq_true_iff, holds_eq_true_iff]
  refine exists_congr (fun s => ?_)
  by_cases hs : s = side
  · subst hs
    rw [Market.post, set_self]
    constructor
    · rintro ⟨o', ho', hid⟩
      rcases mem_queueUp.mp ho' with rfl | ho'
      · exact absurd hid.symm h
      · exact ⟨o', ho', hid⟩
    · rintro ⟨o', ho', hid⟩
      exact ⟨o', mem_queueUp.mpr (Or.inr ho'), hid⟩
  · rw [Market.post, set_of_ne hs]

omit [DecidableEq ι] in
theorem queueUp_served (h : os.Pairwise (fun o o' => ¬Ahead side o'.price o.price)) :
    (queueUp side o os).Pairwise (fun o o' => ¬Ahead side o'.price o.price) := by
  induction h with
  | nil => exact List.pairwise_singleton _ _
  | @cons m os hm hos ih =>
      unfold queueUp
      split
      · rename_i hahead
        refine List.pairwise_cons.mpr ⟨fun o' ho' => ?_, List.pairwise_cons.mpr ⟨hm, hos⟩⟩
        rcases List.mem_cons.mp ho' with rfl | ho'
        · exact hahead.asymm
        · exact (hahead.of_not_ahead (hm o' ho')).asymm
      · rename_i hbehind
        refine List.pairwise_cons.mpr ⟨fun o' ho' => ?_, ih⟩
        rcases mem_queueUp.mp ho' with rfl | ho'
        · exact hbehind
        · exact hm o' ho'

omit [DecidableEq ι] in
theorem rest_served (h : os.Pairwise (fun o o' => ¬Ahead side o'.price o.price)) :
    (Greedy.rest OpenOrder.quantity OpenOrder.shrink os n).Pairwise
      (fun o o' => ¬Ahead side o'.price o.price) := by
  induction h generalizing n with
  | nil => exact List.Pairwise.nil
  | cons hm hos ih =>
      unfold Greedy.rest
      split
      · exact List.pairwise_cons.mpr ⟨hm, hos⟩
      · exact ih

omit [LinearOrder π] [DecidableEq ι] in
theorem rest_quantity_pos (pos : ∀ o ∈ os, 0 < o.quantity) :
    ∀ o ∈ Greedy.rest OpenOrder.quantity OpenOrder.shrink os n, 0 < o.quantity := by
  induction os generalizing n with
  | nil => exact fun o ho => absurd ho List.not_mem_nil
  | cons m os ih =>
      have hrest : ∀ o ∈ os, 0 < o.quantity := fun o ho => pos o (List.mem_cons_of_mem m ho)
      intro o ho
      unfold Greedy.rest at ho
      split at ho
      · rename_i hlt
        rcases List.mem_cons.mp ho with rfl | ho
        · exact Nat.sub_pos_of_lt hlt
        · exact hrest o ho
      · exact ih hrest o ho

omit [DecidableEq ι] in
theorem InTurn.set (h : M.InTurn) (pos : ∀ o ∈ os, 0 < o.quantity)
    (served : os.Pairwise (fun o o' => ¬Ahead side o'.price o.price)) :
    (M.set side os).InTurn := by
  refine ⟨fun s => ?_, fun s => ?_⟩
  · by_cases hs : s = side
    · subst hs
      rw [set_self]
      exact pos
    · rw [set_of_ne hs]
      exact h.quantity_pos s
  · by_cases hs : s = side
    · subst hs
      rw [set_self]
      exact served
    · rw [set_of_ne hs]
      exact h.served s

omit [DecidableEq ι] in
theorem InTurn.post (h : M.InTurn) (pos : 0 < o.quantity) : (M.post side o).InTurn := by
  refine h.set (fun o' ho' => ?_) (queueUp_served (h.served side))
  rcases mem_queueUp.mp ho' with rfl | ho'
  · exact pos
  · exact h.quantity_pos side o' ho'

omit [DecidableEq ι] in
theorem not_ahead_of_accepts {p q : π} (hp : accepts side limit p = true)
    (hq : accepts side limit q = false) : ¬Ahead side.opposite q p := by
  cases limit with
  | none => cases hq
  | some l =>
      cases side
      · have hp : p ≤ l := of_decide_eq_true hp
        have hq : ¬q ≤ l := of_decide_eq_false hq
        exact fun hlt => hq (le_trans (le_of_lt hlt) hp)
      · have hp : l ≤ p := of_decide_eq_true hp
        have hq : ¬l ≤ q := of_decide_eq_false hq
        exact fun hlt => hq (le_trans hp (le_of_lt hlt))

omit [DecidableEq ι] in
theorem InTurn.take (h : M.InTurn) : (M.take side limit n).InTurn := by
  have hserved := h.served side.opposite
  have hpos := h.quantity_pos side.opposite
  refine h.set (fun o ho => ?_) (List.pairwise_append.mpr ⟨?_, ?_, fun o ho o' ho' => ?_⟩)
  · rcases List.mem_append.mp ho with ho | ho
    · exact rest_quantity_pos (fun o' ho' => hpos o' (List.mem_of_mem_filter ho')) o ho
    · exact hpos o (List.mem_of_mem_filter ho)
  · exact rest_served (hserved.sublist List.filter_sublist)
  · exact hserved.sublist List.filter_sublist
  · obtain ⟨maker, hmaker, -, hprice⟩ := mem_rest ho
    rw [hprice]
    refine not_ahead_of_accepts (List.mem_filter.mp hmaker).2 ?_
    exact (Bool.not_eq_true' _).mp (List.mem_filter.mp ho').2

theorem InTurn.withdraw (h : M.InTurn) : (M.withdraw id).InTurn where
  quantity_pos := fun s o ho => h.quantity_pos s o (List.mem_of_mem_filter ho)
  served := fun s => (h.served s).sublist List.filter_sublist

omit [DecidableEq ι] in
theorem InTurn.execute (h : M.InTurn) : (M.execute limits id side limit n).2.InTurn := by
  unfold Market.execute
  cases limit with
  | none => exact h.take
  | some price =>
      simp only
      split
      · exact h.take
      · rename_i hleft
        split
        · exact h.take.post (Nat.pos_of_ne_zero hleft)
        · exact h.take

theorem step_inTurn (h : M.InTurn) (request : Request ι π) :
    (M.step limits request).2.InTurn := by
  cases request with
  | order id side limit n =>
      change (M.order limits id side limit n).2.InTurn
      rcases order_cases M limits id side limit n with ⟨reason, -, -, he⟩ | ⟨-, -, -, -, -, he⟩
      · rw [he]
        exact h
      · rw [he]
        exact h.execute
  | cancel id =>
      change (M.cancel limits id).2.InTurn
      rcases cancel_cases M limits id with ⟨reason, -, -, he⟩ | ⟨-, -, he⟩
      · rw [he]
        exact h
      · rw [he]
        exact h.withdraw

omit [LinearOrder π] [DecidableEq ι] in
variable (ι π) in
theorem empty_inTurn [LinearOrder π] : (empty : Market ι π).InTurn :=
  ⟨fun _ _ ho => absurd ho List.not_mem_nil, fun _ => List.Pairwise.nil⟩

/-! ## The sides do not meet -/

/-- Every bid is below every ask. -/
def Uncrossed (M : Market ι π) : Prop :=
  ∀ bid ∈ M.orders .Buy, ∀ ask ∈ M.orders .Sell, bid.price < ask.price

omit [DecidableEq ι] in
theorem uncrossed_iff (side : Side) : M.Uncrossed ↔
    ∀ o ∈ M.orders side, ∀ o' ∈ M.orders side.opposite,
      accepts side (some o.price) o'.price = false := by
  cases side
  · exact forall₄_congr (fun _ _ _ _ => not_le.symm.trans decide_eq_false_iff_not.symm)
  · refine Iff.trans ?_ (forall₄_congr (fun _ _ _ _ => not_le.symm.trans
      decide_eq_false_iff_not.symm))
    exact ⟨fun h ask hask bid hbid => h bid hbid ask hask,
      fun h bid hbid ask hask => h ask hask bid hbid⟩

omit [DecidableEq ι] in
/-- Whoever has no new prices meets nobody new. -/
theorem Uncrossed.mono (h : M.Uncrossed)
    (prices : ∀ side, ∀ o ∈ N.orders side, ∃ o' ∈ M.orders side, o'.price = o.price) :
    N.Uncrossed := by
  intro bid hbid ask hask
  obtain ⟨bid', hbid', hbidPrice⟩ := prices .Buy bid hbid
  obtain ⟨ask', hask', haskPrice⟩ := prices .Sell ask hask
  rw [← hbidPrice, ← haskPrice]
  exact h bid' hbid' ask' hask'

omit [DecidableEq ι] in
theorem take_prices (side' : Side) : ∀ o ∈ (M.take side limit n).orders side',
    ∃ o' ∈ M.orders side', o'.price = o.price := by
  intro o ho
  rcases side.eq_or_eq_opposite side' with rfl | rfl
  · rw [take, set_of_opposite] at ho
    exact ⟨o, ho, rfl⟩
  · rw [take, set_self] at ho
    rcases List.mem_append.mp ho with ho | ho
    · obtain ⟨o', ho', -, hprice⟩ := mem_rest ho
      exact ⟨o', List.mem_of_mem_filter ho', hprice.symm⟩
    · exact ⟨o, List.mem_of_mem_filter ho, rfl⟩

omit [DecidableEq ι] in
theorem take_of_nobody (h : M.makers side limit = []) : M.take side limit n = M := by
  refine ext_side side ?_ ?_
  · rw [take, set_of_opposite]
  · rw [take, set_self, h]
    refine List.filter_eq_self.mpr (fun o ho => ?_)
    have hnot := List.filter_eq_nil_iff.mp h o ho
    exact (Bool.not_eq_true' _).mpr (Bool.eq_false_of_not_eq_true hnot)

omit [DecidableEq ι] in
/-- A taker that is left with something has been through all who agree to its price. -/
theorem take_left (h : M.InTurn)
    (hleft : n - Greedy.total OpenOrder.quantity (M.makers side limit) ≠ 0) :
    ∀ o' ∈ (M.take side limit n).orders side.opposite, accepts side limit o'.price = false := by
  have hpos : ∀ o ∈ M.makers side limit, 0 < o.quantity :=
    fun o ho => h.quantity_pos _ o (List.mem_of_mem_filter ho)
  have hrest : Greedy.rest OpenOrder.quantity OpenOrder.shrink (M.makers side limit) n = [] :=
    (Greedy.rest_eq_nil_iff hpos).mpr (by omega)
  intro o' ho'
  rw [take, set_self, hrest, List.nil_append] at ho'
  exact (Bool.not_eq_true' _).mp (List.mem_filter.mp ho').2

omit [DecidableEq ι] in
theorem Uncrossed.post (h : M.Uncrossed)
    (apart : ∀ o' ∈ M.orders side.opposite, accepts side (some o.price) o'.price = false) :
    (M.post side o).Uncrossed := by
  rw [uncrossed_iff side] at h ⊢
  intro o₁ ho₁ o' ho'
  rw [Market.post, set_opposite] at ho'
  rw [Market.post, set_self] at ho₁
  rcases mem_queueUp.mp ho₁ with rfl | ho₁
  · exact apart o' ho'
  · exact h o₁ ho₁ o' ho'

omit [DecidableEq ι] in
theorem Uncrossed.execute (hM : M.InTurn) (h : M.Uncrossed) :
    (M.execute limits id side limit n).2.Uncrossed := by
  have htaken : (M.take side limit n).Uncrossed := h.mono (fun side' => take_prices side')
  unfold Market.execute
  cases limit with
  | none => exact htaken
  | some price =>
      simp only
      split
      · exact htaken
      · rename_i hleft
        split
        · exact htaken.post (take_left hM hleft)
        · exact htaken

theorem step_uncrossed (hM : M.InTurn) (h : M.Uncrossed) (request : Request ι π) :
    (M.step limits request).2.Uncrossed := by
  cases request with
  | order id side limit n =>
      change (M.order limits id side limit n).2.Uncrossed
      rcases order_cases M limits id side limit n with ⟨reason, -, -, he⟩ | ⟨-, -, -, -, -, he⟩
      · rw [he]
        exact h
      · rw [he]
        exact h.execute hM
  | cancel id =>
      change (M.cancel limits id).2.Uncrossed
      rcases cancel_cases M limits id with ⟨reason, -, -, he⟩ | ⟨-, -, he⟩
      · rw [he]
        exact h
      · rw [he]
        exact h.mono (fun _ o ho => ⟨o, List.mem_of_mem_filter ho, rfl⟩)

omit [DecidableEq ι] in
theorem empty_uncrossed : (empty : Market ι π).Uncrossed :=
  fun _ hbid => absurd hbid List.not_mem_nil

end Market

end Hft
