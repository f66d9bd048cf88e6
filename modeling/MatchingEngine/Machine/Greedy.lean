import Mathlib.Algebra.Order.BigOperators.Group.List
import Mathlib.Algebra.Order.Ring.Nat
import Mathlib.Tactic.Common

/-!
# Greedy consumption of a sequence

A demand `n` is met from a sequence of items in order: each item gives what it
holds, the last one possibly only a part, until the demand is met or nothing is
left. `fills` is what each item gives, `consumed` the items used up, and `rest`
what remains of the sequence.

Consuming two sequences one after the other is consuming their concatenation,
so a nest of loops over groups of items is one greedy pass over all of them.
-/

namespace Machine.Greedy

variable {α β : Type} (size : α → Nat) (shrink : α → Nat → α)

/-- All that the items hold together. -/
def total (as : List α) : Nat := (as.map size).sum

/-- What each item gives, in order. -/
def fills : List α → Nat → List (α × Nat)
  | [], _ => []
  | a :: as, n => if n = 0 then [] else (a, min (size a) n) :: fills as (n - size a)

/-- The items that are used up. -/
def consumed : List α → Nat → List α
  | [], _ => []
  | a :: as, n => if n < size a then [] else a :: consumed as (n - size a)

/-- What remains; `shrink` takes a part from an item. -/
def rest : List α → Nat → List α
  | [], _ => []
  | a :: as, n => if n < size a then shrink a n :: as else rest as (n - size a)

variable {size shrink} {as bs : List α} {a : α} {n : Nat}

@[simp] theorem total_nil : total size [] = 0 := rfl

@[simp] theorem total_cons : total size (a :: as) = size a + total size as := rfl

@[simp] theorem total_append : total size (as ++ bs) = total size as + total size bs := by
  simp [total]

theorem total_perm (h : as.Perm bs) : total size as = total size bs := (h.map size).sum_eq

theorem total_map {f : β → α} (bs : List β) :
    total size (bs.map f) = total (fun b => size (f b)) bs := by
  simp [total, Function.comp_def]

@[simp] theorem fills_zero (as : List α) : fills size as 0 = [] := by
  cases as <;> rfl

theorem fills_map {f : β → α} (bs : List β) (n : Nat) :
    fills size (bs.map f) n = (fills (fun b => size (f b)) bs n).map (Prod.map f id) := by
  induction bs generalizing n with
  | nil => rfl
  | cons b bs ih =>
      by_cases hn : n = 0
      · simp [hn]
      · simp [fills, hn, ih]

/-- One pass over a concatenation is two passes in a row. -/
theorem fills_append (as bs : List α) (n : Nat) :
    fills size (as ++ bs) n = fills size as n ++ fills size bs (n - total size as) := by
  induction as generalizing n with
  | nil => simp [fills]
  | cons a as ih =>
      by_cases hn : n = 0
      · simp [hn]
      · simp [fills, hn, ih, Nat.sub_sub]

theorem sum_fills (as : List α) (n : Nat) :
    ((fills size as n).map Prod.snd).sum = min n (total size as) := by
  induction as generalizing n with
  | nil => simp [fills]
  | cons a as ih =>
      by_cases hn : n = 0
      · simp [hn]
      · simp only [fills, hn, if_false, List.map_cons, List.sum_cons, ih, total_cons]
        omega

theorem mem_of_mem_fills {f : α × Nat} (hf : f ∈ fills size as n) :
    f.1 ∈ as ∧ f.2 ≤ size f.1 := by
  induction as generalizing n with
  | nil => simp [fills] at hf
  | cons a as ih =>
      by_cases hn : n = 0
      · simp [hn] at hf
      · simp only [fills, hn, if_false, List.mem_cons] at hf
        rcases hf with rfl | hf
        · exact ⟨List.mem_cons_self, Nat.min_le_left _ _⟩
        · exact ⟨List.mem_cons_of_mem a (ih hf).1, (ih hf).2⟩

/-- Every item gives at most once, in order. -/
theorem fills_sublist (as : List α) (n : Nat) : ((fills size as n).map Prod.fst).Sublist as := by
  induction as generalizing n with
  | nil => exact List.Sublist.refl _
  | cons a as ih =>
      by_cases hn : n = 0
      · simp [hn]
      · simp only [fills, hn, if_false, List.map_cons]
        exact (ih _).cons_cons a

theorem mem_of_mem_consumed (ha : a ∈ consumed size as n) : a ∈ as := by
  induction as generalizing n with
  | nil => exact ha
  | cons b as ih =>
      unfold consumed at ha
      split at ha
      · exact absurd ha List.not_mem_nil
      · rcases List.mem_cons.mp ha with rfl | ha
        · exact List.mem_cons_self
        · exact List.mem_cons_of_mem b (ih ha)

/-- The first item is the first to be used up. -/
theorem consumed_head (ha : a ∈ (consumed size as n).head?) : ∃ rest, as = a :: rest := by
  cases as with
  | nil => cases ha
  | cons b as =>
      unfold consumed at ha
      split at ha
      · cases ha
      · cases ha
        exact ⟨as, rfl⟩

/-! ## Sequences of non-empty items -/

section Positive

variable (pos : ∀ a ∈ as, 0 < size a)
include pos

theorem total_eq_zero_iff : total size as = 0 ↔ as = [] := by
  cases as with
  | nil => simp
  | cons a as =>
      have := pos a List.mem_cons_self
      simp only [total_cons, reduceCtorEq, iff_false]
      omega

theorem fills_pos {f : α × Nat} (hf : f ∈ fills size as n) : 0 < f.2 := by
  induction as generalizing n with
  | nil => simp [fills] at hf
  | cons a as ih =>
      by_cases hn : n = 0
      · simp [hn] at hf
      · simp only [fills, hn, if_false, List.mem_cons] at hf
        rcases hf with rfl | hf
        · have := pos a List.mem_cons_self
          simp only
          omega
        · exact ih (fun b hb => pos b (List.mem_cons_of_mem a hb)) hf

/-- The demand covers everything: each item gives all it holds. -/
theorem fills_of_total_le (h : total size as ≤ n) :
    fills size as n = as.map (fun a => (a, size a)) := by
  induction as generalizing n with
  | nil => rfl
  | cons a as ih =>
      have ha := pos a List.mem_cons_self
      rw [total_cons] at h
      have hn : n ≠ 0 := by omega
      have hmin : min (size a) n = size a := by omega
      simp only [fills, hn, if_false, hmin, List.map_cons]
      rw [ih (fun b hb => pos b (List.mem_cons_of_mem a hb)) (by omega)]

theorem consumed_of_total_le (h : total size as ≤ n) : consumed size as n = as := by
  induction as generalizing n with
  | nil => rfl
  | cons a as ih =>
      rw [total_cons] at h
      have hn : ¬n < size a := by omega
      simp only [consumed, hn, if_false]
      rw [ih (fun b hb => pos b (List.mem_cons_of_mem a hb)) (by omega)]

/-- Something remains exactly if the demand does not cover everything. -/
theorem rest_eq_nil_iff : rest size shrink as n = [] ↔ total size as ≤ n := by
  induction as generalizing n with
  | nil => simp [rest]
  | cons a as ih =>
      have ha := pos a List.mem_cons_self
      rw [total_cons]
      by_cases hn : n < size a
      · simp only [rest, hn, if_true, reduceCtorEq, false_iff]
        omega
      · simp only [rest, hn, if_false]
        rw [ih (fun b hb => pos b (List.mem_cons_of_mem a hb))]
        omega

theorem rest_zero (hshrink : ∀ a, shrink a 0 = a) : rest size shrink as 0 = as := by
  cases as with
  | nil => rfl
  | cons a as =>
      have ha := pos a List.mem_cons_self
      simp [rest, ha, hshrink]

theorem consumed_zero : consumed size as 0 = [] := by
  cases as with
  | nil => rfl
  | cons a as =>
      have ha := pos a List.mem_cons_self
      simp [consumed, ha]

end Positive

theorem rest_append (hshrink : ∀ a, shrink a 0 = a) (pos : ∀ b ∈ bs, 0 < size b)
    (as : List α) (n : Nat) :
    rest size shrink (as ++ bs) n =
      rest size shrink as n ++ rest size shrink bs (n - total size as) := by
  induction as generalizing n with
  | nil => simp [rest]
  | cons a as ih =>
      by_cases hn : n < size a
      · have hsub : n - (size a + total size as) = 0 := by omega
        simp only [List.cons_append, rest, hn, if_true, total_cons, hsub]
        rw [rest_zero pos hshrink]
      · simp only [List.cons_append, rest, hn, if_false, ih, total_cons, Nat.sub_sub]

theorem rest_map {f : β → α} {shrink' : β → Nat → β} (hf : ∀ b n, f (shrink' b n) = shrink (f b) n)
    (bs : List β) (n : Nat) :
    rest size shrink (bs.map f) n = (rest (fun b => size (f b)) shrink' bs n).map f := by
  induction bs generalizing n with
  | nil => rfl
  | cons b bs ih =>
      by_cases hn : n < size (f b)
      · simp [rest, hn, hf]
      · simp [rest, hn, ih]

theorem total_rest (hshrink : ∀ a n, n < size a → size (shrink a n) = size a - n)
    (as : List α) (n : Nat) :
    total size (rest size shrink as n) = total size as - n := by
  induction as generalizing n with
  | nil => simp [rest]
  | cons a as ih =>
      by_cases hn : n < size a
      · simp only [rest, hn, if_true, total_cons, hshrink a n hn]
        omega
      · simp only [rest, hn, if_false, total_cons, ih]
        omega

/-- What is given and what remains balance, also for a part of the items. -/
theorem total_filter_rest (keep : α → Bool) (hkeep : ∀ a n, keep (shrink a n) = keep a)
    (hshrink : ∀ a n, n < size a → size (shrink a n) = size a - n) (as : List α) (n : Nat) :
    total size ((rest size shrink as n).filter keep) +
      total Prod.snd ((fills size as n).filter (fun f => keep f.1)) =
        total size (as.filter keep) := by
  induction as generalizing n with
  | nil => rfl
  | cons a as ih =>
      by_cases hn : n < size a
      · have hsub : n - size a = 0 := by omega
        have hmin : min (size a) n = n := by omega
        have hsize := hshrink a n hn
        by_cases hzero : n = 0
        · subst hzero
          cases hk : keep a <;> simp [rest, fills, hn, hk, hkeep, hsize]
        · cases hk : keep a <;> simp [rest, fills, hn, hzero, hsub, hmin, hk, hkeep, hsize]
          omega
      · have hrest : rest size shrink (a :: as) n = rest size shrink as (n - size a) := if_neg hn
        rw [hrest]
        by_cases hzero : n = 0
        · subst hzero
          have hsize : size a = 0 := by omega
          have := ih 0
          rw [fills_zero] at this ⊢
          cases hk : keep a <;> simpa [hk, hsize] using this
        · have hmin : min (size a) n = size a := by omega
          have := ih (n - size a)
          cases hk : keep a
          · simpa [fills, hzero, hk] using this
          · simp only [fills, hzero, if_false, List.filter_cons, hk, if_true, total_cons, hmin]
            omega

/-- The sequence splits into what is used up and what remains, of which at most
the first item has given a part. -/
theorem consumed_rest (size : α → Nat) (shrink : α → Nat → α) (as : List α) (n : Nat) :
    (as = consumed size as n ∧ rest size shrink as n = []) ∨
    ∃ a tail m, as = consumed size as n ++ a :: tail ∧
      rest size shrink as n = shrink a m :: tail ∧ m < size a ∧
      n = total size (consumed size as n) + m := by
  induction as generalizing n with
  | nil => exact Or.inl ⟨rfl, rfl⟩
  | cons a as ih =>
      by_cases hn : n < size a
      · refine Or.inr ⟨a, as, n, ?_⟩
        simp [consumed, rest, hn]
      · simp only [consumed, rest, hn, if_false]
        rcases ih (n - size a) with ⟨h, hrest⟩ | ⟨b, tail, m, h, hrest, hm, hsum⟩
        · exact Or.inl ⟨congrArg (a :: ·) h, hrest⟩
        · refine Or.inr ⟨b, tail, m, congrArg (a :: ·) h, hrest, hm, ?_⟩
          rw [total_cons]
          omega

/-- What does not depend on the size of an item survives the consumption. -/
theorem map_consumed_append_map_rest (size : α → Nat) {f : α → β}
    (hf : ∀ a n, f (shrink a n) = f a) (as : List α) (n : Nat) :
    (consumed size as n).map f ++ (rest size shrink as n).map f = as.map f := by
  rcases consumed_rest size shrink as n with
    ⟨h, hrest⟩ | ⟨a, tail, m, h, hrest, -, -⟩
  · rw [hrest, ← h, List.map_nil, List.append_nil]
  · conv_rhs => rw [h]
    simp [hrest, hf]

theorem length_fills_le (as : List α) (n : Nat) : (fills size as n).length ≤ as.length := by
  have hlength : ((fills size as n).map Prod.fst).length ≤ as.length :=
    (fills_sublist as n).length_le
  rwa [List.length_map] at hlength

theorem length_rest_le (as : List α) (n : Nat) : (rest size shrink as n).length ≤ as.length := by
  induction as generalizing n with
  | nil => exact Nat.le_refl 0
  | cons a as ih =>
      unfold rest
      split
      · exact Nat.le_refl _
      · exact Nat.le_succ_of_le (ih _)

/-- Of the items that give something all but the last are used up. -/
theorem length_fills_add_rest (as : List α) (n : Nat) :
    (fills size as n).length + (rest size shrink as n).length ≤ as.length + 1 := by
  induction as generalizing n with
  | nil => exact Nat.zero_le _
  | cons a as ih =>
      by_cases hn : n = 0
      · subst hn
        rw [fills_zero, List.length_nil, Nat.zero_add]
        exact Nat.le_succ_of_le (length_rest_le _ 0)
      · have hrest := ih (n - size a)
        unfold fills rest
        rw [if_neg hn]
        split
        · rename_i hlt
          have hsub : n - size a = 0 := by omega
          rw [hsub, fills_zero]
          simp only [List.length_cons, List.length_nil]
          omega
        · simp only [List.length_cons]
          omega

/-! ## Items that give nothing -/

section Keep

variable {keep : α → Bool}

theorem giving_cons (hn : n ≠ 0) (giving : ∀ f ∈ fills size (a :: as) n, keep f.1 = true) :
    keep a = true ∧ ∀ f ∈ fills size as (n - size a), keep f.1 = true := by
  have hfills : fills size (a :: as) n = (a, min (size a) n) :: fills size as (n - size a) :=
    if_neg hn
  rw [hfills] at giving
  exact ⟨giving _ List.mem_cons_self, fun f hf => giving f (List.mem_cons_of_mem _ hf)⟩

variable (giving : ∀ f ∈ fills size as n, keep f.1 = true)
include giving

/-- Without items that give nothing the others give the same. -/
theorem fills_filter : fills size (as.filter keep) n = fills size as n := by
  induction as generalizing n with
  | nil => rfl
  | cons a as ih =>
      by_cases hn : n = 0
      · simp [hn]
      · obtain ⟨ha, hrest⟩ := giving_cons hn giving
        rw [List.filter_cons_of_pos ha, fills, fills, if_neg hn, if_neg hn, ih hrest]

theorem sub_total_filter : n - total size (as.filter keep) = n - total size as := by
  induction as generalizing n with
  | nil => rfl
  | cons a as ih =>
      by_cases hn : n = 0
      · simp [hn]
      · obtain ⟨ha, hrest⟩ := giving_cons hn giving
        have hleft := ih hrest
        rw [List.filter_cons_of_pos ha, total_cons, total_cons]
        omega

theorem rest_filter (pos : ∀ a ∈ as, 0 < size a) (hshrink : ∀ a, shrink a 0 = a)
    (hkeep : ∀ a n, keep (shrink a n) = keep a) :
    rest size shrink (as.filter keep) n = (rest size shrink as n).filter keep := by
  induction as generalizing n with
  | nil => rfl
  | cons a as ih =>
      by_cases hn : n = 0
      · subst hn
        have pos' : ∀ b ∈ (a :: as).filter keep, 0 < size b :=
          fun b hb => pos b (List.mem_of_mem_filter hb)
        rw [rest_zero pos hshrink, rest_zero pos' hshrink]
      · obtain ⟨ha, hrest⟩ := giving_cons hn giving
        rw [List.filter_cons_of_pos ha, rest, rest]
        split
        · rw [List.filter_cons_of_pos ((hkeep a n).trans ha)]
        · exact ih hrest (fun b hb => pos b (List.mem_cons_of_mem a hb))

end Keep

end Machine.Greedy
