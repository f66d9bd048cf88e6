import MatchingEngine.Machine.Greedy

/-!
# Two demands in a row

Meeting a demand of `m` and then one of `n` leaves what one demand of `m + n`
leaves, and gives the same, except that the item at which the first demand stopped
may give twice. `coalesce` merges adjacent entries of one key; with it, the two
records of what was given agree.
-/

namespace Machine

section Coalesce

variable {κ : Type} [DecidableEq κ]

/-- Add up adjacent quantities of one key. -/
def coalesce : List (κ × Nat) → List (κ × Nat)
  | [] => []
  | (k, m) :: xs =>
      match coalesce xs with
      | [] => [(k, m)]
      | (k', n) :: ys => if k = k' then (k, m + n) :: ys else (k, m) :: (k', n) :: ys

variable {k : κ} {m n : Nat} {xs ys : List (κ × Nat)}

/-- An entry that no other of its key follows stands for itself. -/
theorem coalesce_cons_of_notMem (h : k ∉ (coalesce xs).map Prod.fst) :
    coalesce ((k, m) :: xs) = (k, m) :: coalesce xs := by
  rw [coalesce]
  cases hxs : coalesce xs with
  | nil => rfl
  | cons y ys =>
      rw [hxs, List.map_cons, List.mem_cons, not_or] at h
      exact if_neg h.1

theorem coalesce_cons_self (h : coalesce xs = (k, n) :: ys) :
    coalesce ((k, m) :: xs) = (k, m + n) :: ys := by
  rw [coalesce, h]
  exact if_pos rfl

theorem coalesce_of_nodup (h : (xs.map Prod.fst).Nodup) : coalesce xs = xs := by
  induction xs with
  | nil => rfl
  | cons x xs ih =>
      obtain ⟨hx, hxs⟩ := List.nodup_cons.mp h
      rw [coalesce_cons_of_notMem (by rwa [ih hxs]), ih hxs]

/-- What is recorded under one key in all. -/
def received (k : κ) (xs : List (κ × Nat)) : Nat :=
  Greedy.total Prod.snd (xs.filter (fun x => x.1 = k))

theorem received_cons (x : κ × Nat) :
    received k (x :: xs) = (if x.1 = k then x.2 else 0) + received k xs := by
  by_cases hx : x.1 = k <;> simp [received, hx]

/-- Merging moves nothing from one key to another. -/
theorem received_coalesce (k : κ) (xs : List (κ × Nat)) :
    received k (coalesce xs) = received k xs := by
  induction xs with
  | nil => rfl
  | cons x xs ih =>
      obtain ⟨k', m⟩ := x
      rw [received_cons, ← ih]
      cases hxs : coalesce xs with
      | nil => simp [coalesce, hxs, received_cons]
      | cons y ys =>
          obtain ⟨k'', n⟩ := y
          by_cases hk : k' = k''
          · subst hk
            rw [coalesce_cons_self hxs, received_cons, received_cons]
            by_cases hk : k' = k <;> simp [hk, Nat.add_assoc]
          · simp [coalesce, hxs, hk, received_cons]

end Coalesce

namespace Greedy

variable {α κ : Type} {m n : Nat} {size : α → Nat} {shrink : α → Nat → α} {key : α → κ}
variable {as : List α} {a : α}

theorem rest_rest (hshrink : ∀ a m n, shrink (shrink a m) n = shrink a (m + n))
    (hsize : ∀ a m, size (shrink a m) = size a - m) (as : List α) (m n : Nat) :
    rest size shrink (rest size shrink as m) n = rest size shrink as (m + n) := by
  induction as generalizing m with
  | nil => rfl
  | cons a as ih =>
      by_cases hm : m < size a
      · have hfirst : rest size shrink (a :: as) m = shrink a m :: as := if_pos hm
        have hleft : n - (size a - m) = m + n - size a := by omega
        rw [hfirst]
        by_cases hn : n < size a - m
        · have hsum : m + n < size a := by omega
          simp only [rest, hsize, hshrink, hn, hsum, if_true]
        · have hsum : ¬m + n < size a := by omega
          simp only [rest, hsize, hn, hsum, if_false, hleft]
      · have hsum : ¬m + n < size a := by omega
        have hleft : m - size a + n = m + n - size a := by omega
        simp only [rest, hm, if_false, hsum, ih, hleft]

/-- What each item gives, under its key. -/
def given (size : α → Nat) (key : α → κ) (as : List α) (n : Nat) : List (κ × Nat) :=
  (fills size as n).map (fun f => (key f.1, f.2))

theorem given_zero : given size key as 0 = [] := by
  rw [given, fills_zero, List.map_nil]

theorem given_cons (hn : n ≠ 0) : given size key (a :: as) n =
    (key a, min (size a) n) :: given size key as (n - size a) := by
  rw [given, fills, if_neg hn]
  rfl

theorem given_keys (as : List α) (n : Nat) :
    ((given size key as n).map Prod.fst).Sublist (as.map key) := by
  have hmap : (given size key as n).map Prod.fst = ((fills size as n).map Prod.fst).map key := by
    simp [given, Function.comp_def]
  rw [hmap]
  exact (fills_sublist as n).map key

variable [DecidableEq κ]

theorem coalesce_given (hkeys : (as.map key).Nodup) (n : Nat) :
    coalesce (given size key as n) = given size key as n :=
  coalesce_of_nodup (hkeys.sublist (given_keys as n))

/-- Two demands in a row are given what their sum is given. -/
theorem coalesce_given_append (hsize : ∀ a m, size (shrink a m) = size a - m)
    (hkey : ∀ a m, key (shrink a m) = key a) (hzero : ∀ a, shrink a 0 = a)
    (pos : ∀ a ∈ as, 0 < size a) (hkeys : (as.map key).Nodup) (m n : Nat) :
    coalesce (given size key as m ++ given size key (rest size shrink as m) n) =
      given size key as (m + n) := by
  induction as generalizing m with
  | nil => rfl
  | cons a as ih =>
      obtain ⟨ha, hkeys'⟩ := List.nodup_cons.mp hkeys
      have hnotMem : ∀ j, key a ∉ (given size key as j).map Prod.fst := fun j hj =>
        ha ((given_keys as j).subset hj)
      by_cases hm₀ : m = 0
      · rw [hm₀, given_zero, rest_zero pos hzero, List.nil_append, Nat.zero_add,
          coalesce_given hkeys]
      have hsum₀ : m + n ≠ 0 := by omega
      rw [given_cons hm₀, given_cons hsum₀]
      by_cases hm : m < size a
      · -- the first demand stops inside `a`
        have hrest : rest size shrink (a :: as) m = shrink a m :: as := if_pos hm
        rw [hrest, Nat.min_eq_right (Nat.le_of_lt hm), Nat.sub_eq_zero_of_le (Nat.le_of_lt hm),
          given_zero]
        by_cases hn₀ : n = 0
        · have hmin : min (size a) m = m := Nat.min_eq_right (Nat.le_of_lt hm)
          have hsub : m - size a = 0 := Nat.sub_eq_zero_of_le (Nat.le_of_lt hm)
          rw [hn₀, given_zero, Nat.add_zero, hmin, hsub, given_zero]
          rfl
        · have htail : coalesce (given size key (shrink a m :: as) n) =
              (key a, min (size a - m) n) :: given size key as (m + n - size a) := by
            have hsub : n - (size a - m) = m + n - size a := by omega
            rw [given_cons hn₀, hkey, hsize, hsub]
            rw [coalesce_cons_of_notMem, coalesce_given hkeys']
            rw [coalesce_given hkeys']
            exact hnotMem _
          have hmin : m + min (size a - m) n = min (size a) (m + n) := by omega
          rw [List.singleton_append, coalesce_cons_self htail, hmin]
      · -- `a` is used up by the first demand
        have hrest : rest size shrink (a :: as) m = rest size shrink as (m - size a) := if_neg hm
        have hsub : m - size a + n = m + n - size a := by omega
        have hmin : min (size a) m = min (size a) (m + n) := by omega
        have htail := ih (fun b hb => pos b (List.mem_cons_of_mem a hb)) hkeys' (m - size a)
        rw [hsub] at htail
        rw [hrest, List.cons_append, coalesce_cons_of_notMem, htail, hmin]
        rw [htail]
        exact hnotMem _

end Greedy

end Machine
