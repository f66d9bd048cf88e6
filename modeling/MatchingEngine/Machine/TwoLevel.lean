import MatchingEngine.Machine.Word
import Mathlib.Data.List.Induction
import Mathlib.Data.Set.Insert

/-!
# Two-level bitsets

A vector of words represents a set of positions, and a second vector, the
summary, represents the set of positions of its non-zero words. Both vectors
read as zero past their end, so a represented set has no member there and the
padding bits of the last word are clear.

The search rules follow the two tiers: the rest of the current word, the rest
of the current summary word, then the remaining summary words. Each tier either
yields the next member or pushes the search past everything it covers.
-/

namespace Machine

open Checked

/-- The word at an index, zero past the end. -/
def wordAt (ws : Array Word) (w : Nat) : Word := ws[w]?.getD 0

/-- Membership of a position in the set a vector of words represents. -/
def bitAt (ws : Array Word) (j : Nat) : Bool := (wordAt ws (j / 64)).getLsbD (j % 64)

variable {ws bitset summary : Array Word} {S : Set Nat} {word : Word} {b c i j w : Nat}

theorem wordAt_eq (h : ws[w]? = some word) : wordAt ws w = word := by
  simp only [wordAt, h, Option.getD_some]

theorem wordAt_of_size_le (h : ws.size ≤ w) : wordAt ws w = 0 := by
  rw [wordAt, Array.getElem?_eq_none h, Option.getD_none]

theorem getElem?_of_wordAt_ne_zero (h : wordAt ws w ≠ 0) : ws[w]? = some (wordAt ws w) := by
  unfold wordAt at h ⊢
  cases hw : ws[w]? with
  | none => simp [hw] at h
  | some word => rfl

theorem wordAt_setIfInBounds (hw : w < ws.size) :
    wordAt (ws.setIfInBounds w word) i = if i = w then word else wordAt ws i := by
  simp only [wordAt, Array.getElem?_setIfInBounds]
  by_cases h : i = w
  · simp [h, hw]
  · simp [h, Ne.symm h]

theorem bitAt_setIfInBounds (hw : w < ws.size) :
    bitAt (ws.setIfInBounds w word) j =
      if j / 64 = w then word.getLsbD (j % 64) else bitAt ws j := by
  simp only [bitAt, wordAt_setIfInBounds hw]
  split <;> rfl

theorem bitAt_index (hc : c < 64) : bitAt ws (w * 64 + c) = (wordAt ws w).getLsbD c := by
  have hdiv : (w * 64 + c) / 64 = w := by omega
  have hmod : (w * 64 + c) % 64 = c := by omega
  simp only [bitAt, hdiv, hmod]

theorem wordAt_ne_zero_of_bitAt (h : bitAt ws j = true) : wordAt ws (j / 64) ≠ 0 :=
  ne_zero_iff.mpr ⟨_, lt_of_getLsbD h, h⟩

/-- Counting word by word counts all positions. -/
theorem sum_countP_words (words : List Word) :
    (words.map (fun word => (List.range 64).countP (fun k => word.getLsbD k))).sum =
      (List.range (64 * words.length)).countP (bitAt words.toArray) := by
  induction words using List.reverseRecOn with
  | nil => rfl
  | append_singleton words word ih =>
      have hsplit : 64 * (words ++ [word]).length = 64 * words.length + 64 := by
        rw [List.length_append, List.length_singleton, Nat.mul_add]
      have hold : ∀ j < 64 * words.length,
          bitAt (words ++ [word]).toArray j = bitAt words.toArray j := by
        intro j hj
        have hlt : j / 64 < words.length := by omega
        simp only [bitAt, wordAt, List.getElem?_toArray, List.getElem?_append_left hlt]
      have hnew : ∀ k < 64,
          bitAt (words ++ [word]).toArray (64 * words.length + k) = word.getLsbD k := by
        intro k hk
        have hdiv : (64 * words.length + k) / 64 = words.length := by omega
        have hmod : (64 * words.length + k) % 64 = k := by omega
        simp [bitAt, wordAt, hdiv, hmod]
      rw [List.map_append, List.sum_append, ih, hsplit, List.range_add, List.countP_append,
        List.countP_map]
      refine congrArg₂ (· + ·) (List.countP_congr ?_) ?_
      · intro j hj
        rw [hold j (List.mem_range.mp hj)]
      · rw [List.map_singleton, List.sum_singleton]
        refine List.countP_congr ?_
        intro k hk
        rw [Function.comp_apply, hnew k (List.mem_range.mp hk)]

/-- The two vectors represent `S` and the non-zero words of its representation. -/
structure Represents (bitset summary : Array Word) (S : Set Nat) : Prop where
  member : ∀ j, bitAt bitset j = true ↔ j ∈ S
  nonzero : ∀ w, bitAt summary w = true ↔ wordAt bitset w ≠ 0

namespace Represents

theorem congr {T : Set Nat} (h : Represents bitset summary S) (hST : ∀ j, j ∈ S ↔ j ∈ T) :
    Represents bitset summary T :=
  ⟨fun j => (h.member j).trans (hST j), h.nonzero⟩

/-- Zero words represent the empty set. -/
theorem replicate (n m : Nat) :
    Represents (Array.replicate n 0) (Array.replicate m 0) ∅ := by
  have hword : ∀ k w : Nat, wordAt (Array.replicate k (0 : Word)) w = 0 := by
    intro k w
    rw [wordAt, Array.getElem?_replicate]
    split <;> rfl
  refine ⟨fun j => ?_, fun w => ?_⟩
  · rw [bitAt, hword]
    simp
  · rw [bitAt, hword, hword]
    simp

/-- A represented set determines the words that represent it. -/
theorem unique {bitset' summary' : Array Word} (h : Represents bitset summary S)
    (h' : Represents bitset' summary' S) (hsize : bitset.size = bitset'.size)
    (hsummary : summary.size = summary'.size) : bitset = bitset' ∧ summary = summary' := by
  have words : ∀ {xs ys : Array Word}, xs.size = ys.size →
      (∀ j, bitAt xs j = true ↔ bitAt ys j = true) → xs = ys := by
    intro xs ys hs hbits
    apply Array.ext hs
    intro i hi hi'
    apply BitVec.eq_of_getLsbD_eq
    intro k hk
    have hbit := hbits (i * 64 + k)
    rw [bitAt_index hk, bitAt_index hk, wordAt_eq (Array.getElem?_eq_getElem hi),
      wordAt_eq (Array.getElem?_eq_getElem hi')] at hbit
    exact Bool.eq_iff_iff.mpr hbit
  have hbitset : bitset = bitset' :=
    words hsize (fun j => (h.member j).trans (h'.member j).symm)
  refine ⟨hbitset, words hsummary (fun w => ?_)⟩
  rw [h.nonzero, h'.nonzero, hbitset]

theorem insert {sword : Word} (h : Represents bitset summary S)
    (hw : bitset[j / 64]? = some word) (hs : summary[j / 64 / 64]? = some sword) :
    Represents (bitset.setIfInBounds (j / 64) (word ||| bit (j % 64)))
      (summary.setIfInBounds (j / 64 / 64) (sword ||| bit (j / 64 % 64))) (insert j S) := by
  have hword := lt_size_of_getElem? hw
  have hsword := lt_size_of_getElem? hs
  constructor
  · intro i
    rw [bitAt_setIfInBounds hword, Set.mem_insert_iff, ← h.member i]
    by_cases hi : i / 64 = j / 64
    · rw [if_pos hi, bitAt, hi, wordAt_eq hw, BitVec.getLsbD_or, getLsbD_bit (by omega)]
      have : i % 64 = j % 64 ↔ i = j := by omega
      simp [this, or_comm]
    · have : i ≠ j := fun e => hi (by rw [e])
      simp [hi, this]
  · intro i
    have newWord : word ||| bit (j % 64) ≠ 0 := by
      refine ne_zero_iff.mpr ⟨j % 64, by omega, ?_⟩
      rw [BitVec.getLsbD_or, getLsbD_bit (by omega)]
      simp
    rw [bitAt_setIfInBounds hsword, wordAt_setIfInBounds hword]
    by_cases hij : i = j / 64
    · subst hij
      rw [if_pos rfl, if_pos rfl, BitVec.getLsbD_or, getLsbD_bit (by omega)]
      exact iff_of_true (by simp) newWord
    · rw [if_neg hij, ← h.nonzero i]
      by_cases hi : i / 64 = j / 64 / 64
      · rw [if_pos hi, bitAt, hi, wordAt_eq hs, BitVec.getLsbD_or, getLsbD_bit (by omega)]
        have : i % 64 ≠ j / 64 % 64 := by omega
        simp [this]
      · rw [if_neg hi]

theorem member_erase (h : Represents bitset summary S) (hw : bitset[j / 64]? = some word)
    (i : Nat) :
    bitAt (bitset.setIfInBounds (j / 64) (word &&& ~~~bit (j % 64))) i = true ↔ i ∈ S \ {j} := by
  rw [bitAt_setIfInBounds (lt_size_of_getElem? hw), Set.mem_sdiff, Set.mem_singleton_iff,
    ← h.member i]
  by_cases hi : i / 64 = j / 64
  · rw [if_pos hi, getLsbD_not_mask (by omega), getLsbD_bit (by omega), bitAt, hi, wordAt_eq hw]
    have : i % 64 = j % 64 ↔ i = j := by omega
    simp [this]
  · have : i ≠ j := fun e => hi (by rw [e])
    simp [hi, this]

/-- The word still has members: the summary keeps its bit. -/
theorem erase_nonzero (h : Represents bitset summary S) (hw : bitset[j / 64]? = some word)
    (hj : j ∈ S) (left : word &&& ~~~bit (j % 64) ≠ 0) :
    Represents (bitset.setIfInBounds (j / 64) (word &&& ~~~bit (j % 64))) summary (S \ {j}) := by
  refine ⟨h.member_erase hw, ?_⟩
  intro i
  rw [h.nonzero, wordAt_setIfInBounds (lt_size_of_getElem? hw)]
  by_cases hi : i = j / 64
  · rw [if_pos hi, hi]
    exact ⟨fun _ => left, fun _ => wordAt_ne_zero_of_bitAt ((h.member j).mpr hj)⟩
  · rw [if_neg hi]

/-- The word became zero: its summary bit is cleared as well. -/
theorem erase_zero {sword : Word} (h : Represents bitset summary S)
    (hw : bitset[j / 64]? = some word) (hs : summary[j / 64 / 64]? = some sword)
    (gone : word &&& ~~~bit (j % 64) = 0) :
    Represents (bitset.setIfInBounds (j / 64) (word &&& ~~~bit (j % 64)))
      (summary.setIfInBounds (j / 64 / 64) (sword &&& ~~~bit (j / 64 % 64))) (S \ {j}) := by
  refine ⟨h.member_erase hw, ?_⟩
  intro i
  rw [bitAt_setIfInBounds (lt_size_of_getElem? hs), wordAt_setIfInBounds (lt_size_of_getElem? hw)]
  by_cases hij : i = j / 64
  · rw [if_pos hij, if_pos (by rw [hij]), getLsbD_not_mask (by omega), getLsbD_bit (by omega), hij]
    simp [gone]
  · rw [if_neg hij, ← h.nonzero i]
    by_cases hi : i / 64 = j / 64 / 64
    · rw [if_pos hi, getLsbD_not_mask (by omega), getLsbD_bit (by omega), bitAt, hi, wordAt_eq hs]
      have : i % 64 ≠ j / 64 % 64 := by omega
      simp [this]
    · rw [if_neg hi]

/-- The summary vector and the set of non-zero words. -/
theorem summary_iff (h : Represents bitset summary S) (w : Nat) :
    bitAt summary w = true ↔ ∃ j ∈ S, j / 64 = w := by
  rw [h.nonzero, ne_zero_iff]
  constructor
  · rintro ⟨k, hk, hbit⟩
    rw [← bitAt_index hk, h.member] at hbit
    exact ⟨_, hbit, by omega⟩
  · rintro ⟨j, hj, rfl⟩
    exact ⟨j % 64, by omega, (h.member j).mpr hj⟩

end Represents

/-! ## Masks -/

/-- The members of a word at or above position `k`. -/
theorem getLsbD_and_not_sub_one {k : Nat} (hk : k < 64) :
    (word &&& ~~~(bit k - 1)).getLsbD j = true ↔ word.getLsbD j = true ∧ k ≤ j := by
  by_cases hj : j < 64
  · rw [getLsbD_not_mask hj, getLsbD_bit_sub_one hk]
    simp
  · have hword : ¬word.getLsbD j = true := fun h => hj (lt_of_getLsbD h)
    exact ⟨fun h => absurd (lt_of_getLsbD h) hj, fun h => absurd h.1 hword⟩

/-- The members of a word above position `k`. -/
theorem getLsbD_and_not_shift {k : Nat} (hk : k < 64) :
    (word &&& ~~~((bit k - 1) <<< 1 ||| 1)).getLsbD j = true ↔
      word.getLsbD j = true ∧ k < j := by
  by_cases hj : j < 64
  · rw [getLsbD_not_mask hj, getLsbD_bit_sub_one_shift hk hj]
    simp
  · have hword : ¬word.getLsbD j = true := fun h => hj (lt_of_getLsbD h)
    exact ⟨fun h => absurd (lt_of_getLsbD h) hj, fun h => absurd h.1 hword⟩

/-- The members of a word below position `k`. -/
theorem getLsbD_and_sub_one {k : Nat} (hk : k < 64) :
    (word &&& (bit k - 1)).getLsbD j = true ↔ word.getLsbD j = true ∧ j < k := by
  rw [BitVec.getLsbD_and, getLsbD_bit_sub_one hk]
  simp

/-! ## Upward search -/

/-- The least member of `S` at or above `b`. -/
def IsLeastFrom (S : Set Nat) (b i : Nat) : Prop :=
  i ∈ S ∧ b ≤ i ∧ ∀ j ∈ S, b ≤ j → i ≤ j

/-- The set of the set bits of a vector of words. -/
def bits (ws : Array Word) : Set Nat := {j | bitAt ws j = true}

theorem mem_bits : j ∈ bits ws ↔ bitAt ws j = true := Iff.rfl

/-- The rest of the current word: its lowest masked member is the next one. -/
theorem isLeastFrom_of_word (hw : ws[b / 64]? = some word)
    (low : IsLowest (word &&& ~~~(bit (b % 64) - 1)) c) :
    IsLeastFrom (bits ws) b (b / 64 * 64 + c) := by
  have hmod : b % 64 < 64 := by omega
  obtain ⟨hset, hmin⟩ := low
  obtain ⟨hbit, hge⟩ := (getLsbD_and_not_sub_one hmod).mp hset
  have hc := lt_of_getLsbD hbit
  refine ⟨?_, by omega, ?_⟩
  · rw [mem_bits, bitAt_index hc, wordAt_eq hw]
    exact hbit
  · intro j hj hbj
    by_cases hjb : j / 64 = b / 64
    · have hlow := hmin (j % 64) ((getLsbD_and_not_sub_one hmod).mpr ⟨?_, by omega⟩)
      · omega
      · rw [mem_bits, bitAt, hjb, wordAt_eq hw] at hj
        exact hj
    · omega

/-- Nothing in the rest of the current word: members from `b` on lie in later words. -/
theorem lt_of_word_eq_zero (hw : ws[b / 64]? = some word)
    (gone : word &&& ~~~(bit (b % 64) - 1) = 0) (hj : j ∈ bits ws) (hbj : b ≤ j) :
    b / 64 < j / 64 := by
  by_contra hle
  have hjb : j / 64 = b / 64 := by omega
  have hmod : j % 64 < 64 := by omega
  have hfalse := eq_zero_iff.mp gone (j % 64) hmod
  rw [mem_bits, bitAt, hjb, wordAt_eq hw] at hj
  rw [(getLsbD_and_not_sub_one (by omega)).mpr ⟨hj, by omega⟩] at hfalse
  cases hfalse

/-- The same two rules for a search strictly above `b`, with its own mask. -/
theorem isLeastFrom_of_word_above (hw : ws[b / 64]? = some word)
    (low : IsLowest (word &&& ~~~((bit (b % 64) - 1) <<< 1 ||| 1)) c) :
    IsLeastFrom (bits ws) (b + 1) (b / 64 * 64 + c) := by
  have hmod : b % 64 < 64 := by omega
  obtain ⟨hset, hmin⟩ := low
  obtain ⟨hbit, hgt⟩ := (getLsbD_and_not_shift hmod).mp hset
  have hc := lt_of_getLsbD hbit
  refine ⟨?_, by omega, ?_⟩
  · rw [mem_bits, bitAt_index hc, wordAt_eq hw]
    exact hbit
  · intro j hj hbj
    by_cases hjb : j / 64 = b / 64
    · have hlow := hmin (j % 64) ((getLsbD_and_not_shift hmod).mpr ⟨?_, by omega⟩)
      · omega
      · rw [mem_bits, bitAt, hjb, wordAt_eq hw] at hj
        exact hj
    · omega

theorem lt_of_word_above_eq_zero (hw : ws[b / 64]? = some word)
    (gone : word &&& ~~~((bit (b % 64) - 1) <<< 1 ||| 1) = 0) (hj : j ∈ bits ws) (hbj : b < j) :
    b / 64 < j / 64 := by
  by_contra hle
  have hjb : j / 64 = b / 64 := by omega
  have hmod : j % 64 < 64 := by omega
  have hfalse := eq_zero_iff.mp gone (j % 64) hmod
  rw [mem_bits, bitAt, hjb, wordAt_eq hw] at hj
  rw [(getLsbD_and_not_shift (by omega)).mpr ⟨hj, by omega⟩] at hfalse
  cases hfalse

/-- The first non-zero word at or above index `i`, among `count` words. -/
def firstNonzeroFrom (ws : Array Word) : (count i : Nat) → Checked (Option Nat)
  | 0, _ => .ok none
  | count + 1, i => do
      let word ← vecRead ws i
      if word ≠ 0 then return some i
      firstNonzeroFrom ws count (i + 1)

/-- The loop over the remaining words finds the first non-zero one or none at all. -/
theorem firstNonzeroFrom_spec (count : Nat) (h : i + count = ws.size ∨ count = 0 ∧ ws.size ≤ i) :
    (firstNonzeroFrom ws count i).Returns (fun found =>
      match found with
      | some w => i ≤ w ∧ wordAt ws w ≠ 0 ∧ ∀ w', i ≤ w' → w' < w → wordAt ws w' = 0
      | none => ∀ w', i ≤ w' → wordAt ws w' = 0) := by
  induction count generalizing i with
  | zero =>
      intro w' hw'
      have : ws[w']? = none := Array.getElem?_eq_none (by omega)
      simp [wordAt, this]
  | succ count ih =>
      have hi : i < ws.size := by omega
      have hword : ws[i]? = some ws[i] := Array.getElem?_eq_getElem hi
      simp only [firstNonzeroFrom, returns_bind, returns_vecRead]
      refine ⟨_, hword, ?_⟩
      by_cases hz : ws[i] = 0
      · simp only [hz, ne_eq, not_true_eq_false, if_false]
        have zeroAt : ∀ w', i ≤ w' → ¬i + 1 ≤ w' → wordAt ws w' = 0 := by
          intro w' hle hlt
          have : w' = i := by omega
          rw [this, wordAt_eq hword, hz]
        refine (ih (i := i + 1) (by omega)).mono ?_
        intro found hfound
        cases found with
        | none =>
            intro w' hw'
            by_cases hlt : i + 1 ≤ w'
            · exact hfound w' hlt
            · exact zeroAt w' hw' hlt
        | some w =>
            refine ⟨by have := hfound.1; omega, hfound.2.1, ?_⟩
            intro w' hw' hlt
            by_cases hle : i + 1 ≤ w'
            · exact hfound.2.2 w' hle hlt
            · exact zeroAt w' hw' hle
      · simp only [ne_eq, hz, not_false_eq_true, if_true, pure_eq_ok, returns_ok]
        refine ⟨Nat.le_refl i, by rw [wordAt_eq hword]; exact hz, ?_⟩
        intro w' hle hlt
        omega

/-- A later word found by the loop holds the next member. -/
theorem isLeastFrom_of_later_word (hb : b / 64 < w)
    (skip : ∀ j ∈ bits ws, b ≤ j → b / 64 < j / 64)
    (zero : ∀ w', b / 64 < w' → w' < w → wordAt ws w' = 0) (low : IsLowest (wordAt ws w) c) :
    IsLeastFrom (bits ws) b (w * 64 + c) := by
  have hc := lt_of_getLsbD low.1
  refine ⟨?_, by omega, ?_⟩
  · rw [mem_bits, bitAt_index hc]
    exact low.1
  · intro j hj hbj
    have hlater := skip j hj hbj
    have hnonzero := wordAt_ne_zero_of_bitAt hj
    have hw : w ≤ j / 64 := by
      by_contra hlt
      exact hnonzero (zero _ hlater (by omega))
    by_cases hjw : j / 64 = w
    · have := low.2 (j % 64) (by rw [mem_bits, bitAt, hjw] at hj; exact hj)
      omega
    · omega

namespace Represents

theorem bits_eq (h : Represents bitset summary S) : bits bitset = S :=
  Set.ext h.member

/-- Both tiers upwards: the lowest member of the next word the summary names. -/
theorem isLeastFrom_nextWord (h : Represents bitset summary S)
    (skip : ∀ j ∈ S, b ≤ j → b / 64 < j / 64)
    (next : IsLeastFrom (bits summary) (b / 64 + 1) w) (low : IsLowest (wordAt bitset w) c) :
    IsLeastFrom S b (w * 64 + c) := by
  rw [← h.bits_eq] at skip ⊢
  refine isLeastFrom_of_later_word next.2.1 skip ?_ low
  intro w' hlt hw'
  by_contra hz
  have := next.2.2 w' ((h.nonzero w').mpr hz) hlt
  omega

end Represents

/-! ## Downward search -/

/-- The greatest member of `S` below `b`. -/
def IsGreatestBelow (S : Set Nat) (b i : Nat) : Prop :=
  i ∈ S ∧ i < b ∧ ∀ j ∈ S, j < b → j ≤ i

theorem isGreatestBelow_of_word (hw : ws[b / 64]? = some word)
    (high : IsHighest (word &&& (bit (b % 64) - 1)) c) :
    IsGreatestBelow (bits ws) b (b / 64 * 64 + c) := by
  have hmod : b % 64 < 64 := by omega
  obtain ⟨hset, hmax⟩ := high
  obtain ⟨hbit, hlt⟩ := (getLsbD_and_sub_one hmod).mp hset
  have hc := lt_of_getLsbD hbit
  refine ⟨?_, by omega, ?_⟩
  · rw [mem_bits, bitAt_index hc, wordAt_eq hw]
    exact hbit
  · intro j hj hbj
    by_cases hjb : j / 64 = b / 64
    · have hhigh := hmax (j % 64) ((getLsbD_and_sub_one hmod).mpr ⟨?_, by omega⟩)
      · omega
      · rw [mem_bits, bitAt, hjb, wordAt_eq hw] at hj
        exact hj
    · omega

theorem lt_of_word_below_eq_zero (hw : ws[b / 64]? = some word)
    (gone : word &&& (bit (b % 64) - 1) = 0) (hj : j ∈ bits ws) (hbj : j < b) :
    j / 64 < b / 64 := by
  by_contra hle
  have hjb : j / 64 = b / 64 := by omega
  have hmod : j % 64 < 64 := by omega
  have hfalse := eq_zero_iff.mp gone (j % 64) hmod
  rw [mem_bits, bitAt, hjb, wordAt_eq hw] at hj
  rw [(getLsbD_and_sub_one (by omega)).mpr ⟨hj, by omega⟩] at hfalse
  cases hfalse

/-- The last non-zero word below index `i`. -/
def lastNonzeroBelow (ws : Array Word) : (i : Nat) → Checked (Option Nat)
  | 0 => .ok none
  | i + 1 => do
      let word ← vecRead ws i
      if word ≠ 0 then return some i
      lastNonzeroBelow ws i

theorem lastNonzeroBelow_spec (h : i ≤ ws.size) :
    (lastNonzeroBelow ws i).Returns (fun found =>
      match found with
      | some w => w < i ∧ wordAt ws w ≠ 0 ∧ ∀ w', w < w' → w' < i → wordAt ws w' = 0
      | none => ∀ w', w' < i → wordAt ws w' = 0) := by
  induction i with
  | zero =>
      intro w' hw'
      omega
  | succ i ih =>
      have hi : i < ws.size := by omega
      have hword : ws[i]? = some ws[i] := Array.getElem?_eq_getElem hi
      simp only [lastNonzeroBelow, returns_bind, returns_vecRead]
      refine ⟨_, hword, ?_⟩
      by_cases hz : ws[i] = 0
      · simp only [hz, ne_eq, not_true_eq_false, if_false]
        have zeroAt : ∀ w', w' < i + 1 → ¬w' < i → wordAt ws w' = 0 := by
          intro w' hlt hge
          have : w' = i := by omega
          rw [this, wordAt_eq hword, hz]
        refine (ih (by omega)).mono ?_
        intro found hfound
        cases found with
        | none =>
            intro w' hw'
            by_cases hlt : w' < i
            · exact hfound w' hlt
            · exact zeroAt w' hw' hlt
        | some w =>
            refine ⟨by have := hfound.1; omega, hfound.2.1, ?_⟩
            intro w' hw' hlt
            by_cases hle : w' < i
            · exact hfound.2.2 w' hw' hle
            · exact zeroAt w' hlt hle
      · simp only [ne_eq, hz, not_false_eq_true, if_true, pure_eq_ok, returns_ok]
        refine ⟨Nat.lt_succ_self i, by rw [wordAt_eq hword]; exact hz, ?_⟩
        intro w' hlt hle
        omega

theorem isGreatestBelow_of_earlier_word (hb : w < b / 64)
    (skip : ∀ j ∈ bits ws, j < b → j / 64 < b / 64)
    (zero : ∀ w', w < w' → w' < b / 64 → wordAt ws w' = 0) (high : IsHighest (wordAt ws w) c) :
    IsGreatestBelow (bits ws) b (w * 64 + c) := by
  have hc := lt_of_getLsbD high.1
  refine ⟨?_, by omega, ?_⟩
  · rw [mem_bits, bitAt_index hc]
    exact high.1
  · intro j hj hbj
    have hearlier := skip j hj hbj
    have hnonzero := wordAt_ne_zero_of_bitAt hj
    have hw : j / 64 ≤ w := by
      by_contra hlt
      exact hnonzero (zero _ (by omega) hearlier)
    by_cases hjw : j / 64 = w
    · have := high.2 (j % 64) (by rw [mem_bits, bitAt, hjw] at hj; exact hj)
      omega
    · omega

namespace Represents

/-- Both tiers downwards: the highest member of the previous word the summary names. -/
theorem isGreatestBelow_previousWord (h : Represents bitset summary S)
    (skip : ∀ j ∈ S, j < b → j / 64 < b / 64)
    (previous : IsGreatestBelow (bits summary) (b / 64) w) (high : IsHighest (wordAt bitset w) c) :
    IsGreatestBelow S b (w * 64 + c) := by
  rw [← h.bits_eq] at skip ⊢
  refine isGreatestBelow_of_earlier_word previous.2.1 skip ?_ high
  intro w' hlt hw'
  by_contra hz
  have := previous.2.2 w' ((h.nonzero w').mpr hz) hw'
  omega

end Represents

end Machine
