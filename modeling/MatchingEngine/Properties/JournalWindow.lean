import MatchingEngine.Engine.OrderBook
import MatchingEngine.Machine.Ring
import MatchingEngine.Machine.Runs

/-!
# The journal keeps the latest events

The ring is compared with the list of the events recorded since it was last cleared.
As long as the cursor has not come round its own width, it counts them, and the
cells hold the last of them: as many as the largest power of two that the requested
capacity has room for.

Clearing moves the cursor only. The cells left behind belong to no history any
more, so `Ring.Holds` of the empty history holds whatever they contain.
-/

namespace Hft

open Machine Machine.Checked

/-- A `record` call: the reading of the cycle counter, and what is recorded. -/
abbrev Recorded : Type := Nat × JournalEntry

def Recorded.cell (r : Recorded) : JournalCell := r.2.stored r.1

namespace JournalCall

/-- The events recorded since the last clear, after one more call. -/
def extend (E : List Recorded) : JournalCall → List Recorded
  | .record timestamp e => E ++ [(timestamp, e)]
  | .clear => []

/-- The events recorded since the last clear, oldest first. -/
def recorded (calls : List JournalCall) : List Recorded := calls.foldl extend []

/-- Without a clear nothing is forgotten. -/
theorem foldl_extend (E rs : List Recorded) :
    (rs.map (fun r => record r.1 r.2)).foldl extend E = E ++ rs := by
  induction rs generalizing E with
  | nil => exact (List.append_nil E).symm
  | cons r rs ih =>
      rw [List.map_cons, List.foldl_cons, ih, extend, List.append_assoc]
      rfl

end JournalCall

namespace Journal

variable {j : Journal} {m : Nat} {E : List Recorded}

/-- The ring has `2 ^ m` cells and, while the cursor can count them, holds the last of
the events `E`. -/
structure Tracks (m : Nat) (j : Journal) (E : List Recorded) : Prop where
  entriesSize : j.entries.size = 2 ^ m
  mask : j.mask = 2 ^ m - 1
  pos : E.length < 2 ^ 64 → j.pos = E.length
  holds : E.length < 2 ^ 64 → Ring.Holds j.entries (E.map Recorded.cell)

/-! ### Construction -/

theorem bitFloor_eq {n : Nat} (hn : n ≠ 0) : bitFloor n = 2 ^ n.log2 := if_neg hn

theorem size_vecResize {α : Type} (xs : Array α) (n : Nat) (fill : α) :
    (vecResize xs n fill).size = n := by
  rw [vecResize, Array.size_append, Array.size_replicate, Array.take_eq_extract, Array.size_extract]
  omega

/-- The constructor rounds the capacity down to a power of two. -/
theorem construct_tracks (capacity : Nat) :
    Tracks (max capacity 1).log2 (construct capacity) [] := by
  have hcapacity : (if capacity ≠ 0 then capacity else 1) = max capacity 1 := by
    split <;> omega
  have hpos : max capacity 1 ≠ 0 := by omega
  constructor
  · rw [construct, Array.size_replicate, hcapacity, bitFloor_eq hpos]
    split
    · exact size_vecResize _ _ _
    · rename_i heq
      rw [Array.size_replicate]
      exact (not_not.mp heq).symm
  · rw [construct, Array.size_replicate, hcapacity, bitFloor_eq hpos]
  · exact fun _ => rfl
  · exact fun _ => Ring.Holds.nil _

/-! ### Writing -/

namespace Tracks

theorem record (h : Tracks m j E) (timestamp : Nat) (e : JournalEntry) :
    (j.record timestamp e).Returns (fun j' => Tracks m j' (E ++ [(timestamp, e)])) := by
  have hpos : 0 < j.entries.size := by
    rw [h.entriesSize]
    exact Nat.two_pow_pos m
  have hindex : j.pos &&& j.mask = j.pos % j.entries.size := by
    rw [h.mask, Nat.and_two_pow_sub_one_eq_mod, h.entriesSize]
  rw [Journal.record, hindex, vecWrite_eq (Nat.mod_lt _ hpos), ok_bind, pure_eq_ok, returns_ok]
  refine ⟨?_, h.mask, fun hlt => ?_, fun hlt => ?_⟩
  · rw [Array.size_setIfInBounds]
    exact h.entriesSize
  · rw [List.length_append, List.length_singleton] at hlt ⊢
    show (j.pos + 1) % 2 ^ 64 = E.length + 1
    rw [h.pos (by omega), Nat.mod_eq_of_lt hlt]
  · rw [List.length_append, List.length_singleton] at hlt
    have hpush := (h.holds (by omega)).push hpos (e.stored timestamp)
    rw [List.length_map, ← h.pos (by omega)] at hpush
    rw [List.map_append]
    exact hpush

theorem clear (h : Tracks m j E) : Tracks m j.clear [] :=
  ⟨h.entriesSize, h.mask, fun _ => rfl, fun _ => Ring.Holds.nil _⟩

theorem perform (h : Tracks m j E) (call : JournalCall) :
    (j.perform call).Returns (fun j' => Tracks m j' (call.extend E)) := by
  cases call with
  | record timestamp e => exact h.record timestamp e
  | clear => exact h.clear

theorem run (h : Tracks m j E) (calls : List JournalCall) :
    (j.run calls).Returns (fun j' => Tracks m j' (calls.foldl JournalCall.extend E)) :=
  foldlM_refines h (fun _ _ call hs _ => hs.perform call)
    (admissible_of_forall (fun _ _ => trivial))

end Tracks

/-! ### Reading -/

/-- What the ring shows of the events recorded since the last clear. -/
structure Retains (j : Journal) (k : Nat) (E : List Recorded) : Prop where
  capacity : j.capacity = k
  total : j.total = E.length
  size : j.size = min E.length k
  entryAt : ∀ i < j.size, ∃ r, E[E.length - j.size + i]? = some r ∧ j.entryAt i = .ok r.cell
  window : (List.range j.size).mapM j.entryAt =
    .ok ((E.drop (E.length - min E.length k)).map Recorded.cell)

namespace Tracks

variable (h : Tracks m j E) (hcount : E.length < 2 ^ 64)
include h hcount

theorem size : j.size = min E.length j.entries.size := by
  rw [Journal.size, h.pos hcount]
  split <;> omega

/-- The oldest entry retained is the first of the last revolution. -/
theorem entryAt {i : Nat} (hi : i < j.size) :
    ∃ r, E[E.length - j.size + i]? = some r ∧ j.entryAt i = .ok r.cell := by
  have hsize := h.size hcount
  have hlt : E.length - j.size + i < E.length := by omega
  have hread : j.entries[(E.length - j.size + i) % j.entries.size]? =
      (E.map Recorded.cell)[E.length - j.size + i]? := by
    have hholds := (h.holds hcount).read (i := i) (by rwa [List.length_map, ← hsize])
    rwa [List.length_map, ← hsize] at hholds
  have hindex : (j.pos - j.size + i) % 2 ^ 64 &&& j.mask =
      (E.length - j.size + i) % j.entries.size := by
    rw [h.pos hcount, h.mask, Nat.and_two_pow_sub_one_eq_mod, h.entriesSize,
      Nat.mod_eq_of_lt (hlt.trans hcount)]
  refine ⟨_, List.getElem?_eq_getElem hlt, ?_⟩
  rw [Journal.entryAt, hindex]
  apply vecRead_eq
  rw [hread, List.getElem?_map, List.getElem?_eq_getElem hlt, Option.map_some]

/-- Reading on from entry `start` yields the rest of the history, in order. -/
theorem entriesFrom {start : Nat} (hstart : start ≤ j.size) :
    (List.range' start (j.size - start)).mapM j.entryAt =
      .ok ((E.drop (E.length - j.size + start)).map Recorded.cell) := by
  have hsize := h.size hcount
  apply mapM_eq_ok_iff.mpr
  apply List.forall₂_iff_get.mpr
  constructor
  · rw [List.length_range', List.length_map, List.length_drop]
    omega
  · intro i hi hi'
    rw [List.length_range'] at hi
    obtain ⟨r, hr, hread⟩ := h.entryAt hcount (i := start + i) (by omega)
    rw [← Nat.add_assoc] at hr
    have hget := List.getElem_of_getElem? hr
    simpa [hget.2] using hread

theorem retains : j.Retains (2 ^ m) E where
  capacity := h.entriesSize
  total := h.pos hcount
  size := by rw [h.size hcount, h.entriesSize]
  entryAt := fun _ hi => h.entryAt hcount hi
  window := by
    have hall := h.entriesFrom hcount (Nat.zero_le j.size)
    have hsize := h.size hcount
    rw [h.entriesSize] at hsize
    rw [← hsize]
    rwa [Nat.sub_zero, Nat.add_zero, ← List.range_eq_range'] at hall

/-- `dump` renders the end of the window, as many lines as were asked for. -/
theorem dump (maxLines : Nat) : j.dump maxLines =
    .ok ((E.drop (E.length - min maxLines j.size)).map
      (fun r => (journalEventName r.2.event.toByte, r.cell))) := by
  have hsize := h.size hcount
  obtain ⟨start, hstart, hle, hdrop⟩ : ∃ start,
      start = (if j.size > maxLines then j.size - maxLines else 0) ∧ start ≤ j.size ∧
        E.length - j.size + start = E.length - min maxLines j.size := by
    refine ⟨_, rfl, ?_, ?_⟩
    · split <;> omega
    · split <;> omega
  have hall := mapM_eq_ok_iff.mp (h.entriesFrom hcount hle)
  rw [hdrop] at hall
  have hlines : (E.drop (E.length - min maxLines j.size)).map
      (fun r => (journalEventName r.2.event.toByte, r.cell)) =
      ((E.drop (E.length - min maxLines j.size)).map Recorded.cell).map
        (fun c => (journalEventName c.event, c)) := by
    rw [List.map_map]
    rfl
  rw [Journal.dump, ← hstart, hlines]
  apply mapM_eq_ok_iff.mpr
  apply List.forall₂_map_right_iff.mpr
  refine hall.imp (fun i c hread => ?_)
  rw [hread]
  rfl

end Tracks

/-- Whatever was recorded and cleared, a ring of any requested capacity shows the latest
of the events recorded since: as many as the largest power of two the capacity has
room for. -/
theorem run_retains {capacity k : Nat}
    (hk : IsGreatest {p | (∃ m, p = 2 ^ m) ∧ p ≤ max capacity 1} k) (calls : List JournalCall)
    (hcount : (JournalCall.recorded calls).length < 2 ^ 64) :
    ((construct capacity).run calls).Returns
      (fun j => j.Retains k (JournalCall.recorded calls)) := by
  have hpos : max capacity 1 ≠ 0 := by omega
  obtain rfl := hk.unique (Ring.isGreatest_two_pow_log2 hpos)
  refine ((construct_tracks capacity).run calls).mono (fun j hj => ?_)
  exact hj.retains hcount

/-- Room for two: of the three events recorded after the clear the last two are shown. -/
theorem run_retains_small : ((construct 3).run
    [.record 7 ⟨.OrderSubmitted, 1, 100, 5, 0, 0⟩, .clear,
      .record 8 ⟨.OrderRested, 1, 100, 5, 0, 0⟩, .record 9 ⟨.OrderSubmitted, 2, 100, 3, 1, 0⟩,
      .record 11 ⟨.TradeExecuted, 2, 100, 3, 1, 0⟩]).Returns (fun j => j.Retains 2
        [(8, ⟨.OrderRested, 1, 100, 5, 0, 0⟩), (9, ⟨.OrderSubmitted, 2, 100, 3, 1, 0⟩),
          (11, ⟨.TradeExecuted, 2, 100, 3, 1, 0⟩)]) :=
  run_retains (Ring.isGreatest_two_pow_log2 (by decide)) _ (by decide)

end Journal

/-- The ring of a book, after the `record` calls the book has made, each with its reading
of the cycle counter. The engine never clears it. -/
def OrderBook.ring (b : OrderBook) (timestamps : List Nat) : Checked Journal :=
  (Journal.construct kJournalCapacity).run
    ((timestamps.zip b.journal).map (fun r => .record r.1 r.2))

/-- A book's ring shows the last `kJournalCapacity` entries of its journal. -/
theorem OrderBook.ring_retains (b : OrderBook) {timestamps : List Nat}
    (hlength : timestamps.length = b.journal.length) (hcount : b.journal.length < 2 ^ 64) :
    (b.ring timestamps).Returns
      (fun j => j.Retains kJournalCapacity (timestamps.zip b.journal)) := by
  have hlog : (max kJournalCapacity 1).log2 = 14 := Nat.log2_two_pow
  have htracks := Journal.construct_tracks kJournalCapacity
  rw [hlog] at htracks
  have hrun := htracks.run ((timestamps.zip b.journal).map (fun r => .record r.1 r.2))
  rw [JournalCall.foldl_extend, List.nil_append] at hrun
  refine hrun.mono (fun j hj => hj.retains ?_)
  rwa [List.length_zip, hlength, min_self]

end Hft
