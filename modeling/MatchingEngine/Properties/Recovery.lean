import MatchingEngine.Properties.Follower
import MatchingEngine.Properties.JournalWindow

/-!
# A snapshot and the ring

The ring of an instrumented book forgets all but the latest events. Together with the
queues of some earlier moment they are enough, as long as no more events have been written
since than the ring holds.
-/

namespace Hft

open Machine Machine.Checked

/-! ## Reading the cells -/

/-- The event of a byte; the engine never writes another byte. -/
def JournalEvent.ofByte : Nat → Option JournalEvent
  | 0 => some .OrderSubmitted
  | 1 => some .OrderRejected
  | 2 => some .OrderRested
  | 3 => some .TradeExecuted
  | 4 => some .MakerFilled
  | 5 => some .OrderCancelled
  | 6 => some .PoolExhausted
  | 7 => some .BestBidChanged
  | 8 => some .BestAskChanged
  | _ => none

theorem JournalEvent.ofByte_toByte (event : JournalEvent) : ofByte event.toByte = some event := by
  cases event <;> rfl

/-- What a cell says, its timestamp apart. -/
def JournalCell.entry (c : JournalCell) : Option JournalEntry :=
  (JournalEvent.ofByte c.event).map (fun event =>
    ⟨event, c.id, c.price, c.quantity, c.side, c.reason⟩)

theorem Recorded.cell_entry (r : Recorded) : r.cell.entry = some r.2 := by
  change (JournalEvent.ofByte r.2.event.toByte).map _ = _
  rw [JournalEvent.ofByte_toByte]
  rfl

theorem mapM_entry (rs : List Recorded) :
    (rs.map Recorded.cell).mapM JournalCell.entry = some (rs.map Prod.snd) := by
  induction rs with
  | nil => rfl
  | cons r rs ih => simp [List.mapM_cons, Recorded.cell_entry, ih]

namespace Replay

variable {g : Geometry}

/-- The entries that a run adds to the journal replay it from where it started. -/
theorem run_added {L : Ledger} (log : List JournalEntry) (h : L.WellFormed g)
    (calls : List Call) : ∃ added, (runs (Ledger.advance g) (L, log) calls).2.2 = log ++ added ∧
      run added (view g L) = some (view g (runs (Ledger.advance g) (L, log) calls).2.1) := by
  refine (runs_invariant (P := fun state : Ledger × List JournalEntry =>
    state.1.WellFormed g ∧ ∃ added, state.2 = log ++ added ∧
      run added (view g L) = some (view g state.1))
    ⟨h, [], (List.append_nil log).symm, run_nil⟩ ?_).2
  rintro ⟨M, log'⟩ call ⟨hM, added, rfl, hrun⟩
  refine ⟨hM.step call, added ++ (M.step g call).events, ?_, ?_⟩
  · exact List.append_assoc log added _
  · rw [run_append, hrun, Option.bind_some]
    exact run_step hM call

end Replay

namespace OrderBook

variable {env : Env} {args : Args} {b : OrderBook} {r : Replay}

/-- The queues of an earlier moment and the latest cells of the ring give the queues of now:
one cell for each event written in between, of which there are no more than the ring holds. -/
theorem ring_recovers (htools : env.debugTools = true) (hb : Reachable env args b)
    (hr : r.Displays b) (calls : List Call) : (b.run env calls).Returns (fun (_, b') =>
      ∀ timestamps, timestamps.length = b'.journal.length → b'.journal.length < 2 ^ 64 →
        b'.journal.length ≤ b.journal.length + kJournalCapacity →
        (b'.ring timestamps).Returns (fun j => ∃ cells entries r',
          (List.range j.size).mapM j.entryAt = .ok cells ∧
          (cells.drop (j.size - (j.total - b.journal.length))).mapM JournalCell.entry =
            some entries ∧
          Replay.run entries r = some r' ∧ r'.Displays b')) := by
  obtain ⟨accepted, ⟨L, log⟩, htracks⟩ := hb.tracks
  have hstore := htracks.1.represents.store
  have hlog : b.journal = log := htracks.2.trans (if_pos htools)
  rw [hstore.eq_view hr]
  refine ((step_refines env _).runs htracks).mono ?_
  rintro ⟨replies, b'⟩ ⟨-, htracks'⟩ timestamps hlength hcount hroom
  obtain ⟨added, hadded, hreplay⟩ := Replay.run_added log hstore.wellFormed calls
  have hlog' : b'.journal = b.journal ++ added := by
    rw [hlog, ← hadded]
    exact htracks'.2.trans (if_pos htools)
  refine (ring_retains b' hlength hcount).mono (fun j hj => ?_)
  have hzip : (timestamps.zip b'.journal).length = b'.journal.length := by
    rw [List.length_zip, hlength, min_self]
  have hsize := hj.size
  have htotal := hj.total
  rw [hzip] at hsize htotal
  have hgrown : b'.journal.length = b.journal.length + added.length := by
    rw [hlog', List.length_append]
  -- What is kept of the window is what was written since the snapshot.
  have hkept : (timestamps.zip b'.journal).length - min (timestamps.zip b'.journal).length
      kJournalCapacity + (j.size - (j.total - b.journal.length)) = b.journal.length := by
    rw [hzip]
    omega
  refine ⟨_, added, _, hj.window, ?_, hreplay, htracks'.1.represents.store.displays_view⟩
  rw [← List.map_drop, List.drop_drop, hkept, mapM_entry, List.map_drop,
    List.map_snd_zip (Nat.le_of_eq hlength.symm), hlog', List.drop_left]

theorem ring_recovers_small : ∃ b₀, construct .instrumented .small = .ok b₀ ∧
    (b₀.run .instrumented [.addOrder 1 .Limit 101 5 .Buy, .addOrder 2 .Market 0 3 .Sell]).Returns
      (fun (_, b) => ∀ timestamps, timestamps.length = b.journal.length →
        b.journal.length < 2 ^ 64 → b.journal.length ≤ b₀.journal.length + kJournalCapacity →
        (b.ring timestamps).Returns (fun j => ∃ cells entries r,
          (List.range j.size).mapM j.entryAt = .ok cells ∧
          (cells.drop (j.size - (j.total - b₀.journal.length))).mapM JournalCell.entry =
            some entries ∧
          Replay.run entries .empty = some r ∧ r.Displays b)) := by
  obtain ⟨b₀, h, hb, hempty⟩ := displays_small .instrumented
  exact ⟨b₀, h, ring_recovers rfl hb hempty _⟩

end OrderBook

end Hft
