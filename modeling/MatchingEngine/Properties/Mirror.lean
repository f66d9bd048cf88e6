import MatchingEngine.Ledger.Mirror
import MatchingEngine.Verification.Observation

/-!
# Buy and Sell are mirror images

The two sides of the engine are written out separately. Exchanging Buy and Sell
and reflecting all prices about the middle of the range turns a run into a run:
the same answers, the same trades at the reflected prices, and the reflected
book.
-/

namespace Hft.OrderBook

open Machine Machine.Checked

variable {env : Env} {args : Args} {g : Geometry} {b b' b₀ : OrderBook} {L : Ledger}

/-- Two books that are mirror images to an observer. -/
structure MirrorImage (minPrice maxPrice : Nat) (b b' : OrderBook) : Prop where
  queues : ∀ side price, minPrice ≤ price → price ≤ maxPrice →
    b'.queue side.opposite (reflectPrice minPrice maxPrice price - minPrice) =
      b.queue side (price - minPrice)
  hasAsks : b'.hasAsks = b.hasBids
  hasBids : b'.hasBids = b.hasAsks
  bestAsk : b.hasBids = true → b'.bestAsk = reflectPrice minPrice maxPrice b.bestBid
  bestBid : b.hasAsks = true → b'.bestBid = reflectPrice minPrice maxPrice b.bestAsk

theorem Represents.has_mirror (h : Represents env g b L) (h' : Represents env g b' (L.mirror g))
    (side : Side) : (b'.side side.opposite).has = (b.side side).has := by
  rw [(h'.index side.opposite).has, (h.index side).has, Ledger.mirror_best, Option.isSome_map]

theorem Represents.best_mirror (h : Represents env g b L) (h' : Represents env g b' (L.mirror g))
    (side : Side) (hhas : (b.side side).has = true) :
    (b'.side side.opposite).best = g.mirrorPrice (b.side side).best := by
  obtain ⟨i, hbest⟩ := h.has_iff.mp hhas
  have hi := (h.index side).lt_range i
  have hmirror : (L.mirror g).best g side.opposite = some (g.reflect i) := by
    rw [Ledger.mirror_best, hbest, Option.map_some]
  rw [(h.of_best hbest).2.1, (h'.of_best hmirror).2.1]
  exact Geometry.price_reflect (hi (h.wellFormed.best_eq_iff.mp hbest).1)

theorem Represents.mirrorImage (h : Represents env g b L)
    (h' : Represents env g b' (L.mirror g)) : MirrorImage g.minPrice g.maxPrice b b' where
  queues := by
    intro side price hmin hmax
    have hrange := g.minPrice_add_range
    have hlt : price - g.minPrice < g.range := by omega
    rw [← Geometry.mirrorPrice, Geometry.mirrorPrice_sub hmin hmax,
      queue_eq h'.store _ (Geometry.reflect_lt _ _), queue_eq h.store _ hlt,
      Ledger.mirror_queue hlt]
  hasAsks := h.has_mirror h' .Buy
  hasBids := h.has_mirror h' .Sell
  bestAsk := h.best_mirror h' .Buy
  bestBid := h.best_mirror h' .Sell

/-- The mirrored run answers as the run does, and ends in the mirrored book. -/
theorem run_mirrored (h : construct env args = .ok b₀) {calls calls' : List Call}
    (hcalls : List.Forall₂ (Call.Mirrors args.minPrice.toNat args.maxPrice.toNat) calls calls') :
    ∃ replies b b', b₀.run env calls = .ok (replies, b) ∧
      b₀.run env calls' =
        .ok (replies.map (Reply.mirror args.minPrice.toNat args.maxPrice.toNat), b') ∧
      MirrorImage args.minPrice.toNat args.maxPrice.toNat b b' := by
  obtain ⟨⟨replies, b⟩, hrun, rfl, hready, -⟩ := returns_iff.mp (run_spec h calls)
  obtain ⟨⟨replies', b'⟩, hrun', rfl, hready', -⟩ := returns_iff.mp (run_spec h calls')
  have accepted := accepted_of_construct h
  have hempty := Ledger.empty_wellFormed (args.geometry accepted)
  have hmirror := Ledger.run_mirror (g := args.geometry accepted) hempty
    (by rwa [Ledger.mirror_empty]) hcalls
  rw [Ledger.mirror_empty] at hmirror
  obtain ⟨hreplies, hledger⟩ := hmirror
  have himage := hready'.represents
  rw [hledger] at himage
  refine ⟨_, b, b', hrun, ?_, hready.represents.mirrorImage himage⟩
  rw [hrun', hreplies]
  rfl

theorem run_mirrored_small : ∃ b₀, construct .release .small = .ok b₀ ∧
    ∃ replies b b', b₀.run .release
        [.addOrder 1 .Limit 101 5 .Buy, .addOrder 2 .Market 0 3 .Sell] = .ok (replies, b) ∧
      b₀.run .release [.addOrder 1 .Limit 102 5 .Sell, .addOrder 2 .Market 0 3 .Buy] =
        .ok (replies.map (Reply.mirror 100 103), b') ∧ MirrorImage 100 103 b b' := by
  obtain ⟨b₀, h⟩ := construct_small .release
  refine ⟨b₀, h, run_mirrored h (.cons ?_ (.cons ?_ .nil))⟩
  · exact .addOrder 1 .Limit 101 102 5 .Buy (fun _ _ => rfl) (fun _ hout => by
      exact absurd ⟨by decide, by decide⟩ hout)
  · exact .addOrder 2 .Market 0 0 3 .Sell (fun e => nomatch e) (fun e => nomatch e)

end Hft.OrderBook
