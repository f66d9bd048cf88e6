import MatchingEngine.Ledger.Restore
import MatchingEngine.Verification.Determined

/-!
# What a release build writes

Posting writes the slot it takes and the last slot of the queue it joins; a
cancel writes the slot it frees and those next to it in its queue. No other slot
changes, free ones included, and the instrumentation stands still.
-/

namespace Hft

open Machine Machine.Checked

namespace MemoryPool

variable {env : Env} {p p' p'' : MemoryPool} {S : Set Nat} {s : Nat}

/-- Only links changed, in slots of `S`, and what else those slots hold. -/
structure Writes (p p' : MemoryPool) (S : Set Nat) : Prop where
  frame : p' = { p with pool := p'.pool, freeHead := p'.freeHead }
  slots : ∀ s, s ∉ S → p'.pool[s]? = p.pool[s]?

namespace Writes

theorem refl (p : MemoryPool) (S : Set Nat) : p.Writes p S := ⟨rfl, fun _ _ => rfl⟩

theorem trans (h : p.Writes p' S) (h' : p'.Writes p'' S) : p.Writes p'' S := by
  refine ⟨?_, fun s hs => (h'.slots s hs).trans (h.slots s hs)⟩
  rw [h'.frame, h.frame]

/-- One slot written in place. -/
theorem set {f : Order → Order} {pool : Array Order} (hs : s ∈ S)
    (h : modifyOrder p.pool s f = .ok pool) : p.Writes { p with pool } S := by
  obtain ⟨o, -, rfl⟩ := modifyOrder_eq_ok_iff.mp h
  refine ⟨rfl, fun t ht => ?_⟩
  have hne : s ≠ t := fun e => ht (by rwa [← e])
  exact Array.getElem?_setIfInBounds_ne hne

end Writes

theorem allocate_writes (hrelease : env.debugTools = false) (S : Set Nat)
    (h : p.allocate env = .ok (s, p')) : p.Writes p' S := by
  simp only [allocate, hrelease, Bool.false_eq_true, if_false] at h
  split at h
  · cases h
    exact Writes.refl p S
  · obtain ⟨o, -, hresult⟩ := bind_eq_ok_iff.mp h
    cases hresult
    exact ⟨rfl, fun _ _ => rfl⟩

theorem allocate_slot (hrelease : env.debugTools = false) (h : p.allocate env = .ok (s, p')) :
    s = p.freeHead := by
  simp only [allocate, hrelease, Bool.false_eq_true, if_false] at h
  split at h
  · rename_i hempty
    cases h
    exact hempty.symm
  · obtain ⟨o, -, hresult⟩ := bind_eq_ok_iff.mp h
    cases hresult
    rfl

theorem deallocate_writes (hrelease : env.debugTools = false) (hs : s ∈ S)
    (h : p.deallocate env s = .ok p') : p.Writes p' S := by
  simp only [deallocate, hrelease, Bool.false_eq_true, if_false, pushFree, setOverlayLink] at h
  obtain ⟨q, hlink, hresult⟩ := bind_eq_ok_iff.mp h
  obtain ⟨pool, hmodify, hq⟩ := bind_eq_ok_iff.mp hlink
  cases hq
  cases hresult
  exact (Writes.set hs hmodify).trans ⟨rfl, fun _ _ => rfl⟩

end MemoryPool

namespace PriceLevel

variable {level level' : PriceLevel} {pool pool' : Array Order} {s t : Nat}

/-- Appending writes the slot that is appended and the one it follows. -/
theorem appendOrder_writes (h : level.appendOrder s pool = .ok (level', pool')) (ht : t ≠ s)
    (htail : level.head ≠ INVALID_INDEX → t ≠ level.tail) : pool'[t]? = pool[t]? := by
  obtain ⟨⟨linked, pool₁⟩, hlink, hrest⟩ := bind_eq_ok_iff.mp h
  obtain ⟨o, -, hrest⟩ := bind_eq_ok_iff.mp hrest
  obtain ⟨total, -, hrest⟩ := bind_eq_ok_iff.mp hrest
  obtain ⟨count, -, hrest⟩ := bind_eq_ok_iff.mp hrest
  cases hrest
  split at hlink
  · rename_i hne
    obtain ⟨pool₂, hfirst, hlink⟩ := bind_eq_ok_iff.mp hlink
    obtain ⟨pool₃, hsecond, hlink⟩ := bind_eq_ok_iff.mp hlink
    cases hlink
    obtain ⟨_, -, rfl⟩ := modifyOrder_eq_ok_iff.mp hfirst
    obtain ⟨_, -, rfl⟩ := modifyOrder_eq_ok_iff.mp hsecond
    rw [Array.getElem?_setIfInBounds_ne (htail hne).symm, Array.getElem?_setIfInBounds_ne ht.symm]
  · obtain ⟨pool₂, hfirst, hlink⟩ := bind_eq_ok_iff.mp hlink
    cases hlink
    obtain ⟨_, -, rfl⟩ := modifyOrder_eq_ok_iff.mp hfirst
    exact Array.getElem?_setIfInBounds_ne ht.symm

end PriceLevel

namespace OrderBook

variable {env : Env} {g : Geometry} {b b' : OrderBook} {L : Ledger} {side : Side} {S : Set Nat}
variable {id n i s price : Nat} {reason : RejectReason}

theorem modifySlot_writes {f : Order → Order} (hs : s ∈ S) (h : b.modifySlot s f = .ok b') :
    b.orderPool.Writes b'.orderPool S := by
  obtain ⟨pool, hmodify, hresult⟩ := bind_eq_ok_iff.mp h
  cases hresult
  exact MemoryPool.Writes.set hs hmodify

theorem setOrderMap_orderPool (h : b.setOrderMap id s = .ok b') :
    b'.orderPool = b.orderPool := by
  obtain ⟨orderMap, -, hresult⟩ := bind_eq_ok_iff.mp h
  cases hresult
  rfl

theorem setLevel_orderPool {level : PriceLevel} (h : b.setLevel side i level = .ok b') :
    b'.orderPool = b.orderPool := by
  obtain ⟨levels, -, hresult⟩ := bind_eq_ok_iff.mp h
  cases hresult
  exact setSide_orderPool

theorem record_orderPool {event : JournalEvent} {id price quantity byte : Nat} :
    (b.record env event id price quantity byte).orderPool = b.orderPool := by
  rw [record_eq]
  rfl

theorem setLevelBit_orderPool (h : b.setLevelBit side i = .ok b') :
    b'.orderPool = b.orderPool := by
  obtain ⟨word, -, h⟩ := bind_eq_ok_iff.mp h
  obtain ⟨bitset, -, h⟩ := bind_eq_ok_iff.mp h
  obtain ⟨summaryWord, -, h⟩ := bind_eq_ok_iff.mp h
  obtain ⟨summary, -, h⟩ := bind_eq_ok_iff.mp h
  cases h
  exact setSide_orderPool

theorem announce_orderPool {slot : Nat} {wasEmpty : Bool}
    (h : b.announce env side id price n slot i wasEmpty = .ok b') :
    b'.orderPool = b.orderPool := by
  obtain ⟨b₁, hbit, h⟩ := bind_eq_ok_iff.mp h
  obtain ⟨order, -, h⟩ := bind_eq_ok_iff.mp h
  cases h
  have hpool : b₁.orderPool = b.orderPool := by
    split at hbit
    · exact setLevelBit_orderPool hbit
    · cases hbit
      rfl
  rw [record_orderPool]
  split
  · rw [record_orderPool, setSide_orderPool, hpool]
  · exact hpool

/-- Posting writes the slot that heads the free list and the end of a queue. -/
theorem postOrder_writes (hrelease : env.debugTools = false)
    (h : b.postOrder env side id price n = .ok (reason, b')) (hhead : b.orderPool.freeHead ∈ S)
    (htail : ∀ (i : Nat) (level : PriceLevel), (b.side side).levels[i]? = some level →
      level.head ≠ INVALID_INDEX → level.tail ∈ S) : b.orderPool.Writes b'.orderPool S := by
  obtain ⟨⟨slot, pool⟩, halloc, h⟩ := bind_eq_ok_iff.mp h
  have hslot : slot ∈ S := MemoryPool.allocate_slot hrelease halloc ▸ hhead
  have h₀ := MemoryPool.allocate_writes hrelease S halloc
  simp only at h
  split at h
  · cases h
    rw [record_orderPool]
    exact h₀
  · obtain ⟨b₁, hfill, h⟩ := bind_eq_ok_iff.mp h
    obtain ⟨count, -, h⟩ := bind_eq_ok_iff.mp h
    obtain ⟨b₂, hmap, h⟩ := bind_eq_ok_iff.mp h
    obtain ⟨order, -, h⟩ := bind_eq_ok_iff.mp h
    obtain ⟨bitIdx, -, h⟩ := bind_eq_ok_iff.mp h
    obtain ⟨level, hlevel, h⟩ := bind_eq_ok_iff.mp h
    obtain ⟨⟨level', pool'⟩, happend, h⟩ := bind_eq_ok_iff.mp h
    obtain ⟨b₃, hset, h⟩ := bind_eq_ok_iff.mp h
    obtain ⟨b₄, hannounce, h⟩ := bind_eq_ok_iff.mp h
    cases h
    have h₁ := modifySlot_writes (S := S) hslot hfill
    have hside : b₂.side side = b.side side := by
      obtain ⟨_, -, hfill⟩ := bind_eq_ok_iff.mp hfill
      obtain ⟨_, -, hmap⟩ := bind_eq_ok_iff.mp hmap
      cases hfill
      cases hmap
      cases side <;> rfl
    rw [announce_orderPool hannounce, setLevel_orderPool hset]
    have h₂ : b₁.orderPool.Writes b₂.orderPool S := by
      rw [setOrderMap_orderPool hmap]
      exact MemoryPool.Writes.refl _ S
    refine ((h₀.trans h₁).trans h₂).trans ⟨rfl, fun t ht => ?_⟩
    refine PriceLevel.appendOrder_writes happend (fun e => ht (e ▸ hslot)) (fun hne e => ht ?_)
    have hread := vecRead_eq_ok_iff.mp hlevel
    rw [hside] at hread
    exact e ▸ htail bitIdx level hread hne

/-- The slot of a cancelled order is written, and slots of its queue are. -/
theorem cancelOrderImpl_writes (hrelease : env.debugTools = false) (h : Represents env g b L)
    (hcancel : b.cancelOrderImpl env id = .ok (reason, b'))
    (hlive : ∀ p ∈ L.resting g, p.order.slot ∈ S) : b.orderPool.Writes b'.orderPool S := by
  simp only [cancelOrderImpl, record_eq, recordReason_eq, logged_logged] at hcancel
  have h₀ := h.logged [⟨.OrderSubmitted, id, 0, 0, Side.Buy.toByte, 0⟩]
  generalize hb₀ : b.logged env [⟨.OrderSubmitted, id, 0, 0, Side.Buy.toByte, 0⟩] = b₀
    at h₀ hcancel
  have hpool₀ : b₀.orderPool = b.orderPool := by rw [← hb₀]; rfl
  split at hcancel
  · cases hcancel
    exact MemoryPool.Writes.refl _ S
  · rename_i hbounds
    obtain ⟨idx, hread, hcancel⟩ := bind_eq_ok_iff.mp hcancel
    split at hcancel
    · cases hcancel
      exact MemoryPool.Writes.refl _ S
    · rename_i hvalid
      obtain ⟨-, -, hcancel⟩ := bind_eq_ok_iff.mp hcancel
      obtain ⟨order, horder, hcancel⟩ := bind_eq_ok_iff.mp hcancel
      obtain ⟨bitIdx, hsub, hcancel⟩ := bind_eq_ok_iff.mp hcancel
      obtain ⟨b₁, hremove, hcancel⟩ := bind_eq_ok_iff.mp hcancel
      obtain ⟨b₂, hforget, hcancel⟩ := bind_eq_ok_iff.mp hcancel
      obtain ⟨b₃, hfree, hcancel⟩ := bind_eq_ok_iff.mp hcancel
      obtain ⟨count, -, hcancel⟩ := bind_eq_ok_iff.mp hcancel
      cases hcancel
      obtain ⟨p, hp, rfl, rfl⟩ := h₀.store.placed_of_map (vecRead_eq_ok_iff.mp hread) hvalid
      obtain ⟨as, bs, hsplit, hremoved⟩ := h₀.wellFormed.exists_split hp
      obtain ⟨o, ho, horder', hw, -, hprice, hquantity, hside⟩ := h₀.store.order_eq hp
      rw [horder', Except.ok.injEq] at horder
      subst horder
      have hindex : checkedSub o.price b₀.minPrice = .ok p.index := by
        simp [checkedSub, h₀.store.minPrice, hprice, Geometry.price]
      rw [hindex, Except.ok.injEq] at hsub
      subst hsub
      rw [hside, sideOfByte_toByte, hprice] at hremove
      have h₁ := (removeFromLevel_spec h₀ hp hsplit (h₀.wellFormed.remove hp) hremoved ho hw
        hquantity).result hremove
      have hwrites₁ : b₀.orderPool.Writes b₁.orderPool S := by
        refine ⟨?_, fun s hs => h₁.relinked.outside s ?_⟩
        · rw [h₁.pool]
        · rw [← hsplit]
          intro hmem
          obtain ⟨r, hr, rfl⟩ := List.mem_map.mp hmem
          exact hs (hlive _ (h₀.wellFormed.mem hr))
      have hwrites₂ : b₁.orderPool.Writes b₂.orderPool S := by
        obtain ⟨b', hmap, hmodify⟩ := bind_eq_ok_iff.mp hforget
        rw [← setOrderMap_orderPool hmap]
        exact modifySlot_writes (hlive p hp) hmodify
      have hwrites₃ : b₂.orderPool.Writes b₃.orderPool S := by
        obtain ⟨pool, hdeallocate, hresult⟩ := bind_eq_ok_iff.mp hfree
        cases hresult
        exact MemoryPool.deallocate_writes hrelease (hlive p hp) hdeallocate
      rw [logged, ← hpool₀]
      exact (hwrites₁.trans hwrites₂).trans hwrites₃

end OrderBook

end Hft
