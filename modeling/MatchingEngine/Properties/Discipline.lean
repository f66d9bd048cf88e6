import MatchingEngine.Properties.Ownership

/-!
# Clients that keep the contract of the pool

A release build checks nothing: it trusts that what is freed is held, and that a chain is one
the client has linked. A client needs two things to keep this contract, and no more: the
slots that are free, in the order in which they are handed out, and what it has written.
Whoever keeps it gets the same slots and finds what it has written, in every build.
-/

namespace Hft

open Machine Machine.Checked

/-- What a client knows of a pool: the free slots, the next one to be handed out first, what
it has written to those it holds, and the slots it was handed so far. -/
structure Slots where
  capacity : Nat
  free : List Nat
  contents : Nat → Option Order
  handed : List Nat

namespace Slots

def new (capacity : Nat) : Slots := ⟨capacity, List.range capacity, fun _ => none, []⟩

def Holds (m : Slots) (i : Nat) : Prop := i < m.capacity ∧ i ∉ m.free

instance (m : Slots) (i : Nat) : Decidable (m.Holds i) := inferInstanceAs (Decidable (_ ∧ _))

/-- The slots from `cur` to `tail`, along the links the client has written. -/
def chain (m : Slots) (tail : Nat) : (fuel : Nat) → (cur : Nat) → Option (List Nat)
  | 0, _ => none
  | fuel + 1, cur =>
      if ¬m.Holds cur then none
      else if cur = tail then some [cur]
      else do
        let o ← m.contents cur
        let rest ← m.chain tail fuel o.next
        if cur ∈ rest then none else return cur :: rest

def release (m : Slots) (cells : List Nat) : Slots :=
  { m with
    free := cells ++ m.free
    contents := fun i => if i ∈ cells then none else m.contents i }

/-- A call, unless it breaks the contract. -/
def step (m : Slots) : PoolCall → Option Slots
  | .allocate =>
      match m.free with
      | [] => some m
      | s :: free => some
          { m with
            free
            contents := fun i => if i = s then none else m.contents i
            handed := m.handed ++ [s] }
  | .deallocate index =>
      if m.Holds index.toNat then some (m.release [index.toNat]) else none
  | .deallocateChain head tail => (m.chain tail.toNat m.capacity head.toNat).map m.release
  | .write index contents =>
      if m.Holds index.toNat then
        some { m with contents := Function.update m.contents index.toNat (some contents) }
      else none

def run (capacity : Nat) (calls : List PoolCall) : Option Slots :=
  calls.foldlM step (new capacity)

end Slots

namespace PoolHistory

open MemoryPool

variable {env : Env} {h : PoolHistory} {m m' : Slots} {cells : List Nat}
variable {fuel cur tail : Nat}

/-- The pool is as its client knows it. -/
structure Follows (env : Env) (h : PoolHistory) (m : Slots) : Prop where
  represents : h.pool.Represents env m.free
  capacity : h.pool.capacity = m.capacity
  contents : ∀ i o, m.contents i = some o → h.pool.pool[i]? = some o
  handed : h.handed = m.handed
  reports : h.pool.reports = []

/-- A chain of the client is one of the pool. -/
theorem Follows.chain (hf : h.Follows env m) (hchain : m.chain tail fuel cur = some cells) :
    (∃ as, cells = as ++ [tail]) ∧ (∃ stop, Path (nextOf h.pool.pool) cur cells stop) ∧
      cells.Nodup ∧ ∀ s ∈ cells, m.Holds s := by
  induction fuel generalizing cur cells with
  | zero => cases hchain
  | succ fuel ih =>
      unfold Slots.chain at hchain
      split at hchain
      · cases hchain
      rename_i hholds
      have hcur : m.Holds cur := not_not.mp hholds
      split at hchain
      · rename_i htail
        subst htail
        cases hchain
        obtain ⟨o, ho⟩ := hf.represents.getElem? (hf.capacity ▸ hcur.1)
        refine ⟨⟨[], rfl⟩, ⟨o.next, rfl, o.next, nextOf_eq ho, rfl⟩, List.nodup_singleton cur, ?_⟩
        intro s hs
        rwa [List.mem_singleton.mp hs]
      · obtain ⟨o, ho, hchain⟩ := Option.bind_eq_some_iff.mp hchain
        obtain ⟨rest, hrest, hchain⟩ := Option.bind_eq_some_iff.mp hchain
        split at hchain
        · cases hchain
        rename_i hnew
        cases hchain
        obtain ⟨⟨as, rfl⟩, ⟨stop, hpath⟩, hnodup, hall⟩ := ih hrest
        refine ⟨⟨cur :: as, rfl⟩, ⟨stop, rfl, o.next, nextOf_eq (hf.contents cur o ho), hpath⟩,
          List.nodup_cons.mpr ⟨hnew, hnodup⟩, List.forall_mem_cons.mpr ⟨hcur, hall⟩⟩

/-- What the client holds and has not released is as it was. -/
theorem Follows.release (hf : h.Follows env m) {pool : MemoryPool}
    (represents : pool.Represents env (cells ++ m.free)) (same : h.pool.SameOutside pool cells) :
    (h.observe pool).Follows env (m.release cells) where
  represents := represents
  capacity := same.capacity.trans hf.capacity
  contents := fun i o ho => by
    have ho : (if i ∈ cells then none else m.contents i) = some o := ho
    split at ho
    · cases ho
    · rename_i hi
      exact (same.slots i hi).trans (hf.contents i o ho)
  handed := hf.handed
  reports := same.reports.trans hf.reports

theorem Follows.allocate (hf : h.Follows env m) (hstep : m.step .allocate = some m') :
    (h.step env .allocate).Returns (fun h' => h'.Follows env m') := by
  have hrep := hf.represents
  simp only [Slots.step] at hstep
  split at hstep
  · rename_i hfree
    cases hstep
    rw [hfree] at hrep
    simp only [step, MemoryPool.allocate_exhausted hrep.toLinks, ok_bind, if_true]
    exact ⟨hf.represents, hf.capacity, hf.contents, hf.handed, hf.reports⟩
  · rename_i s free hfree
    cases hstep
    rw [hfree] at hrep
    have hvalid : s ≠ INVALID_INDEX :=
      Nat.ne_of_lt (hrep.lt_invalid (hrep.bound s List.mem_cons_self))
    refine (MemoryPool.allocate_spec hrep).bind ?_
    rintro ⟨idx, pool⟩ ⟨rfl, hpool, same⟩
    simp only [if_neg hvalid]
    refine ⟨hpool, same.capacity.trans hf.capacity, fun i o ho => ?_, ?_,
      same.reports.trans hf.reports⟩
    · have ho : (if i = idx then none else m.contents i) = some o := ho
      split at ho
      · cases ho
      · rename_i hi
        exact (same.slots i (List.mem_singleton.not.mpr hi)).trans (hf.contents i o ho)
    · exact congrArg (· ++ [idx]) hf.handed

theorem Follows.write (hf : h.Follows env m) {index : UInt32} {contents : Order}
    (hstep : m.step (.write index contents) = some m') :
    (h.step env (.write index contents)).Returns (fun h' => h'.Follows env m') := by
  have hrep := hf.represents
  simp only [Slots.step] at hstep
  split at hstep
  · rename_i hholds
    cases hstep
    have hlt : index.toNat < h.pool.capacity := hf.capacity ▸ hholds.1
    have hallocated : h.pool.isAllocated env index.toNat = .ok true := by
      by_cases htools : env.debugTools = true
      · rw [isAllocated_eq htools (hrep.stamps htools), decide_eq_true ⟨hlt, hholds.2⟩]
      · rw [isAllocated, if_pos hlt, if_neg htools]
    obtain ⟨old, hold⟩ := hrep.getElem? hlt
    simp only [step, hallocated, ok_bind, if_true]
    rw [vecWrite_eq (hrep.size ▸ hlt), ok_bind]
    have hwritten := (guarded_nil_iff.mpr hrep).write hholds.2 contents
    refine ⟨guarded_nil_iff.mp hwritten, hf.capacity, fun i o ho => ?_, hf.handed, hf.reports⟩
    refine (getElem?_set_slot hold contents).trans ?_
    have ho : Function.update m.contents index.toNat (some contents) i = some o := ho
    rw [Function.update_apply] at ho
    split at ho
    · rename_i hi
      rw [if_pos hi, ho]
    · rename_i hi
      rw [if_neg hi]
      exact hf.contents i o ho
  · cases hstep

theorem step_follows (hf : h.Follows env m) (call : PoolCall) (hstep : m.step call = some m') :
    (h.step env call).Returns (fun h' => h'.Follows env m') := by
  cases call with
  | allocate => exact hf.allocate hstep
  | deallocate index =>
      simp only [Slots.step] at hstep
      split at hstep
      · rename_i hholds
        cases hstep
        have hlt : index.toNat < h.pool.capacity := hf.capacity ▸ hholds.1
        refine (MemoryPool.deallocate_spec hf.represents hlt hholds.2).bind ?_
        rintro pool ⟨hpool, same⟩
        exact hf.release hpool same
      · cases hstep
  | deallocateChain head tail =>
      obtain ⟨cells, hchain, rfl⟩ := Option.map_eq_some_iff.mp hstep
      obtain ⟨⟨as, rfl⟩, ⟨stop, hpath⟩, hnodup, hholds⟩ := hf.chain hchain
      have hbound : ∀ s ∈ as ++ [tail.toNat], s < h.pool.capacity :=
        fun s hs => hf.capacity ▸ (hholds s hs).1
      refine (MemoryPool.deallocateChain_spec hf.represents hpath hnodup hbound
        (fun s hs => (hholds s hs).2)).bind ?_
      rintro pool ⟨hpool, same⟩
      have hreleased := hf.release hpool same
      exact ⟨hreleased.represents, hreleased.capacity, hreleased.contents, hreleased.handed,
        hreleased.reports⟩
  | write index contents => exact hf.write hstep

theorem start_follows (env : Env) (maxCapacity : Nat) : (start env maxCapacity).Returns
    (fun h => h.Follows env (.new (min maxCapacity kMaxPoolCapacity))) := by
  refine (MemoryPool.construct_spec env maxCapacity).bind ?_
  rintro p ⟨hrep, hcapacity, hreports⟩
  exact ⟨hcapacity ▸ hrep, hcapacity, fun i o ho => (by cases ho), rfl, hreports⟩

/-- A client that keeps the contract is handed the same slots in every build, in the order of
its own free list, never meets a fault, and finds in a slot what it has last written to it. -/
theorem contract_suffices {maxCapacity : Nat} {calls : List PoolCall}
    (h : Slots.run (min maxCapacity kMaxPoolCapacity) calls = some m) (env : Env) :
    (run env maxCapacity calls).Returns (fun h =>
      h.handed = m.handed ∧ h.pool.reports = [] ∧
      Path (nextOf h.pool.pool) h.pool.freeHead m.free INVALID_INDEX ∧
      h.pool.freeListDepth = .ok m.free.length ∧
      (∀ i o, m.contents i = some o → h.pool.pool[i]? = some o) ∧
      (env.debugTools = true → ∀ i, h.pool.isAllocated env i = .ok (decide (m.Holds i)))) := by
  refine (start_follows env maxCapacity).bind (fun h₀ hstart => ?_)
  refine (foldlM_follows hstart (fun _ _ _ call hf => step_follows hf call) h).mono ?_
  intro h' hf
  have hlinks := hf.represents.toLinks
  refine ⟨hf.handed, hf.reports, hlinks.path, hlinks.freeListDepth, hf.contents, ?_⟩
  intro htools i
  rw [isAllocated_eq htools (hf.represents.stamps htools), hf.capacity]
  rfl

theorem contract_suffices_small : ∃ m, Slots.run 2 [.allocate, .allocate,
      .write 0 { id := 7, next := 1 }, .deallocateChain 0 1] = some m ∧
    (run Env.skipping 2 [.allocate, .allocate, .write 0 { id := 7, next := 1 },
        .deallocateChain 0 1]).Returns (fun h =>
      h.handed = m.handed ∧ h.pool.reports = [] ∧
      Path (nextOf h.pool.pool) h.pool.freeHead m.free INVALID_INDEX ∧
      h.pool.freeListDepth = .ok m.free.length ∧
      (∀ i o, m.contents i = some o → h.pool.pool[i]? = some o) ∧
      (Env.skipping.debugTools = true →
        ∀ i, h.pool.isAllocated Env.skipping i = .ok (decide (m.Holds i)))) :=
  ⟨_, rfl, contract_suffices rfl Env.skipping⟩

end PoolHistory

end Hft
