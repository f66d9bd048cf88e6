import MatchingEngine.Machine.Bytes
import MatchingEngine.Properties.Capacity
import MatchingEngine.Properties.Differential
import MatchingEngine.Reference.FuzzDriver

/-!
# What the fuzz driver sees

No input makes the driver trap. Every script of calls in its domain is driven by an input,
and past the end of an input the script goes on with one call for ever.
-/

namespace Hft

open Machine Machine.Checked

theorem Twins.of_construct (env : Env) {args : Args} (accepted : args.Accepted) :
    ∃ b₀, OrderBook.construct env args = .ok b₀ ∧
      Twins env (args.geometry accepted) (b₀, StdOrderBook.construct args) := by
  obtain ⟨b₀, hnew, hready, -⟩ := returns_iff.mp (OrderBook.construct_spec env accepted)
  exact ⟨b₀, hnew, fun n => n, _, hready, StdOrderBook.construct_keeps accepted⟩

namespace FuzzDriver

/-! ## Reading the script -/

namespace Script

variable {s : Script}

theorem nextByte_of_getElem {byte : UInt8} (h : s.data[s.pos]? = some byte) :
    s.nextByte = (byte.toUInt32, ⟨s.data, s.pos + 1⟩) := by
  rw [nextByte, h]

theorem nextByte_at_end (h : s.size ≤ s.pos) :
    s.nextByte = ((UInt8.ofNat s.pos).toUInt32, s) := by
  have hnone : s.data[s.pos]? = none := List.getElem?_eq_none h
  have hmask : UInt32.ofNat (s.pos &&& 0xFF) = (UInt8.ofNat s.pos).toUInt32 := by
    rw [← UInt32.toNat_inj, UInt8.toNat_toUInt32, UInt8.toNat_ofNat',
      show (0xFF : Nat) = 2 ^ 8 - 1 from rfl, Nat.and_two_pow_sub_one_eq_mod]
    exact UInt32.toNat_ofNat_of_lt' (Nat.lt_trans (Nat.mod_lt _ (by decide)) (by decide))
  simp only [nextByte, hnone, hmask]

/-- Bytes that lie ahead are pushed one after the other. -/
theorem nextBytes_eq {bytes rest : List UInt8} {v : UInt32}
    (h : s.data.drop s.pos = bytes ++ rest) :
    s.nextBytes bytes.length v = (bytes.foldl pushByte v, ⟨s.data, s.pos + bytes.length⟩) := by
  induction bytes generalizing s v with
  | nil => rfl
  | cons byte bytes ih =>
      have hbyte : s.data[s.pos]? = some byte := by
        rw [← List.head?_drop, h]
        rfl
      have hrest : s.data.drop (s.pos + 1) = bytes ++ rest := by
        rw [← List.tail_drop, h]
        rfl
      simp only [List.length_cons, nextBytes, nextByte_of_getElem hbyte]
      rw [ih (s := ⟨s.data, s.pos + 1⟩) hrest]
      simp only [List.foldl_cons, pushByte, Nat.add_assoc, Nat.add_comm 1]

theorem nextBytes_at_end (h : s.size ≤ s.pos) (count : Nat) (v : UInt32) :
    s.nextBytes count v = ((List.replicate count (UInt8.ofNat s.pos)).foldl pushByte v, s) := by
  induction count generalizing v with
  | zero => rfl
  | succ count ih =>
      simp only [nextBytes, nextByte_at_end h, ih, List.replicate_succ, List.foldl_cons, pushByte]

theorem next_eq {w : UInt32} {rest : List UInt8} (h : s.data.drop s.pos = bigEndian w ++ rest) :
    s.next = (w, ⟨s.data, s.pos + 4⟩) := by
  rw [next, show 4 = (bigEndian w).length from rfl, nextBytes_eq h, foldl_bigEndian]

/-- Reading never goes past the end of the input. -/
theorem nextByte_pos (h : s.pos ≤ s.size) :
    s.nextByte.2.pos ≤ s.nextByte.2.size := by
  by_cases hend : s.pos < s.size
  · rw [nextByte_of_getElem (List.getElem?_eq_getElem hend)]
    exact hend
  · rw [nextByte_at_end (Nat.le_of_not_lt hend)]
    exact h

theorem nextBytes_pos (h : s.pos ≤ s.size) (count : Nat) (v : UInt32) :
    (s.nextBytes count v).2.pos ≤ (s.nextBytes count v).2.size := by
  induction count generalizing s v with
  | zero => exact h
  | succ count ih => exact ih (nextByte_pos h) _

theorem next_pos (h : s.pos ≤ s.size) : s.next.2.pos ≤ s.next.2.size := nextBytes_pos h 4 0

theorem call_pos (h : s.pos ≤ s.size) : s.call.2.pos ≤ s.call.2.size := by
  simp only [call]
  exact next_pos (next_pos (next_pos (next_pos h)))

/-- The call that comes again and again past the end of an input of this size. -/
def padding (size : Nat) : Call :=
  let word := (List.replicate 4 (UInt8.ofNat size)).foldl pushByte 0
  callOf word word word word

theorem call_at_end (h : s.pos = s.size) : s.call = (padding s.size, s) := by
  have hnext : s.next = ((List.replicate 4 (UInt8.ofNat s.size)).foldl pushByte 0, s) := by
    rw [next, nextBytes_at_end (Nat.le_of_eq h.symm), h]
  simp only [call, hnext]
  rfl

/-- The calls of the next operations. -/
def calls : (count : Nat) → Script → List Call
  | 0, _ => []
  | count + 1, s => s.call.1 :: calls count s.call.2

theorem calls_at_end (h : s.pos = s.size) (count : Nat) :
    s.calls count = List.replicate count (padding s.size) := by
  induction count with
  | zero => rfl
  | succ count ih => rw [calls, call_at_end h, ih, List.replicate_succ]

end Script

/-! ## The domain of the driver -/

/-- The calls that an operation can make. -/
inductive Drivable : Call → Prop
  | cancel {id : UInt32} (id_mem : 1 ≤ id.toNat ∧ id.toNat ≤ 400) : Drivable (.cancelOrder id)
  | market {id quantity : UInt32} {side : Side} (id_mem : 1 ≤ id.toNat ∧ id.toNat ≤ 400)
      (quantity_mem : 1 ≤ quantity.toNat ∧ quantity.toNat ≤ 50) :
      Drivable (.addOrder id .Market 0 quantity side)
  | limit {id price quantity : UInt32} {side : Side} (id_mem : 1 ≤ id.toNat ∧ id.toNat ≤ 400)
      (quantity_mem : 1 ≤ quantity.toNat ∧ quantity.toNat ≤ 50)
      (price_mem : 500 ≤ price.toNat ∧ price.toNat ≤ 2500) :
      Drivable (.addOrder id .Limit price quantity side)

/-- An offset below a span that fits does not wrap. -/
theorem offset_toNat {base w span : UInt32} (hspan : 0 < span.toNat)
    (hfits : base.toNat + span.toNat ≤ 2 ^ 32) :
    (base + w % span).toNat = base.toNat + w.toNat % span.toNat := by
  have hlt := Nat.mod_lt w.toNat hspan
  rw [UInt32.toNat_add, UInt32.toNat_mod]
  exact Nat.mod_eq_of_lt (by omega)

theorem callOf_drivable (chunk idWord qtyWord priceWord : UInt32) :
    Drivable (callOf chunk idWord qtyWord priceWord) := by
  have hid : (1 + idWord % ID_SPAN).toNat = 1 + idWord.toNat % 400 :=
    offset_toNat (by decide) (by decide)
  have hqty : (1 + qtyWord % 50).toNat = 1 + qtyWord.toNat % 50 :=
    offset_toNat (by decide) (by decide)
  have hprice : (MIN_P + priceWord % (MAX_P - MIN_P + 1)).toNat = 500 + priceWord.toNat % 2001 :=
    offset_toNat (by decide) (by decide)
  have hid' : 1 ≤ (1 + idWord % ID_SPAN).toNat ∧ (1 + idWord % ID_SPAN).toNat ≤ 400 := by omega
  have hqty' : 1 ≤ (1 + qtyWord % 50).toNat ∧ (1 + qtyWord % 50).toNat ≤ 50 := by omega
  unfold callOf
  simp only
  split
  · exact .cancel hid'
  · exact .market hid' hqty'
  · refine .limit hid' hqty' ?_
    omega

theorem Script.call_drivable (s : Script) : Drivable s.call.1 := by
  simp only [call]
  exact callOf_drivable _ _ _ _

theorem Script.calls_length (s : Script) (count : Nat) : (s.calls count).length = count := by
  induction count generalizing s with
  | zero => rfl
  | succ count ih => rw [calls, List.length_cons, ih]

theorem Script.calls_drivable {s : Script} {count : Nat} :
    ∀ call ∈ s.calls count, Drivable call := by
  induction count generalizing s with
  | zero => exact fun call hcall => absurd hcall List.not_mem_nil
  | succ count ih =>
      rw [calls]
      exact List.forall_mem_cons.mpr ⟨s.call_drivable, ih⟩

/-! ## No divergence -/

variable {env : Env} {g : Geometry} {engine : OrderBook} {ref : StdOrderBook}

@[simp] theorem assertEq64_self (a : Nat) (what : String) (op : Nat) :
    assertEq64 a a what op = .ok () := if_neg (not_not.mpr rfl)

theorem assertTrades_self (op : Nat) (trades : List Trade) :
    assertTrades op trades trades = .ok () := by
  induction trades with
  | nil => rfl
  | cons trade trades ih => simp only [assertTrades, assertEq64_self, ok_bind, ih]

/-- An operation with an id of the book makes the engine's step, and finds no difference. -/
theorem operate_spec (h : Twins env g (engine, ref)) (op : Nat) {call : Call}
    (hcall : ¬StdOrderBook.StrayCancel g.maxOrderId call) :
    (operate env op call engine ref).Returns (fun (reply, engine', ref') =>
      engine.step env call = .ok (reply, engine') ∧ Twins env g (engine', ref')) := by
  obtain ⟨⟨⟨reply, stdReply⟩, engine', ref'⟩, hlock, htwins, hreply⟩ :=
    returns_iff.mp (h.step call)
  rw [if_neg hcall] at hreply
  subst hreply
  obtain ⟨⟨reply', engine''⟩, hengine, hlock⟩ := bind_eq_ok_iff.mp hlock
  obtain ⟨⟨stdReply', ref''⟩, href, hlock⟩ := bind_eq_ok_iff.mp hlock
  simp only [pure_eq_ok, Except.ok.injEq, Prod.mk.injEq] at hlock
  obtain ⟨⟨rfl, rfl⟩, rfl, rfl⟩ := hlock
  simp only [operate, hengine, href, ok_bind, assertEq64_self, assertTrades_self,
    htwins.sameView.activeOrderCount, pure_eq_ok]
  exact ⟨rfl, htwins⟩

theorem Drivable.not_stray {call : Call} (h : Drivable call) :
    ¬StdOrderBook.StrayCancel args.maxOrderId.toNat call := by
  have hids : args.maxOrderId.toNat = 400 := rfl
  cases h with
  | cancel hid =>
      change ¬(_ = 0 ∨ _ > args.maxOrderId.toNat)
      omega
  | market hid _ => exact fun e => by cases e.1
  | limit hid _ _ => exact fun e => by cases e.1

theorem args_accepted : args.Accepted := by constructor <;> decide

/-- The loop runs the calls of the script on the engine, all of them. -/
theorem loop_spec {s : Script} (h : Twins env (args.geometry args_accepted) (engine, ref))
    (hpos : s.pos ≤ s.size) (left op : Nat) :
    (loop env left op s engine ref).Returns (fun replies =>
      ∃ b, engine.run env (s.calls left) = .ok (replies, b)) := by
  induction left generalizing op s engine ref with
  | zero => exact ⟨engine, rfl⟩
  | succ left ih =>
      have hcall := s.call_drivable
      have hnext := Script.call_pos hpos
      rw [loop, if_pos (Nat.add_le_add_right hpos 4), Script.calls]
      generalize s.call = first at hcall hnext ⊢
      obtain ⟨call, s'⟩ := first
      refine (operate_spec h op hcall.not_stray).bind ?_
      rintro ⟨reply, engine', ref'⟩ ⟨hstep, htwins⟩
      refine (ih htwins hnext (op + 1)).bind ?_
      rintro replies ⟨b, hrun⟩
      refine ⟨b, ?_⟩
      simp only [OrderBook.run, checkedRuns, hstep, ok_bind] at hrun ⊢
      rw [hrun, ok_bind, pure_eq_ok]

theorem llvmFuzzerTestOneInput_spec (env : Env) {data : List UInt8} (h : 16 ≤ data.length) :
    (llvmFuzzerTestOneInput env data).Returns (fun replies => ∃ b₀ b,
      OrderBook.construct env args = .ok b₀ ∧
        b₀.run env (Script.calls maxOps ⟨data, 0⟩) = .ok (replies, b)) := by
  obtain ⟨b₀, hnew, hstart⟩ := Twins.of_construct env args_accepted
  rw [llvmFuzzerTestOneInput, if_neg (Nat.not_lt.mpr h), hnew, ok_bind]
  have hpos : (Script.mk data 0).pos ≤ (Script.mk data 0).size := Nat.zero_le _
  generalize maxOps = left
  refine (loop_spec hstart hpos left 0).mono ?_
  rintro replies ⟨b, hrun⟩
  exact ⟨b₀, b, rfl, hrun⟩

theorem Drivable.within {call : Call} (h : Drivable call) :
    call.request.Within args.limits := by
  have hadmitted : ∀ id : UInt32, 1 ≤ id.toNat ∧ id.toNat ≤ 400 →
      args.limits.id id.toNat = true :=
    fun id hid => decide_eq_true ⟨Nat.ne_of_gt hid.1, hid.2⟩
  cases h with
  | cancel hid => exact hadmitted _ hid
  | market hid hquantity => exact ⟨Nat.ne_of_gt hquantity.1, hadmitted _ hid, rfl⟩
  | limit hid hquantity hprice =>
      exact ⟨Nat.ne_of_gt hquantity.1, hadmitted _ hid, decide_eq_true hprice⟩

/-- No input makes the driver trap. It compares all of its operations or none, and of the
reasons for a refusal it meets only those that are due to the orders at rest. -/
theorem finds_nothing (env : Env) (data : List UInt8) :
    (llvmFuzzerTestOneInput env data).Returns (fun replies =>
      replies.length = (if data.length < 16 then 0 else 512) ∧
      ∀ reply ∈ replies, reply.reason = .Accepted ∨ reply.reason = .DuplicateOrderId ∨
        reply.reason = .MarketOnEmptyBook ∨ reply.reason = .CancelFailed) := by
  by_cases hshort : data.length < 16
  · rw [llvmFuzzerTestOneInput, if_pos hshort, if_pos hshort]
    exact ⟨rfl, fun reply hreply => absurd hreply List.not_mem_nil⟩
  rw [if_neg hshort]
  refine (llvmFuzzerTestOneInput_spec env (Nat.le_of_not_lt hshort)).mono ?_
  rintro replies ⟨b₀, b, hnew, hrun⟩
  have hlength := checkedRuns_length hrun
  have hreasons := (OrderBook.run_circumstantial hnew (by decide)
    (fun call hcall => (Script.calls_drivable call hcall).within)).result hrun
  rw [hlength, Script.calls_length]
  exact ⟨rfl, hreasons⟩

/-! ## Every script of the domain is driven -/

/-- A word that stands for this type and side. -/
def chunkOf : OrderType → Side → UInt32
  | .Limit, .Buy => 0x8002
  | .Limit, .Sell => 0
  | .Market, .Buy => 0x8000
  | .Market, .Sell => 8
  | .Cancel, _ => 9

theorem typeOf_chunkOf (type : OrderType) (side : Side) : typeOf (chunkOf type side) = type := by
  cases type <;> cases side <;> decide

theorem sideOf_chunkOf {type : OrderType} (h : type ≠ .Cancel) (side : Side) :
    sideOf (chunkOf type side) = side := by
  cases type
  case Cancel => exact absurd rfl h
  all_goals cases side <;> decide

/-- The words an operation reads to make this call. -/
def words : Call → UInt32 × UInt32 × UInt32 × UInt32
  | .cancelOrder id => (chunkOf .Cancel .Buy, id - 1, 0, 0)
  | .addOrder id type price quantity side =>
      (chunkOf type side, id - 1, quantity - 1, price - MIN_P)

def encode (call : Call) : List UInt8 :=
  let (chunk, idWord, qtyWord, priceWord) := words call
  bigEndian chunk ++ (bigEndian idWord ++ (bigEndian qtyWord ++ bigEndian priceWord))

theorem encode_length (call : Call) : (encode call).length = 16 := rfl

theorem encode_flatMap_length (calls : List Call) :
    (calls.flatMap encode).length = 16 * calls.length := by
  induction calls with
  | nil => rfl
  | cons call calls ih =>
      rw [List.flatMap_cons, List.length_append, ih, encode_length, List.length_cons]
      omega

theorem offset_sub {base w span : UInt32} (hle : base.toNat ≤ w.toNat)
    (hlt : w.toNat < base.toNat + span.toNat) : base + (w - base) % span = w := by
  have hsub : (w - base).toNat = w.toNat - base.toNat := UInt32.toNat_sub_of_le _ _ hle
  have hw := w.toNat_lt
  rw [← UInt32.toNat_inj, UInt32.toNat_add, UInt32.toNat_mod, hsub,
    Nat.mod_eq_of_lt (by omega : w.toNat - base.toNat < span.toNat)]
  omega

theorem callOf_words {call : Call} (h : Drivable call) :
    callOf (words call).1 (words call).2.1 (words call).2.2.1 (words call).2.2.2 = call := by
  have hid : ∀ id : UInt32, 1 ≤ id.toNat ∧ id.toNat ≤ 400 → 1 + (id - 1) % ID_SPAN = id :=
    fun id hid => offset_sub hid.1 (Nat.lt_succ_of_le hid.2)
  have hqty : ∀ n : UInt32, 1 ≤ n.toNat ∧ n.toNat ≤ 50 → 1 + (n - 1) % 50 = n :=
    fun n hn => offset_sub hn.1 (Nat.lt_succ_of_le hn.2)
  have hprice : ∀ p : UInt32, 500 ≤ p.toNat ∧ p.toNat ≤ 2500 →
      MIN_P + (p - MIN_P) % (MAX_P - MIN_P + 1) = p :=
    fun p hp => offset_sub hp.1 (Nat.lt_succ_of_le hp.2)
  cases h with
  | cancel id_mem => simp only [words, callOf, typeOf_chunkOf, hid _ id_mem]
  | market id_mem quantity_mem =>
      simp only [words, callOf, typeOf_chunkOf, hid _ id_mem, hqty _ quantity_mem,
        sideOf_chunkOf (by decide : OrderType.Market ≠ .Cancel)]
  | limit id_mem quantity_mem price_mem =>
      simp only [words, callOf, typeOf_chunkOf, hid _ id_mem, hqty _ quantity_mem,
        hprice _ price_mem, sideOf_chunkOf (by decide : OrderType.Limit ≠ .Cancel)]

theorem Script.call_eq {s : Script} {call : Call} {rest : List UInt8} (hcall : Drivable call)
    (h : s.data.drop s.pos = encode call ++ rest) : s.call = (call, ⟨s.data, s.pos + 16⟩) := by
  have hahead : ∀ {pos : Nat} {w : UInt32} {tail : List UInt8},
      s.data.drop pos = bigEndian w ++ tail →
        (Script.mk s.data pos).next = (w, ⟨s.data, pos + 4⟩) ∧ s.data.drop (pos + 4) = tail := by
    intro pos w tail hdrop
    refine ⟨next_eq hdrop, ?_⟩
    rw [← List.drop_drop, hdrop]
    exact List.drop_left' rfl
  simp only [encode, List.append_assoc] at h
  obtain ⟨h₁, h⟩ := hahead h
  obtain ⟨h₂, h⟩ := hahead h
  obtain ⟨h₃, h⟩ := hahead h
  obtain ⟨h₄, -⟩ := hahead h
  simp only [Script.call, h₁, h₂, h₃, h₄, callOf_words hcall]

/-- The calls of an encoded list come back, and after them the padding. -/
theorem Script.calls_encode {s : Script} {calls : List Call}
    (hcalls : ∀ call ∈ calls, Drivable call) (hpos : s.pos ≤ s.size)
    (h : s.data.drop s.pos = calls.flatMap encode) (count : Nat) :
    s.calls (calls.length + count) = calls ++ List.replicate count (padding s.size) := by
  induction calls generalizing s with
  | nil =>
      have hend : s.pos = s.size := Nat.le_antisymm hpos (List.drop_eq_nil_iff.mp h)
      rw [List.length_nil, Nat.zero_add, List.nil_append]
      exact calls_at_end hend count
  | cons call calls ih =>
      have hcall := Script.call_eq (hcalls call List.mem_cons_self) h
      have hrest : s.data.drop (s.pos + 16) = calls.flatMap encode := by
        rw [← List.drop_drop, h]
        exact List.drop_left' (encode_length call)
      have hpos' : s.pos + 16 ≤ s.size := by
        have hlength := congrArg List.length h
        rw [List.length_drop, List.flatMap_cons, List.length_append, encode_length] at hlength
        exact Nat.add_le_of_le_sub' hpos (hlength ▸ Nat.le_add_right _ _)
      have htail := ih (s := ⟨s.data, s.pos + 16⟩)
        (fun call hcall => hcalls call (List.mem_cons_of_mem _ hcall)) hpos' hrest
      rw [List.length_cons, Nat.add_right_comm, Script.calls, hcall]
      exact congrArg (call :: ·) htail

/-- What the driver runs on an encoded list: the calls, and then the padding that belongs to
the length of the input. On the empty input it runs nothing. -/
def driven (calls : List Call) : List Call :=
  if calls = [] then []
  else calls ++ List.replicate (512 - calls.length) (Script.padding (16 * calls.length))

/-- Every list of calls in its domain is what the driver runs on some input, followed by
padding. -/
theorem drives_every_script (env : Env) {calls : List Call} (short : calls.length ≤ 512)
    (drivable : ∀ call ∈ calls, Drivable call) :
    (llvmFuzzerTestOneInput env (calls.flatMap encode)).Returns (fun replies => ∃ b₀ b,
      OrderBook.construct env args = .ok b₀ ∧
        b₀.run env (driven calls) = .ok (replies, b)) := by
  by_cases hempty : calls = []
  · subst hempty
    obtain ⟨b₀, hnew, -⟩ := Twins.of_construct env args_accepted
    exact ⟨b₀, b₀, hnew, rfl⟩
  rw [driven, if_neg hempty]
  have hlength := encode_flatMap_length calls
  have hpos := List.length_pos_iff.mpr hempty
  have hscript := Script.calls_encode (s := ⟨calls.flatMap encode, 0⟩) drivable (Nat.zero_le _)
    List.drop_zero (512 - calls.length)
  rw [Nat.add_sub_cancel' short, Script.size, hlength] at hscript
  refine (llvmFuzzerTestOneInput_spec env (by omega)).mono ?_
  rintro replies ⟨b₀, b, hnew, hrun⟩
  refine ⟨b₀, b, hnew, ?_⟩
  rw [← hscript]
  exact hrun

theorem drives_two_calls : ∃ calls : List Call,
    calls = [.addOrder 1 .Limit 500 5 .Buy, .addOrder 2 .Market 0 3 .Sell] ∧
    (llvmFuzzerTestOneInput .release (calls.flatMap encode)).Returns (fun replies => ∃ b₀ b,
      OrderBook.construct .release args = .ok b₀ ∧
        b₀.run .release (driven calls) = .ok (replies, b)) := by
  obtain ⟨calls, hcalls⟩ : ∃ calls : List Call,
      calls = [.addOrder 1 .Limit 500 5 .Buy, .addOrder 2 .Market 0 3 .Sell] := ⟨_, rfl⟩
  have hlength : calls.length = 2 := congrArg List.length hcalls
  have hdrivable : ∀ call ∈ calls, Drivable call := by
    intro call hcall
    simp only [hcalls, List.mem_cons, List.not_mem_nil, or_false] at hcall
    rcases hcall with rfl | rfl
    · exact .limit (by decide) (by decide) (by decide)
    · exact .market (by decide) (by decide)
  exact ⟨calls, hcalls, drives_every_script .release (by omega) hdrivable⟩

end FuzzDriver

end Hft
