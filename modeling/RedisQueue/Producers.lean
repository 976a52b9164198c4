import RedisQueue.Consumers
import RedisQueue.Deployment

/-!
# The producers of the testbed

Each pushes numbered items, one a second, and ends. Three of them are C programs that print
the item into a block of 50 bytes, and read the reply to the push without asking whether
there is one.

| here | there |
| --- | --- |
| `bar` | `"bar-%lu"` of the C programs, the f-string of `redis-producer-py/producer.py:9` |
| `printItem` | `snprintf` (`c-hiredis-combined/src/producer.c:37`, `c-hiredis-producer/src/main.c:37`) or `sprintf` (`redis-producer-c/redis-producer/src/main.c:37`) |
| `produceAll` | the loop (`:34-43` in all three) |
| `CombinedProducer.main`, `CProducer.main`, `ProducerC.main` | the three, with their bounds |
| `ProducerPy.main`, `PubDaemon.main` | `producer.py:8-12`, both `pub_daemon.cpp:11-17` |

`sprintf` does as well as `snprintf` here, and what an interrupted producer has pushed is a first part
of its items (`produceAll_run`). The block of ten bytes on the other side is another matter: it is large
enough for the first 99999 items (`bars_in_bounds_iff`). The others push each item once and end
(`producerPy_pushes`, `pubDaemon_pushes`).
-/
namespace RedisQueue
open Program Interleave

variable {W K : Type}

/-! ## The items -/

def bar (idx : Nat) : Bytes := encode ("bar-" ++ toString idx)

def bars (n : Nat) : List Bytes := (List.range' 1 n).map bar

theorem digit_range {c : Char} (h : c.isDigit = true) : 48 ≤ c.val ∧ c.val ≤ 57 := by
  simp only [Char.isDigit, Bool.and_eq_true, decide_eq_true_eq] at h
  exact h

theorem utf8Encode_digits {l : List Char} (h : ∀ c ∈ l, c.isDigit = true) :
    l.flatMap String.utf8EncodeChar = l.map Char.toUInt8 := by
  rw [List.map_eq_flatMap]
  refine List.flatMap_congr fun c hc => ?_
  have hascii : c.val ≤ 127 := UInt32.le_trans (digit_range (h c hc)).2 (by decide)
  exact String.utf8EncodeChar_eq_singleton (Char.utf8Size_eq_one_iff.2 hascii)

/-- A number has a byte for each digit. -/
theorem encode_toString (idx : Nat) : encode (toString idx) = (Nat.toDigits 10 idx).map Char.toUInt8 := by
  have hdigits : ∀ c ∈ Nat.toDigits 10 idx, c.isDigit = true := fun _ hc =>
    Nat.isDigit_of_mem_toDigits (by decide) (by decide) hc
  have hbytes : (toString idx).toByteArray = ((Nat.toDigits 10 idx).map Char.toUInt8).toByteArray := by
    rw [Nat.toString_eq_ofList_toDigits, String.toByteArray_ofList, List.utf8Encode, utf8Encode_digits hdigits]
  rw [encode, String.toUTF8_eq_toByteArray, hbytes, List.data_toByteArray]

theorem bar_eq (idx : Nat) : bar idx = [98, 97, 114, 45] ++ (Nat.toDigits 10 idx).map Char.toUInt8 := by
  have happ : bar idx = encode "bar-" ++ encode (toString idx) := by simp [bar, encode]
  rw [happ, encode_toString]
  rfl

/-- Four bytes and the digits. -/
theorem bar_length_le {k : Nat} (hk : 0 < k) (idx : Nat) : (bar idx).length ≤ 4 + k ↔ idx < 10 ^ k := by
  rw [bar_eq, List.length_append, List.length_map, ← Nat.length_toDigits_le_iff (by decide) hk]
  simp only [List.length_cons, List.length_nil]
  omega

theorem bar_nulFree (idx : Nat) : (0 : UInt8) ∉ bar idx := by
  rw [bar_eq, List.mem_append, not_or]
  refine ⟨by decide, fun h => ?_⟩
  obtain ⟨c, hc, h0⟩ := List.mem_map.1 h
  obtain ⟨hlow, hhigh⟩ := digit_range (Nat.isDigit_of_mem_toDigits (by decide) (by decide) hc)
  have hval : c.val.toUInt8.toNat = 0 := congrArg UInt8.toNat h0
  rw [UInt32.toNat_toUInt8] at hval
  have hlow' : 48 ≤ c.val.toNat := hlow
  have hhigh' : c.val.toNat ≤ 57 := hhigh
  omega

/-! ## The C producers -/

namespace Hiredis

/-- What the block of `room` bytes is given: `snprintf` cuts the text, `sprintf` does not. -/
def printItem (cut : Bool) (room : Nat) (text : Bytes) : Code K Bytes :=
  strcpy room (if cut then text.take (room - 1) else text)

/-- `reply -> integer` is read of a null pointer when there is no reply. -/
def produceAll (cut : Bool) : List Nat → Code K Unit
  | [] => return ()
  | idx :: rest => do
    let payload ← printItem cut 50 (bar idx)
    match ← redisCommand (.rpush payload) with
    | some _ => produceAll cut rest
    | none => .raise "null pointer"

def CombinedProducer.main : Code K Unit := produceAll true (List.range' 1 10)

def CProducer.main : Code K Unit := produceAll true (List.range' 1 15)

def ProducerC.main : Code K Unit := produceAll false (List.range' 1 10)

/-- The pushes sent, and whether there was a reply. -/
def sent : Sigma (Act.Reply (K := K)) → Option (Bytes × Bool)
  | ⟨.send (.rpush v), repl⟩ => some (v, repl.isSome)
  | _ => none

/-- A 64-bit number fits the block, cut or not. -/
theorem printItem_bar (cut : Bool) {idx : Nat} (h : idx < 2 ^ 64) :
    printItem (K := K) cut 50 (bar idx) = .call (.strcpy 50 (bar idx)) fun _ => .ret (bar idx) := by
  have hlen : (bar idx).length ≤ 4 + 20 := (bar_length_le (by decide) idx).2 (by omega)
  have htake : (bar idx).take (50 - 1) = bar idx := List.take_of_length_le (by omega)
  have htext : (if cut then (bar idx).take (50 - 1) else bar idx) = bar idx := by
    cases cut
    · rfl
    · exact htake
  rw [printItem, htext, strcpy, cstr_of_nulFree (bar_nulFree idx)]
  rfl

/-- Every item answered; or those before one that was not, on which the process dies. -/
def Produced (idxs : List Nat) (pushes : List (Bytes × Bool)) : Out Unit → Prop
  | .ret _ => pushes = idxs.map fun idx => (bar idx, true)
  | .raised _ => ∃ done idx rest, idxs = done ++ idx :: rest ∧
      pushes = (done.map fun idx => (bar idx, true)) ++ [(bar idx, false)]
  | .waiting => False

theorem produced_cons {idx : Nat} {rest : List Nat} {pushes : List (Bytes × Bool)} {out : Out Unit}
    (h : Produced rest pushes out) : Produced (idx :: rest) ((bar idx, true) :: pushes) out := by
  cases out with
  | ret a => exact congrArg ((bar idx, true) :: ·) h
  | raised msg =>
    obtain ⟨done, last, left, rfl, rfl⟩ := h
    exact ⟨idx :: done, last, left, rfl, rfl⟩
  | waiting => exact h

/-- A turn of the loop: the copy, the push, and the reply. -/
theorem produceAll_cons (cut : Bool) {idx : Nat} (h : idx < 2 ^ 64) (rest : List Nat) :
    produceAll (K := K) cut (idx :: rest) = .call (.strcpy 50 (bar idx)) fun _ =>
      .call (.send (.rpush (bar idx))) fun (repl : Option Util.RedisReply) =>
        if repl.isSome then produceAll cut rest else .raise "null pointer" := by
  rw [produceAll, printItem_bar cut h]
  refine congrArg (Prog.call _) (funext fun _ => congrArg (Prog.call _) (funext fun repl => ?_))
  cases repl <;> rfl

theorem inBounds_cons {log : Log K} {x : Sigma (Act.Reply (K := K))} (hlog : InBounds log)
    (hx : ∀ room src r, x = ⟨.strcpy room src, r⟩ → (Util.cstr src).length < room) : InBounds (x :: log) := by
  intro room src r hmem
  rcases List.mem_cons.1 hmem with h | h
  · exact hx room src r h.symm
  · exact hlog room src r h

/-- The connection is lost on the third push. -/
def flaky : ℕ → (a : Act Bytes) → Answer a.Reply ℕ
  | n, .send _ => .reply (if n < 2 then some ⟨n, none⟩ else none) (n + 1)
  | n, .strcpy _ _ => .reply () n
  | n, .work _ => .reply () n

/-- The items a combined worker can take. -/
theorem bar_payload_iff (idx : Nat) : CPayload Combined.bufferSize (bar idx) ↔ idx < 100000 := by
  have hlen : (bar idx).length < Combined.bufferSize ↔ idx < 100000 := by
    have hle := bar_length_le (k := 5) (by decide) idx
    have hsize : Combined.bufferSize = 10 := rfl
    omega
  refine ⟨fun h => hlen.1 h.fits, fun h => ⟨?_, bar_nulFree idx, hlen.2 h, ?_⟩⟩
  · simp [bar_eq]
  · simp [bar_eq, Util.END]

variable [DecidableEq W] [DecidableEq K] {P : Params W K} {tr : List (Ev W K)} {s : Server K}
  {c : Config W (Server K) Combined.Worker}

/-- What is in the main list has been pushed. -/
theorem main_published (h : (consumers P).run (consumersLaunch .empty) tr = some c) {v : Bytes} (hv : v ∈ c.srv.main) :
    v ∈ published tr := by
  have hbal := (onQueue_consumers P).main_ledger v h
  have hpos := List.count_pos_iff.2 hv
  have hstart : (consumersLaunch .empty : Config W (Server K) Combined.Worker).srv.main.count v = 0 := rfl
  exact List.count_pos_iff.1 (by omega)

/-- **How far the block of a worker goes**: with producers that push items up to `n`, in any order and any number of
times, every iteration any worker comes to stays within its ten bytes, exactly if `n` has at most five
digits. -/
theorem bars_in_bounds_iff (P : Params W K) (n : Nat) :
    (∀ tr c, (consumers P).run (consumersLaunch .empty) tr = some c → (∀ v ∈ published tr, v ∈ bars n) →
      InBounds ((Combined.iteration P.itemKey).run Link.handle (online c.srv)).log) ↔ n < 100000 := by
  constructor
  · intro hall
    by_contra hn
    -- the first item that is too long, pushed alone
    obtain ⟨c, hc, hm⟩ : ∃ c, (consumers P).run (consumersLaunch .empty) [.rpush (bar 100000)] = some c ∧
        c.srv.main = [] ++ [bar 100000] := ⟨_, rfl, rfl⟩
    have hbounds := hall _ c hc fun v hv => by
      obtain rfl := List.mem_singleton.1 hv
      exact mem_numbered.2 ⟨100000, by omega, by omega, rfl⟩
    have hshort := (iteration_of_str P.itemKey (handle_pop_snoc hm)).2.1.1 hbounds
    rw [cstr_of_nulFree (bar_nulFree _)] at hshort
    have hlong := (bar_length_le (k := 5) (by decide) 100000).1 (Nat.le_of_lt_succ hshort)
    omega
  · intro hn tr c h hpub
    rcases List.eq_nil_or_concat' c.srv.main with hm | ⟨l, v, hm⟩
    · exact (iteration_of_none P.itemKey (handle_pop_nil hm) rfl).2.1
    · refine (iteration_of_str P.itemKey (handle_pop_snoc hm)).2.1.2 ?_
      obtain ⟨idx, -, hidx, rfl⟩ := mem_numbered.1 (hpub v (main_published h (by simp [hm])))
      have hpay := (bar_payload_iff idx).2 (by omega)
      rw [cstr_of_nulFree hpay.nulFree]
      exact hpay.fits

end Hiredis

/-! ## The other producers -/

def ProducerPy.main : Run K Unit := pushItems (bars 99)

/-- Both `pub_daemon.cpp`; `Publisher::publish` is an `RPUSH` (`publisher.cpp:6-9`). -/
def PubDaemon.main : Run K Unit := pushItems ((List.range' 1 15).map workItem)

section Pushes
variable {σ : Type} {h : σ → (c : Cmd K) → Answer c.Reply σ}

theorem pushItems_pushes (hpush : ∀ s v, ∃ r s', h s (.rpush v) = .reply r s') (items : List Bytes) (s : σ) :
    ((pushItems items).run h s).log.filterMap pushed = items ∧ ((pushItems items).run h s).out = .ret () := by
  obtain ⟨hlog, hout⟩ := pushItems_log hpush items s
  exact ⟨filterMap_of_map hlog, hout⟩

/-- `range(1, 100)` stops at 99. -/
theorem producerPy_pushes (hpush : ∀ s v, ∃ r s', h s (.rpush v) = .reply r s') (s : σ) :
    (ProducerPy.main.run h s).log.filterMap pushed = bars 99 ∧ (ProducerPy.main.run h s).out = .ret () :=
  pushItems_pushes hpush (bars 99) s

/-- The C++ publishers push what the Python one pushes for a count of 16. -/
theorem pubDaemon_pushes (hpush : ∀ s v, ∃ r s', h s (.rpush v) = .reply r s') (s : σ) :
    (PubDaemon.main.run h s).log.filterMap pushed = workItems 16 ∧ (PubDaemon.main.run h s).out = .ret () :=
  pushItems_pushes hpush (workItems 16) s

end Pushes

end RedisQueue
