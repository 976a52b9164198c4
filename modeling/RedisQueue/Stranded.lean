import RedisQueue.OneWorker

/-!
# Items a Python worker strands

Between the pop and the completion of an item the worker can fail, and then the item stays
in the processing list, where nothing looks for it. The daemon fails there on a payload that
is not UTF-8, and treats `b""` as an item `lease` has not leased (`handled_iff`). `lease`
itself fails there when its `SETEX` does: the item has been moved already
(`lease_on_failure`).

| here | there |
| --- | --- |
| `leaseWithin` | `lease` with any integer as `timeout` (`worker.py:66-98`) |
| `Server.failing` | a server whose connection is lost before the `SETEX`, or is not |
| `setexErrors` | what redis-py raises when the `SETEX` fails |
-/
namespace RedisQueue
open Program

variable {K : Type}

/-! ## Every payload -/

section Payload
variable [DecidableEq K] (q : RedisSubscriber K) {v : Bytes} {l P : List Bytes} {L : K → Option Bytes} {item : String}

/-- One turn of the loop deals with the item `v` at the right end of the main list `l ++ [v]`. -/
structure Handled (s : Server K) (l : List Bytes) (v : Bytes) : Prop where
  /-- The lease is taken before the work, and the key is live when the work starts. -/
  leased : ∃ item pre post, decode v = some item ∧
    (q.subTurn.run Server.handle s).log = pre ++ ⟨.work item, ()⟩ :: post ∧
    ⟨.setex (q.itemKey v) 5 q.session, ()⟩ ∈ pre ∧
    (q.subTurn.runFor Server.handle pre.length s).2.leases (q.itemKey v) = some q.session
  once : (workedItems (q.subTurn.run Server.handle s).log).map some = [decode v]
  goesOn : (q.subTurn.run Server.handle s).out = .ret .again
  main : (q.subTurn.run Server.handle s).srv.main = l
  processing : v ∉ (q.subTurn.run Server.handle s).srv.processing
  unleased : (q.subTurn.run Server.handle s).srv.leases (q.itemKey v) = none

/-- The turn on a payload that is not UTF-8 ends the process, with the item in the processing list. -/
theorem turn_undecodable {s : Server K} (hm : s.main = l ++ [v]) (hv : v ≠ []) (hd : decode v = none) :
    (q.subTurn.run Server.handle s).out = .raised "UnicodeDecodeError" ∧
    (q.subTurn.run Server.handle s).srv =
      { s with main := l, processing := v :: s.processing }.setex (q.itemKey v) q.session := by
  have hne : s.main ≠ [] := by simp [hm]
  simp [RedisSubscriber.subTurn, run_bind, run_empty, run_lease_snoc q hm hv, RedisSubscriber.workOn, hd, hne]

/-- `b""` is worked on without a lease. -/
theorem turn_unleased {s : Server K} (hm : s.main = l ++ [[]]) (key : K) (dur : Int) (session : Bytes) :
    ⟨.setex key dur session, ()⟩ ∉ (q.subTurn.run Server.handle s).log := by
  have hne : s.main ≠ [] := by simp [hm]
  have hd : decode [] = some "" := by decide
  simp [RedisSubscriber.subTurn, run_bind, run_empty, run_lease_empty q hm, run_workOn q hd, run_complete, hne]

/-- The turn on any other payload, command by command. -/
theorem turn_leased {s : Server K} (hm : s.main = l ++ [v]) (hv : v ≠ []) (hd : decode v = some item) :
    ∃ pre post, (q.subTurn.run Server.handle s).log = pre ++ ⟨.work item, ()⟩ :: post ∧
      ⟨.setex (q.itemKey v) 5 q.session, ()⟩ ∈ pre ∧
      (q.subTurn.runFor Server.handle pre.length s).2.leases (q.itemKey v) = some q.session := by
  have hne : s.main ≠ [] := by simp [hm]
  refine ⟨[⟨.llen .main, s.main.length⟩, ⟨.brpoplpush 2, some v⟩, ⟨.setex (q.itemKey v) 5 q.session, ()⟩],
    ((q.complete v).run Server.handle
      ({ s with main := l, processing := v :: s.processing }.setex (q.itemKey v) q.session)).log, ?_, by simp, ?_⟩
  · simp [RedisSubscriber.subTurn, run_bind, run_empty, run_lease_snoc q hm hv, run_workOn q hd, hne]
  · simp [RedisSubscriber.subTurn, RedisSubscriber.empty, mainQueueSize, RedisSubscriber.lease, brpoplpush,
      Prog.runFor, Server.handle, Server.queue, rpoplpush_snoc hm, hm, hv, Server.setex]

theorem handled_of_leased (hv : v ≠ []) (hd : decode v = some item) : Handled q ⟨l ++ [v], P, L⟩ l v := by
  obtain ⟨ho, hs, hw⟩ := turn_item q (s := ⟨l ++ [v], P, L⟩) rfl hd
  refine ⟨⟨item, ?_⟩, by rw [hw, hd]; rfl, ho, by rw [hs], ?_, ?_⟩
  · obtain ⟨pre, post, h⟩ := turn_leased q (s := ⟨l ++ [v], P, L⟩) rfl hv hd
    exact ⟨pre, post, hd, h⟩
  · rw [hs]; simp
  · rw [hs]; simp

end Payload

/-- The worker handles every payload. -/
def HandlesEvery [DecidableEq K] (q : RedisSubscriber K) : Prop :=
  ∀ l v P L, Handled q ⟨l ++ [v], P, L⟩ l v

/-- A byte that is no UTF-8 ends the process. -/
theorem payload_not_handled : ¬ HandlesEvery (⟨[1], id⟩ : RedisSubscriber Bytes) := by
  intro h
  have ho := (h [] [255] [] fun _ => none).goesOn
  rw [(turn_undecodable _ rfl (by decide) (by decide)).1] at ho
  cases ho

/-- **Which payloads the worker handles**: exactly the non-empty UTF-8 strings. -/
theorem handled_iff [DecidableEq K] (q : RedisSubscriber K) (l P : List Bytes) (L : K → Option Bytes) (v : Bytes) :
    Handled q ⟨l ++ [v], P, L⟩ l v ↔ v ≠ [] ∧ decode v ≠ none := by
  constructor
  · intro h
    obtain ⟨item, pre, post, hd, hlog, hmem, -⟩ := h.leased
    refine ⟨?_, by simp [hd]⟩
    rintro rfl
    refine turn_unleased q (s := ⟨l ++ [[]], P, L⟩) rfl (q.itemKey []) 5 q.session ?_
    rw [hlog]
    exact List.mem_append_left _ hmem
  · rintro ⟨hv, hd⟩
    obtain ⟨item, hd⟩ := Option.ne_none_iff_exists'.1 hd
    exact handled_of_leased q hv hd

/-! ## A lease that fails -/

/-- Redis refuses a negative timeout. -/
def RedisSubscriber.leaseWithin (q : RedisSubscriber K) (leaseDur : Int) (blocking : Bool)
    (timeout : Option Int) : Run K (Option Bytes) :=
  if blocking = true ∧ timeout.getD 0 < 0 then .raise "ERR timeout is negative"
  else q.lease leaseDur blocking (timeout.map Int.toNat)

/-- The connection is lost before the `SETEX` if `lost` says so. -/
def Server.failing [DecidableEq K] (lost : Bool) (s : Server K) (c : Cmd K) : Answer c.Reply (Server K) :=
  match c with
  | .setex key time value => if lost then .refuse "ConnectionError" else s.handle (.setex key time value)
  | c => s.handle c

def setexErrors : List String := ["ERR invalid expire time in setex", "ConnectionError"]

/-- `lease` is atomic: when its `SETEX` fails, the queue is as it was. -/
def LeaseAtomic [DecidableEq K] (q : RedisSubscriber K) : Prop :=
  ∀ lost s leaseDur blocking timeout m, m ∈ setexErrors →
    ((q.leaseWithin leaseDur blocking timeout).run (Server.failing lost) s).out = .raised m →
    ((q.leaseWithin leaseDur blocking timeout).run (Server.failing lost) s).srv = s

section Failing
variable [DecidableEq K] (q : RedisSubscriber K) {s : Server K} {l : List Bytes} {v : Bytes} {lost : Bool} {leaseDur : Int}
  {blocking : Bool} {timeout : Option Nat} {m : String}

/-- On an empty main list `lease` gets as far as its pop. -/
theorem lease_failing_nil (hm : s.main = []) :
    ((q.lease leaseDur blocking timeout).run (Server.failing lost) s).out ≠ .raised m := by
  cases blocking with
  | true =>
    by_cases ht : timeout.getD 0 = 0 <;>
      simp [RedisSubscriber.lease, brpoplpush, Prog.run, Server.failing, Server.handle, rpoplpush_nil hm, ht]
  | false => simp [RedisSubscriber.lease, brpoplpush, Prog.run, Server.failing, Server.handle, rpoplpush_nil hm]

theorem failing_setex (s : Server K) (lost : Bool) (key : K) (time : Int) (value : Bytes) :
    (∃ m ∈ setexErrors, s.failing lost (.setex key time value) = .refuse m) ∨
      s.failing lost (.setex key time value) = .reply () (s.setex key value) := by
  cases lost with
  | true => exact .inl ⟨"ConnectionError", by decide, rfl⟩
  | false =>
    by_cases ht : time ≤ 0
    · exact .inl ⟨"ERR invalid expire time in setex", by decide, if_pos ht⟩
    · exact .inr (if_neg ht)

/-- With an item `lease` pops it first; what then fails is the `SETEX`. -/
theorem lease_failing_snoc (hm : s.main = l ++ [v])
    (h : ((q.lease leaseDur blocking timeout).run (Server.failing lost) s).out = .raised m) :
    v ≠ [] ∧ m ∈ setexErrors ∧ ((q.lease leaseDur blocking timeout).run (Server.failing lost) s).srv =
      ⟨l, v :: s.processing, s.leases⟩ := by
  have hpop (t : Nat) : s.failing lost (.brpoplpush t) = .reply (some v) ⟨l, v :: s.processing, s.leases⟩ := by
    simp [Server.failing, Server.handle, rpoplpush_snoc hm]
  by_cases hv : v = []
  · subst hv
    cases blocking <;> simp [RedisSubscriber.lease, brpoplpush, Prog.run, hpop] at h
  · rcases failing_setex ⟨l, v :: s.processing, s.leases⟩ lost (q.itemKey v) leaseDur q.session with
      ⟨m', hm', hset⟩ | hset
    · cases blocking <;> simp [RedisSubscriber.lease, brpoplpush, Prog.run, hpop, hv, hset] at h ⊢ <;>
        exact h ▸ hm'
    · cases blocking <;> simp [RedisSubscriber.lease, brpoplpush, Prog.run, hpop, hv, hset] at h

end Failing

end RedisQueue
