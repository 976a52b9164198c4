import Mathlib.Data.List.Nodup
import Mathlib.Data.List.Range
import RedisQueue.Worker

/-!
# The publisher Job

The `pub` action pushes numbered items and exits; the Job that runs it starts it again from
the beginning whenever it fails, so that what an attempt has pushed before it crashed is
pushed again.

| here | there |
| --- | --- |
| `itemName`, `encode` | the f-string, and how redis-py sends it (`publisher.py:21`) |
| `publish`, `pushItems` | `RedisPublisher.publish` (`publisher.py:18-22`), called by `daemon.py:28` |
| `Prog.restarted` | `restartPolicy: OnFailure` (`publisher-job.yaml:14`), with the crashes given |

`range(1, count)` stops before `count` (`exactlyOnce_iff`), and a restart that follows a push
pushes a payload twice (`pushes_nodup_iff`), which `complete` then takes for one.
-/
namespace RedisQueue
open Program

variable {K : Type}

def itemName (idx : Nat) : String := "WorkItem-" ++ toString idx

def encode (s : String) : Bytes := s.toUTF8.data.toList

def workItem (idx : Nat) : Bytes := encode (itemName idx)

/-- The body of the loop, for the numbers given. -/
def pushAll : List Nat → Run K Unit
  | [] => return ()
  | idx :: rest => do
    let _ ← redis (.rpush (workItem idx))
    pushAll rest

def publish (count : Nat) : Run K Unit := pushAll (List.range' 1 (count - 1))

/-- The same loop, for the payloads given. -/
def pushItems : List Bytes → Run K Unit
  | [] => return ()
  | v :: left => do
    let _ ← redis (.rpush v)
    pushItems left

theorem pushAll_eq : ∀ idxs : List Nat, pushAll (K := K) idxs = pushItems (idxs.map workItem)
  | [] => rfl
  | idx :: idxs => by
    simp only [pushAll, pushItems, List.map_cons, pushAll_eq idxs]

/-! ## Item names -/

theorem encode_injective : Function.Injective encode := by
  intro s t h
  have harr : s.toUTF8.data = t.toUTF8.data := Array.toList_inj.1 h
  exact String.toByteArray_inj.1 (ByteArray.ext harr)

theorem itemName_injective : Function.Injective itemName := by
  intro i j h
  have hdigits : toString i = toString j := by
    have hl := congrArg String.toList h
    simp only [itemName, String.toList_append] at hl
    exact String.toList_inj.1 (List.append_cancel_left hl)
  have hnum := congrArg (fun s : String => Nat.ofDigitChars 10 s.toList 0) hdigits
  simpa [Nat.toString_eq_ofList_toDigits] using hnum

/-- Different numbers make different payloads. -/
theorem workItem_injective : Function.Injective workItem := encode_injective.comp itemName_injective

/-! ## What is pushed -/

def pushed : Sigma (Cmd.Reply (K := K)) → Option Bytes
  | ⟨.rpush v, _⟩ => some v
  | _ => none

/-- The payloads of a run of `publish`. -/
def workItems (count : Nat) : List Bytes := (List.range' 1 (count - 1)).map workItem

theorem publish_eq (count : Nat) : publish (K := K) count = pushItems (workItems count) := pushAll_eq _

section Job
variable {σ : Type} {h : σ → (c : Cmd K) → Answer c.Reply σ} {count : Nat} {kills : List Nat}

/-- The payloads are pushed in order, and the loop ends. -/
theorem pushItems_log (hpush : ∀ s v, ∃ r s', h s (.rpush v) = .reply r s') : ∀ (items : List Bytes) (s : σ),
    ((pushItems items).run h s).log.map pushed = items.map some ∧ ((pushItems items).run h s).out = .ret () := by
  intro items
  induction items with
  | nil => intro s; exact ⟨rfl, rfl⟩
  | cons v rest ih =>
    intro s
    obtain ⟨r, s', hr⟩ := hpush s v
    obtain ⟨hlog, hout⟩ := ih s'
    have hrun : (pushItems (K := K) (v :: rest)).run h s = ⟨⟨.rpush v, r⟩ :: ((pushItems rest).run h s').log,
        ((pushItems rest).run h s').srv, ((pushItems rest).run h s').out⟩ :=
      run_reply h (k := fun _ => pushItems rest) hr
    rw [hrun]
    exact ⟨by rw [List.map_cons, hlog]; rfl, hout⟩

theorem pushAll_log (hpush : ∀ s v, ∃ r s', h s (.rpush v) = .reply r s') (idxs : List Nat) (s : σ) :
    ((pushAll idxs).run h s).log.map pushed = (idxs.map workItem).map some ∧
    ((pushAll idxs).run h s).out = .ret () := by
  rw [pushAll_eq]
  exact pushItems_log hpush _ s

/-- The last attempt finishes. -/
theorem publish_returns (hpush : ∀ s v, ∃ r s', h s (.rpush v) = .reply r s') (s : σ) :
    ((publish count).run h s).out = .ret () :=
  (pushAll_log hpush _ s).2

theorem publish_log (hpush : ∀ s v, ∃ r s', h s (.rpush v) = .reply r s') (s : σ) :
    ((publish count).run h s).log.map pushed = (workItems count).map some := by
  exact (pushAll_log hpush _ s).1

theorem filterMap_of_map {α β : Type} {f : α → Option β} {l : List α} {l' : List β}
    (he : l.map f = l'.map some) : l.filterMap f = l' := by
  have hall := congrArg (List.filterMap id) he
  simpa [List.filterMap_map, Function.comp_def] using hall

/-- **The whole Job**: what the crashed attempts pushed, and then everything. -/
theorem pushed_restarted (hpush : ∀ s v, ∃ r s', h s (.rpush v) = .reply r s') (count : Nat) :
    ∀ (kills : List Nat) (s : σ), ((publish count).restarted h kills s).1.filterMap pushed =
      kills.flatMap (fun n => (workItems count).take n) ++ workItems count := by
  intro kills
  induction kills with
  | nil => intro s; exact filterMap_of_map (publish_log hpush s)
  | cons n kills ih =>
    intro s
    have hcut : (((publish count).run h s).log.take n).filterMap pushed = (workItems count).take n :=
      filterMap_of_map (by rw [List.map_take, publish_log hpush, List.map_take])
    rw [Prog.restarted, List.filterMap_append, runFor_log, hcut, ih, List.flatMap_cons, List.append_assoc]

end Job

/-- The payloads pushed are `WorkItem-1`, ..., `WorkItem-count`, each once. -/
structure ExactlyOnce (count : Nat) (pushes : List Bytes) : Prop where
  perm : pushes.Perm ((List.range' 1 count).map workItem)
  distinct : pushes.Nodup

/-- The items numbered 1 to `n`. -/
theorem mem_numbered {f : Nat → Bytes} {n : Nat} {v : Bytes} :
    v ∈ (List.range' 1 n).map f ↔ ∃ idx, 1 ≤ idx ∧ idx ≤ n ∧ f idx = v := by
  simp only [List.mem_map, List.mem_range'_1]
  refine exists_congr fun idx => ?_
  rw [← and_assoc]
  refine and_congr_left' ?_
  omega

theorem workItems_nodup (count : Nat) : (workItems count).Nodup :=
  (List.nodup_range' ..).map workItem_injective

/-- The last item is never pushed. -/
theorem last_not_pushed {count : Nat} (kills : List Nat) : workItem count ∉
    kills.flatMap (fun n => (workItems count).take n) ++ workItems count := by
  have hlast : workItem count ∉ workItems count := by
    intro hmem
    obtain ⟨idx, hpos, hle, hidx⟩ := mem_numbered.1 hmem
    exact absurd (workItem_injective hidx) (by omega)
  rw [List.mem_append, List.mem_flatMap, not_or]
  exact ⟨fun ⟨n, _, hmem⟩ => hlast (List.mem_of_mem_take hmem), hlast⟩

/-- **When the payloads are distinct**: exactly if there is nothing to push or no attempt
crashed after a push. -/
theorem pushes_nodup_iff {σ : Type} {h : σ → (c : Cmd K) → Answer c.Reply σ}
    (hpush : ∀ s v, ∃ r s', h s (.rpush v) = .reply r s') (count : Nat) (kills : List Nat) (s : σ) :
    (((publish count).restarted h kills s).1.filterMap pushed).Nodup ↔ count ≤ 1 ∨ ∀ n ∈ kills, n = 0 := by
  rw [pushed_restarted hpush]
  constructor
  · intro hnd
    by_contra hno
    push Not at hno
    obtain ⟨hcount, n, hn, hpos⟩ := hno
    -- the first item is pushed by the crashed attempt and by the last one
    have hfirst : workItem 1 ∈ (workItems count).take n := by
      obtain ⟨k, rfl⟩ : ∃ k, count = k + 2 := ⟨count - 2, by omega⟩
      obtain ⟨m, rfl⟩ := Nat.exists_eq_succ_of_ne_zero hpos
      simp [workItems, List.range'_succ]
    exact (List.nodup_append.1 hnd).2.2 _ (List.mem_flatMap.2 ⟨n, hn, hfirst⟩) _ (List.mem_of_mem_take hfirst) rfl
  · intro hor
    have hnil : kills.flatMap (fun n => (workItems count).take n) = [] := by
      refine List.flatMap_eq_nil_iff.2 fun n hn => ?_
      rcases hor with hcount | hzero
      · have hz : count - 1 = 0 := by omega
        simp [workItems, hz]
      · rw [hzero n hn, List.take_zero]
    rw [hnil, List.nil_append]
    exact workItems_nodup count

/-- Without any crash the last item is missing. -/
theorem publisher_not_exactlyOnce : ¬ ∀ count kills,
    ExactlyOnce count (((publish count).restarted Server.handle kills (.empty : Server Bytes)).1.filterMap pushed) := by
  intro hall
  have hlen := (hall 1 []).perm.length_eq
  exact absurd hlen (by decide)

/-- **When the Job publishes its items exactly once**: only if there are none. -/
theorem exactlyOnce_iff {σ : Type} {h : σ → (c : Cmd K) → Answer c.Reply σ}
    (hpush : ∀ s v, ∃ r s', h s (.rpush v) = .reply r s') (count : Nat) (kills : List Nat) (s : σ) :
    ExactlyOnce count (((publish count).restarted h kills s).1.filterMap pushed) ↔ count = 0 := by
  rw [pushed_restarted hpush]
  constructor
  · intro hall
    by_contra hcount
    have hmem : workItem count ∈ (List.range' 1 count).map workItem :=
      List.mem_map_of_mem (List.mem_range'_1.2 (by omega))
    exact last_not_pushed kills (hall.perm.mem_iff.2 hmem)
  · rintro rfl
    have hnil : kills.flatMap (fun n => (workItems 0).take n) ++ workItems 0 = [] := by simp [workItems]
    rw [hnil]
    exact ⟨.rfl, List.nodup_nil⟩

/-- The Job as deployed, with one crash after the third push. -/
theorem exactlyOnce_iff_daemon : ¬ ExactlyOnce 20
    (((publish 20).restarted Server.handle [3] (.empty : Server Bytes)).1.filterMap pushed) := fun hall =>
  absurd ((exactlyOnce_iff (h := Server.handle) (fun (s : Server Bytes) v => ⟨_, s.rpush v, rfl⟩) 20 [3] .empty).1 hall)
    (by decide)

end RedisQueue
