import RedisQueue.Stranded

/-!
# Several queues in one database

A queue is three names in one flat key space: its main list, its processing list and its
lease keys, the names of the last two made by appending to the first. `Server` of
`Redis.lean` is what one queue sees of the database (`run_view`); here the operations of one
queue are looked at from another.

| here | there |
| --- | --- |
| `Digest` | `hashlib.sha224(item).hexdigest()`, 56 hexadecimal digits (`worker.py:56`) |
| `processingName`, `leaseKey` | `_processing_q_name`, `_lease_key_prefix` and the key (`worker.py:25-27`, `:93-95`) |
| `Db`, `Db.serve` | the database, and one command of a client of the queue `b` |
| `Operation` | `publish` of one item (`publisher.py:21`), `lease` and `complete` (`worker.py:66-109`) |

Two queues with different names interfere exactly if one name is the other's processing list
or one of its lease keys (`noInterference_iff`).
-/
namespace RedisQueue
open Program

/-! ## Names -/

def hexDigits : List Char := ['0', '1', '2', '3', '4', '5', '6', '7', '8', '9', 'a', 'b', 'c', 'd', 'e', 'f']

structure Digest where
  hex : String
  length_eq : hex.toList.length = 56
  digits : ∀ c ∈ hex.toList, c ∈ hexDigits
deriving DecidableEq

def processingName (b : String) : String := b ++ ":processing"

def leaseKey (b : String) (d : Digest) : String := b ++ ":leased_by_session:" ++ d.hex

section Names
variable {a b : String} {d d' : Digest}

theorem processingName_inj (h : processingName a = processingName b) : a = b := by
  have hl := congrArg String.toList h
  simp only [processingName, String.toList_append] at hl
  exact String.toList_inj.1 (List.append_cancel_right hl)

theorem leaseKey_inj (h : leaseKey a d = leaseKey b d') : a = b ∧ d = d' := by
  have hl := congrArg String.toList h
  simp only [leaseKey, String.toList_append] at hl
  obtain ⟨hp, hd⟩ := List.append_inj' hl (by rw [d.length_eq, d'.length_eq])
  refine ⟨String.toList_inj.1 (List.append_cancel_right hp), ?_⟩
  cases d
  cases d'
  cases String.toList_inj.1 hd
  rfl

/-- No lease key ends in `:processing`. -/
theorem processingName_ne_leaseKey : processingName a ≠ leaseKey b d := by
  intro h
  have hl := congrArg (fun s : String => s.toList.getLast?) h
  simp only [processingName, leaseKey, String.toList_append] at hl
  have hne : d.hex.toList ≠ [] := fun e => by
    have hlen := d.length_eq
    rw [e] at hlen
    cases hlen
  rw [List.getLast?_append_of_ne_nil _ hne, List.getLast?_append_of_ne_nil _ (by decide)] at hl
  have hg : d.hex.toList.getLast? = some 'g' := by rw [← hl]; decide
  exact absurd (d.digits 'g' (List.mem_of_getLast? hg)) (by decide)

theorem ne_processingName : b ≠ processingName b := by
  intro h
  have hl := congrArg (fun s : String => s.toList.length) h
  simp [processingName] at hl

theorem ne_leaseKey : b ≠ leaseKey b d := by
  intro h
  have hl := congrArg (fun s : String => s.toList.length) h
  simp [leaseKey] at hl

end Names

/-! ## The database -/

inductive Value where
  | list (l : List Bytes)
  | str (v : Bytes)
deriving DecidableEq

abbrev Db := String → Option Value

/-- An empty list is an absent key. -/
def Db.setList (db : Db) (key : String) (l : List Bytes) : Db :=
  Function.update db key (if l = [] then none else some (.list l))

/-- The list stored at a key, for a command that wants a list. -/
def Db.onList {ρ : Type} (db : Db) (key : String) (f : List Bytes → Answer ρ Db) : Answer ρ Db :=
  match db key with
  | none => f []
  | some (.list l) => f l
  | some (.str _) => .refuse "WRONGTYPE Operation against a key holding the wrong kind of value"

/-- The lease key of a command. -/
def Cmd.key {K : Type} : Cmd K → Option K
  | .setex key _ _ | .delete key | .existsKey key => some key
  | _ => none

def listName (b : String) : QType → String
  | .main => b
  | .processing => processingName b

/-- A pop: `nil` is the answer on an empty main list. The element is moved only when both keys
hold lists. -/
def Db.move (b : String) (db : Db) (nil : Answer (Option Bytes) Db) : Answer (Option Bytes) Db :=
  db.onList b fun l => match l.getLast? with
    | none => nil
    | some v => db.onList (processingName b) fun l' =>
      .reply (some v) ((db.setList b l.dropLast).setList (processingName b) (v :: l'))

/-- `SETEX` overwrites and `DEL` removes whatever the key holds. -/
def Db.serve (b : String) (db : Db) : (c : Cmd Digest) → Answer c.Reply Db
  | .rpush v => db.onList b fun l => .reply (l.length + 1) (db.setList b (l ++ [v]))
  | .llen q => db.onList (listName b q) fun l => .reply l.length db
  | .brpoplpush timeout => db.move b (if timeout = 0 then .wait else .reply none db)
  | .rpoplpush => db.move b (.reply none db)
  | .setex d time value =>
    if time ≤ 0 then .refuse "ERR invalid expire time in setex"
    else .reply () (Function.update db (leaseKey b d) (some (.str value)))
  | .lrem count v => db.onList (processingName b) fun l =>
    .reply (l.length - (lremList count v l).length) (db.setList (processingName b) (lremList count v l))
  | .delete d =>
    .reply (if (db (leaseKey b d)).isSome then 1 else 0) (Function.update db (leaseKey b d) none)
  | .existsKey d => .reply (if (db (leaseKey b d)).isSome then 1 else 0) db
  | .work _ => .reply () db

/-! ## One queue of the database -/

def Db.listAt (db : Db) (key : String) : List Bytes :=
  match db key with
  | some (.list l) => l
  | _ => []

def Db.strAt (db : Db) (key : String) : Option Bytes :=
  match db key with
  | some (.str v) => some v
  | _ => none

/-- What a client of the queue `b` sees. -/
def Db.view (b : String) (db : Db) : Server Digest :=
  ⟨db.listAt b, db.listAt (processingName b), fun d => db.strAt (leaseKey b d)⟩

/-- The keys of the queue `b` hold what its clients put there. -/
structure Db.WellTyped (b : String) (db : Db) : Prop where
  list : ∀ q v, db (listName b q) ≠ some (.str v)
  str : ∀ d l, db (leaseKey b d) ≠ some (.list l)

section View
variable {b : String} {db : Db} {q : QType} {d : Digest}

theorem listName_ne_leaseKey : listName b q ≠ leaseKey b d := by
  cases q with
  | main => exact ne_leaseKey
  | processing => exact processingName_ne_leaseKey

theorem listAt_setList (key key' : String) (l : List Bytes) :
    (db.setList key l).listAt key' = if key' = key then l else db.listAt key' := by
  by_cases hk : key' = key
  · subst hk
    by_cases hl : l = [] <;> simp [Db.listAt, Db.setList, hl]
  · simp [Db.listAt, Db.setList, hk]

theorem strAt_setList {key key' : String} (hk : key' ≠ key) (l : List Bytes) :
    (db.setList key l).strAt key' = db.strAt key' := by
  simp [Db.strAt, Db.setList, hk]

theorem view_setMain (l : List Bytes) : (db.setList b l).view b = { db.view b with main := l } := by
  refine Server.ext ?_ ?_ (funext fun d => strAt_setList ne_leaseKey.symm l)
  · exact (listAt_setList b b l).trans (if_pos rfl)
  · exact (listAt_setList b _ l).trans (if_neg ne_processingName.symm)

theorem view_setProcessing (l : List Bytes) :
    (db.setList (processingName b) l).view b = { db.view b with processing := l } := by
  refine Server.ext ?_ ?_ (funext fun d => strAt_setList processingName_ne_leaseKey.symm l)
  · exact (listAt_setList _ b l).trans (if_neg ne_processingName)
  · exact (listAt_setList _ _ l).trans (if_pos rfl)

theorem listAt_update {key key' : String} (hk : key' ≠ key) (x : Option Value) :
    Db.listAt (Function.update db key x) key' = db.listAt key' := by
  simp [Db.listAt, hk]

theorem strAt_update (d d' : Digest) (x : Option Value) :
    Db.strAt (Function.update db (leaseKey b d) x) (leaseKey b d') =
      if d' = d then (match x with | some (.str v) => some v | _ => none) else db.strAt (leaseKey b d') := by
  by_cases hd : d' = d
  · subst hd
    simp [Db.strAt]
  · have hk : leaseKey b d' ≠ leaseKey b d := fun h => hd (leaseKey_inj h).2
    simp [Db.strAt, hd, hk]

theorem view_setex (v : Bytes) :
    Db.view b (Function.update db (leaseKey b d) (some (.str v))) = (db.view b).setex d v := by
  refine Server.ext (listAt_update ne_leaseKey _) (listAt_update processingName_ne_leaseKey _)
    (funext fun d' => ?_)
  simp only [Server.setex, Function.update_apply]
  exact strAt_update d d' _

theorem view_delete : Db.view b (Function.update db (leaseKey b d) none) = (db.view b).delete d := by
  refine Server.ext (listAt_update ne_leaseKey _) (listAt_update processingName_ne_leaseKey _)
    (funext fun d' => ?_)
  simp only [Server.delete, Function.update_apply]
  exact strAt_update d d' none

theorem onList_of_wellTyped {ρ : Type} (hw : db.WellTyped b) (q : QType) (f : List Bytes → Answer ρ Db) :
    db.onList (listName b q) f = f (db.listAt (listName b q)) := by
  have hl := hw.list q
  unfold Db.onList Db.listAt
  cases hv : db (listName b q) with
  | none => rfl
  | some x =>
    cases x with
    | list l => rfl
    | str v => exact absurd hv (hl v)

theorem isSome_leaseKey (hw : db.WellTyped b) (d : Digest) :
    (db (leaseKey b d)).isSome = ((db.view b).leases d).isSome := by
  have hs := hw.str d
  simp only [Db.view, Db.strAt]
  cases hv : db (leaseKey b d) with
  | none => rfl
  | some x =>
    cases x with
    | list l => exact absurd hv (hs l)
    | str v => rfl

theorem wellTyped_setList (hw : db.WellTyped b) (q : QType) (l : List Bytes) :
    (db.setList (listName b q) l).WellTyped b := by
  refine ⟨fun q' v => ?_, fun d l' => ?_⟩
  · by_cases hq : listName b q' = listName b q
    · by_cases hl : l = [] <;> simp [Db.setList, hq, hl]
    · simpa [Db.setList, hq] using hw.list q' v
  · have hk : leaseKey b d ≠ listName b q := listName_ne_leaseKey.symm
    simpa [Db.setList, hk] using hw.str d l'

theorem wellTyped_update (hw : db.WellTyped b) (d : Digest) {x : Option Value} (hx : ∀ l, x ≠ some (.list l)) :
    Db.WellTyped b (Function.update db (leaseKey b d) x) := by
  refine ⟨fun q v => ?_, fun d' l => ?_⟩
  · have hk : listName b q ≠ leaseKey b d := listName_ne_leaseKey
    simpa [hk] using hw.list q v
  · by_cases hd : leaseKey b d' = leaseKey b d
    · simpa [hd] using hx l
    · simpa [hd] using hw.str d' l

theorem view_queue (q : QType) : (db.view b).queue q = db.listAt (listName b q) := by cases q <;> rfl

theorem onMain_of_wellTyped {ρ : Type} (hw : db.WellTyped b) (f : List Bytes → Answer ρ Db) :
    db.onList b f = f (db.view b).main :=
  onList_of_wellTyped hw .main f

theorem onProcessing_of_wellTyped {ρ : Type} (hw : db.WellTyped b) (f : List Bytes → Answer ρ Db) :
    db.onList (processingName b) f = f (db.view b).processing :=
  onList_of_wellTyped hw .processing f

/-- A pop in the database is a pop in the view. -/
theorem move_view (hw : db.WellTyped b) (nil : Answer (Option Bytes) Db) :
    (db.move b nil).map (Db.view b) = match (db.view b).rpoplpush with
      | (none, _) => nil.map (Db.view b)
      | (some v, s) => .reply (some v) s := by
  rw [Db.move, onMain_of_wellTyped hw]
  rcases List.eq_nil_or_concat' (db.view b).main with hm | ⟨l, v, hm⟩
  · rw [rpoplpush_nil hm, hm]
    rfl
  · have hlast : (db.view b).main.getLast? = some v := by simp [hm]
    rw [rpoplpush_snoc hm, hlast]
    dsimp only
    rw [onProcessing_of_wellTyped hw, Answer.map, view_setProcessing, view_setMain, hm, List.dropLast_concat]

/-- **One command**: the server of `Redis.lean` is the view of one queue. -/
theorem serve_view (hw : db.WellTyped b) (c : Cmd Digest) :
    (db.view b).handle c = (db.serve b c).map (Db.view b) := by
  cases c with
  | rpush v => simp only [Db.serve, onMain_of_wellTyped hw, Answer.map, view_setMain]; rfl
  | llen q => simp only [Db.serve, onList_of_wellTyped hw, Answer.map, Server.handle, view_queue]
  | brpoplpush timeout =>
    rw [Db.serve, move_view hw, Server.handle]
    obtain ⟨_ | v, s⟩ := (db.view b).rpoplpush
    · by_cases ht : timeout = 0
      · rw [if_pos ht, if_pos ht]; rfl
      · rw [if_neg ht, if_neg ht]; rfl
    · rfl
  | rpoplpush =>
    rw [Db.serve, move_view hw, Server.handle]
    rcases List.eq_nil_or_concat' (db.view b).main with hm | ⟨l, v, hm⟩
    · rw [rpoplpush_nil hm]; rfl
    · rw [rpoplpush_snoc hm]
  | setex d time value =>
    by_cases ht : time ≤ 0
    · simp [Db.serve, Server.handle, ht, Answer.map]
    · simp [Db.serve, Server.handle, ht, Answer.map, view_setex]
  | lrem count v => simp only [Db.serve, onProcessing_of_wellTyped hw, Answer.map, view_setProcessing]; rfl
  | delete d => simp only [Db.serve, Answer.map, isSome_leaseKey hw, view_delete]; rfl
  | existsKey d => simp only [Db.serve, Answer.map, isSome_leaseKey hw]; rfl
  | work item => rfl

theorem onList_reply {ρ : Type} {key : String} {f : List Bytes → Answer ρ Db} {r : ρ} {db' : Db}
    (h : db.onList key f = .reply r db') : ∃ l, f l = .reply r db' := by
  unfold Db.onList at h
  split at h
  · exact ⟨_, h⟩
  · exact ⟨_, h⟩
  · cases h

theorem move_reply {nil : Answer (Option Bytes) Db} {r : Option Bytes} {db' : Db}
    (h : db.move b nil = .reply r db') : nil = .reply r db' ∨
      ∃ l v l', db' = (db.setList b l).setList (processingName b) (v :: l') := by
  obtain ⟨l, hl⟩ := onList_reply h
  split at hl
  · exact .inl hl
  · obtain ⟨l', hl'⟩ := onList_reply hl
    cases hl'
    exact .inr ⟨_, _, l', rfl⟩

/-- What one command of a client of `b` can do to the database. -/
theorem serve_cases {c : Cmd Digest} {r : c.Reply} {db' : Db} (h : db.serve b c = .reply r db') :
    db' = db ∨ (∃ q l, db' = db.setList (listName b q) l) ∨
    (∃ l v l', db' = (db.setList b l).setList (processingName b) (v :: l')) ∨
    ∃ d x, (∀ l, x ≠ some (.list l)) ∧ c.key = some d ∧ db' = Function.update db (leaseKey b d) x := by
  cases c with
  | rpush v =>
    simp only [Db.serve] at h
    obtain ⟨l, hl⟩ := onList_reply h
    cases hl
    exact .inr (.inl ⟨.main, _, rfl⟩)
  | llen q =>
    simp only [Db.serve] at h
    obtain ⟨l, hl⟩ := onList_reply h
    cases hl
    exact .inl rfl
  | brpoplpush timeout =>
    rcases move_reply h with hnil | hmove
    · split at hnil <;> cases hnil
      exact .inl rfl
    · exact .inr (.inr (.inl hmove))
  | rpoplpush =>
    rcases move_reply h with hnil | hmove
    · cases hnil
      exact .inl rfl
    · exact .inr (.inr (.inl hmove))
  | setex d time value =>
    rw [Db.serve] at h
    split at h <;> cases h
    exact .inr (.inr (.inr ⟨d, _, by simp, rfl, rfl⟩))
  | lrem count v =>
    simp only [Db.serve] at h
    obtain ⟨l, hl⟩ := onList_reply h
    cases hl
    exact .inr (.inl ⟨.processing, _, rfl⟩)
  | delete d =>
    cases h
    exact .inr (.inr (.inr ⟨d, none, by simp, rfl, rfl⟩))
  | existsKey d =>
    cases h
    exact .inl rfl
  | work item =>
    cases h
    exact .inl rfl

theorem wellTyped_serve {c : Cmd Digest} {r : c.Reply} {db' : Db} (hw : db.WellTyped b)
    (h : db.serve b c = .reply r db') : db'.WellTyped b := by
  rcases serve_cases h with rfl | ⟨q, l, rfl⟩ | ⟨l, v, l', rfl⟩ | ⟨d, x, hx, -, rfl⟩
  · exact hw
  · exact wellTyped_setList hw q l
  · exact wellTyped_setList (wellTyped_setList hw .main l) .processing (v :: l')
  · exact wellTyped_update hw d hx

/-- **Every run**: a client of the queue `b` does in the database what it does on its view. -/
theorem run_view {α : Type} (p : Run Digest α) (hw : db.WellTyped b) :
    p.run Server.handle (db.view b) = (p.run (Db.serve b) db).map (Db.view b) ∧
      (p.run (Db.serve b) db).srv.WellTyped b :=
  run_map (fun _ c hs => serve_view hs c) (fun _ _ _ _ hs hr => wellTyped_serve hs hr) p db hw

end View

/-! ## Two queues -/

section Two
variable (itemKey : Bytes → Digest)

inductive Operation where
  | publish (v : Bytes)
  | lease (session : Bytes) (leaseDur : Int) (blocking : Bool) (timeout : Option Int)
  | complete (value : Bytes)

def Operation.code : Operation → Run Digest Unit
  | .publish v => do
    let _ ← redis (.rpush v)
    return ()
  | .lease session leaseDur blocking timeout => do
    let _ ← RedisSubscriber.leaseWithin ⟨session, itemKey⟩ leaseDur blocking timeout
    return ()
  | .complete value => RedisSubscriber.complete ⟨[], itemKey⟩ value

/-- The database after operations on the queue `b`, one after the other. -/
def Db.after (b : String) (db : Db) (ops : List Operation) : Db :=
  ops.foldl (fun db op => ((op.code itemKey).run (Db.serve b) db).srv) db

/-- The queue `a` is in `db'` as it is in `db`. -/
structure Untouched (a : String) (db db' : Db) : Prop where
  main : db' a = db a
  processing : db' (processingName a) = db (processingName a)
  leases : ∀ v, db' (leaseKey a (itemKey v)) = db (leaseKey a (itemKey v))
  empty : (RedisSubscriber.empty.run (Db.serve a) db').out = (RedisSubscriber.empty.run (Db.serve a) db).out

/-- No operations on `b` touch the queue `a`. -/
def NoInterference (a b : String) : Prop :=
  ∀ db ops, Untouched itemKey a db (db.after itemKey b ops)

/-- Neither name is the processing list or a lease key of the other queue. -/
structure Apart (a b : String) : Prop where
  processing : b ≠ processingName a
  processing' : a ≠ processingName b
  lease : ∀ v, b ≠ leaseKey a (itemKey v)
  lease' : ∀ v, a ≠ leaseKey b (itemKey v)

/-- A key of the queue `b`. -/
inductive Owns (b : String) : String → Prop where
  | list (q : QType) : Owns b (listName b q)
  | lease (v : Bytes) : Owns b (leaseKey b (itemKey v))

/-- The keys a client sends are those of payloads. -/
def Hashed (c : Cmd Digest) : Prop := ∀ d, c.key = some d → ∃ v, d = itemKey v

variable {itemKey} {a b : String}

theorem owns_disjoint (hne : a ≠ b) (h : Apart itemKey a b) {key : String} (ha : Owns itemKey a key) :
    ¬ Owns itemKey b key := by
  intro hb
  cases ha with
  | list q =>
    generalize hk : listName a q = key at hb
    cases hb with
    | list q' =>
      cases q <;> cases q'
      · exact hne hk
      · exact h.processing' hk
      · exact h.processing hk.symm
      · exact hne (processingName_inj hk)
    | lease v =>
      cases q with
      | main => exact h.lease' v hk
      | processing => exact processingName_ne_leaseKey hk
  | lease v =>
    generalize hk : leaseKey a (itemKey v) = key at hb
    cases hb with
    | list q =>
      cases q with
      | main => exact h.lease v hk.symm
      | processing => exact processingName_ne_leaseKey hk.symm
    | lease v' => exact hne (leaseKey_inj hk).1

/-- **One command**: only keys of its own queue change. -/
theorem serve_frame {db db' : Db} {c : Cmd Digest} {r : c.Reply} {key : String} (hc : Hashed itemKey c)
    (h : db.serve b c = .reply r db') (hkey : ¬ Owns itemKey b key) : db' key = db key := by
  have hlist (q : QType) : key ≠ listName b q := fun e => hkey (e ▸ .list q)
  have hset (db : Db) (q : QType) (l : List Bytes) : db.setList (listName b q) l key = db key :=
    Function.update_of_ne (hlist q) _ _
  rcases serve_cases h with rfl | ⟨q, l, rfl⟩ | ⟨l, v, l', rfl⟩ | ⟨d, x, -, hd, rfl⟩
  · rfl
  · exact hset db q l
  · exact (hset _ .processing _).trans (hset db .main l)
  · obtain ⟨v, rfl⟩ := hc d hd
    have hne : key ≠ leaseKey b (itemKey v) := fun e => hkey (e ▸ .lease v)
    exact Function.update_of_ne hne _ _

theorem code_hashed (op : Operation) : (op.code itemKey).Only (Hashed itemKey) := by
  have hplain {c : Cmd Digest} (h : c.key = none) : Hashed itemKey c := fun d hd => by rw [h] at hd; cases hd
  cases op with
  | publish v => exact ⟨hplain rfl, fun _ => trivial⟩
  | complete v =>
    refine ⟨hplain rfl, fun _ => ⟨fun d hd => ?_, fun _ => trivial⟩⟩
    cases hd
    exact ⟨v, rfl⟩
  | lease session leaseDur blocking timeout =>
    refine only_bind (only_ite (only_raise _) ?_) fun _ => only_ret _
    have hpop (t : Option Nat) : (brpoplpush (K := Digest) t).Only (Hashed itemKey) :=
      (only_issue _).2 (hplain rfl)
    have hset (v : Bytes) : (redis (.setex (itemKey v) leaseDur session)).Only (Hashed itemKey) :=
      (only_issue _).2 fun d hd => by cases hd; exact ⟨v, rfl⟩
    rw [RedisSubscriber.lease]
    refine only_ite (only_bind (hpop _) fun item => ?_) (only_bind (hpop _) fun item => ?_) <;>
    · cases item with
      | none => exact only_ret _
      | some v => exact only_ite (only_ret _) (only_bind (hset v) fun _ => only_ret _)

/-- **Any operations**: only keys of their own queue change. -/
theorem after_frame {key : String} (hkey : ¬ Owns itemKey b key) (ops : List Operation) :
    ∀ db : Db, db.after itemKey b ops key = db key := by
  induction ops with
  | nil => intro db; rfl
  | cons op ops ih =>
    intro db
    have hop : ((op.code itemKey).run (Db.serve b) db).srv key = db key :=
      run_frame (h := Db.serve b) (Q := fun db' => db' key = db key) (code_hashed op)
        (fun s c r s' hc hr hs => (serve_frame hc hr hkey).trans hs) db rfl
    exact (ih _).trans hop

/-- `empty()` reads two keys. -/
theorem empty_congr {db db' : Db} (hm : db' a = db a) (hp : db' (processingName a) = db (processingName a)) :
    (RedisSubscriber.empty.run (Db.serve a) db').out = (RedisSubscriber.empty.run (Db.serve a) db).out := by
  -- what the two keys hold decides the answer
  rcases hv : db a with _ | ⟨_ | ⟨x, l⟩⟩ | v <;> rcases hv' : db (processingName a) with _ | l' | v' <;>
    simp [RedisSubscriber.empty, mainQueueSize, processingQueueSize, Prog.run, Db.serve, Db.onList, listName,
      hm, hp, hv, hv']

theorem untouched_of_apart (hne : a ≠ b) (h : Apart itemKey a b) (db : Db) (ops : List Operation) :
    Untouched itemKey a db (db.after itemKey b ops) := by
  have hkey {key : String} (hk : Owns itemKey a key) : db.after itemKey b ops key = db key :=
    after_frame (owns_disjoint hne h hk) ops db
  exact ⟨hkey (.list .main), hkey (.list .processing), fun v => hkey (.lease v),
    empty_congr (hkey (.list .main)) (hkey (.list .processing))⟩

/-- Publishing makes a list of the name. -/
theorem publish_list (v : Bytes) :
    Db.after itemKey b (fun _ => none) [.publish v] b = some (.list [v]) := by
  simp [Db.after, Operation.code, Prog.run, Db.serve, Db.onList, Db.setList]

/-- Completing clears a list that is the queue's processing list or bears the name of the lease key. -/
theorem complete_clears {v : Bytes} (h : a = processingName b ∨ a = leaseKey b (itemKey v)) :
    Db.after itemKey b (Function.update (fun _ => none) a (some (.list [v]))) [.complete v] a = none := by
  have hk : processingName b ≠ leaseKey b (itemKey v) := processingName_ne_leaseKey
  rcases h with rfl | rfl <;>
    simp [Db.after, Operation.code, RedisSubscriber.complete, Prog.run, Db.serve, Db.onList, Db.setList, hk]

theorem apart_of_noInterference (h : NoInterference itemKey a b) : Apart itemKey a b := by
  have hpub := h (fun _ => none) [.publish [97]]
  have hlist : Db.after itemKey b (fun _ => none) [.publish [97]] b = some (.list [[97]]) := publish_list [97]
  have hclear (v : Bytes) (e : a = processingName b ∨ a = leaseKey b (itemKey v)) : False := by
    have hm := (h (Function.update (fun _ => none) a (some (.list [v]))) [.complete v]).main
    rw [complete_clears e, Function.update_self] at hm
    cases hm
  refine ⟨fun e => ?_, fun e => hclear [97] (.inl e), fun v e => ?_, fun v e => hclear v (.inr e)⟩
  · have hp := hpub.processing
    rw [← e, hlist] at hp
    cases hp
  · have hl := hpub.leases v
    rw [← e, hlist] at hl
    cases hl

/-- Names without a colon are safe. -/
theorem apart_of_noColon (ha : ':' ∉ a.toList) (hb : ':' ∉ b.toList) : Apart itemKey a b := by
  have hproc (c : String) : ':' ∈ (processingName c).toList := by simp [processingName]
  have hlease (c : String) (v : Bytes) : ':' ∈ (leaseKey c (itemKey v)).toList := by simp [leaseKey]
  exact ⟨fun e => hb (e ▸ hproc a), fun e => ha (e ▸ hproc b), fun v e => hb (e ▸ hlease a v),
    fun v e => ha (e ▸ hlease b v)⟩

end Two

/-- The processing list of `foo` is the main list of `foo:processing`. -/
theorem names_interfere : ¬ ∃ itemKey, ∀ a b : String, a ≠ b → NoInterference itemKey a b := by
  rintro ⟨itemKey, h⟩
  have hapart := apart_of_noInterference (h (processingName "foo") "foo" ne_processingName.symm)
  exact hapart.processing' rfl

/-- **When two queues do not interfere**: exactly if neither name is the processing list or a
lease key of the other queue. -/
theorem noInterference_iff (itemKey : Bytes → Digest) {a b : String} (hne : a ≠ b) :
    NoInterference itemKey a b ↔ Apart itemKey a b :=
  ⟨apart_of_noInterference, fun h db ops => untouched_of_apart hne h db ops⟩

/-- A hash function, for concrete queues. -/
def zeroHash (_ : Bytes) : Digest where
  hex := String.ofList (List.replicate 56 '0')
  length_eq := by rw [String.toList_ofList, List.length_replicate]
  digits c hc := by
    rw [String.toList_ofList] at hc
    rw [List.eq_of_mem_replicate hc]
    decide

theorem noInterference_iff_fooBar : NoInterference zeroHash "foo" "bar" :=
  (noInterference_iff zeroHash (by decide)).2 (apart_of_noColon (by decide) (by decide))

end RedisQueue
