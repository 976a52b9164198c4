import RedisQueue.Keyspace
import RedisQueue.Mixed

/-!
# Workers of several queues in one database

`Keyspace.lean` looks at one client after the other. Here any number of workers and publishers of
any number of queues send their commands to one database, in any order, and the lease keys time out
in between.

| here | there |
| --- | --- |
| `QEv` | a command of a client of the queue `queue`; its reply is in the event |
| `Db.obey` | the command, in the database (`Db.serve`) |
| `Db.timeOut` | the end of a key that `SETEX` has set |
| `Member` | a worker process with the queue it was started for (`worker.py:25`) |

As long as no name is the processing list or a lease key of another queue (`Separate`), the database is
as good as a server for each queue: events are a run exactly if the events on each queue are a
run of its own workers (`shared_run_iff`). What holds of one queue holds of every queue that
shares its database (`shared_accounted`).
-/
namespace RedisQueue
open Program Interleave

variable {W L : Type}

structure QEv (W : Type) where
  queue : String
  ev : Ev W Digest
deriving DecidableEq

/-- Only what `SETEX` has set times out, and that is a string. -/
def Db.timeOut (db : Db) (key : String) : Db :=
  match db key with
  | some (.str _) => Function.update db key none
  | _ => db

/-- An event of a client of the queue `b`. -/
def Db.obey (P : Params W Digest) (b : String) (db : Db) : Ev W Digest → Option Db
  | .rpush v => (db.serve b (.rpush v)).accept fun _ => true
  | .llen _ q n => (db.serve b (.llen q)).accept fun m => m = n
  | .pop _ r => (db.serve b (.brpoplpush 2)).accept fun x => x = r
  | .setex w v => (db.serve b (.setex (P.itemKey v) 5 (P.session w))).accept fun _ => true
  | .lrem _ v n => (db.serve b (.lrem 0 v)).accept fun m => m = n
  | .del _ v => (db.serve b (.delete (P.itemKey v))).accept fun _ => true
  | .expire d => some (db.timeOut (leaseKey b d))
  | .work _ _ | .raise _ _ | .crash _ => some db

@[ext] structure Member (L : Type) where
  queue : String
  state : L

/-- A member takes part in the events on its own queue. -/
def Member.move (move : L → Ev W Digest → Option L) (m : Member L) (x : QEv W) : Option (Member L) :=
  if m.queue = x.queue then (move m.state x.ev).map (Member.mk m.queue) else none

def shared (move : L → Ev W Digest → Option L) (P : Params W Digest) : System W (QEv W) Db (Member L) where
  who x := x.ev.who
  serve db x := db.obey P x.queue x.ev
  move := Member.move move

/-! ## One queue -/

/-- A worker that may be one of another queue. -/
def present (move : L → Ev W Digest → Option L) : Option L → Ev W Digest → Option (Option L)
  | none, _ => none
  | some l, e => (move l e).map some

/-- What the queue `b` has of a configuration: its keys and its workers. -/
def queueView (b : String) (c : Config W Db (Member L)) : Config W (Server Digest) (Option L) :=
  ⟨c.srv.view b, fun w => if (c.loc w).queue = b then some (c.loc w).state else none⟩

/-- The events on the queue `b`. -/
def onQueue (b : String) (tr : List (QEv W)) : List (Ev W Digest) := component QEv.queue QEv.ev b tr

section View
variable {P : Params W Digest} {b : String} {db db' : Db}

theorem view_timeOut (d : Digest) :
    (db.timeOut (leaseKey b d)).view b = (db.view b).delete d := by
  unfold Db.timeOut
  split
  · exact view_delete
  · rename_i hv
    -- nothing to time out: the view has no lease there
    refine Server.ext rfl rfl (funext fun d' => ?_)
    have hnone : db.strAt (leaseKey b d) = none := by
      unfold Db.strAt
      split
      · rename_i v hs; exact absurd hs (hv v)
      · rfl
    by_cases hd : d' = d
    · subst hd
      simp [Server.delete, Db.view, hnone]
    · simp [Server.delete, Db.view, hd]

/-- **One event**: what it does to the database is, on the keys of its queue, what it does to a
server of this queue alone. -/
theorem obey_view (hw : db.WellTyped b) (e : Ev W Digest) :
    (db.obey P b e).map (Db.view b) = serve P (db.view b) e := by
  cases e with
  | rpush v => rw [Db.obey, ← accept_map, ← serve_view hw]; rfl
  | llen w q n =>
    rw [Db.obey, ← accept_map, ← serve_view hw]
    simp [Server.handle, Answer.accept, serve]
  | pop w r =>
    rw [Db.obey, ← accept_map, ← serve_view hw]
    rcases List.eq_nil_or_concat' (db.view b).main with hm | ⟨l, v, hm⟩
    · simp [Server.handle, Answer.accept, serve, rpoplpush_nil hm]
    · simp [Server.handle, Answer.accept, serve, rpoplpush_snoc hm]
  | setex w v => rw [Db.obey, ← accept_map, ← serve_view hw]; rfl
  | lrem w v n =>
    rw [Db.obey, ← accept_map, ← serve_view hw]
    simp [Server.handle, Answer.accept, serve, length_lrem_zero]
  | del w v => rw [Db.obey, ← accept_map, ← serve_view hw]; rfl
  | expire d => rw [Db.obey, Option.map_some, view_timeOut]; rfl
  | work w v => rfl
  | raise w v => rfl
  | crash w => rfl

theorem obey_cases {e : Ev W Digest} (h : db.obey P b e = some db') :
    db' = db ∨ (∃ d, db' = Function.update db (leaseKey b d) none) ∨
      ∃ (c : Cmd Digest) (r : c.Reply), db.serve b c = .reply r db' := by
  cases e with
  | rpush v => exact .inr (.inr ⟨.rpush v, accept_reply _ h⟩)
  | llen w q n => exact .inr (.inr ⟨.llen q, accept_reply _ h⟩)
  | pop w r => exact .inr (.inr ⟨.brpoplpush 2, accept_reply _ h⟩)
  | setex w v => exact .inr (.inr ⟨.setex (P.itemKey v) 5 (P.session w), accept_reply (fun _ => true) h⟩)
  | lrem w v n => exact .inr (.inr ⟨.lrem 0 v, accept_reply _ h⟩)
  | del w v => exact .inr (.inr ⟨.delete (P.itemKey v), accept_reply (fun _ => true) h⟩)
  | expire d =>
    obtain rfl := Option.some.inj h
    unfold Db.timeOut
    split
    · exact .inr (.inl ⟨d, rfl⟩)
    · exact .inl rfl
  | work w v => cases h; exact .inl rfl
  | raise w v => cases h; exact .inl rfl
  | crash w => cases h; exact .inl rfl

theorem wellTyped_obey {e : Ev W Digest} (hw : db.WellTyped b) (h : db.obey P b e = some db') : db'.WellTyped b := by
  rcases obey_cases h with rfl | ⟨d, rfl⟩ | ⟨c, r, hr⟩
  · exact hw
  · exact wellTyped_update hw d (by simp)
  · exact wellTyped_serve hw hr

end View

/-! ## Two queues -/

/-- Neither name is a list or a lease key of the other queue, whatever the hash function. -/
def Separate (a b : String) : Prop := ∀ itemKey, Apart itemKey a b

section Frame
variable {P : Params W Digest} {a b : String} {db db' : Db}

/-- The keys of a queue, with all lease keys there can be. -/
inductive KeyOf (b : String) : String → Prop where
  | list (q : QType) : KeyOf b (listName b q)
  | lease (d : Digest) : KeyOf b (leaseKey b d)

theorem keyOf_disjoint (hne : a ≠ b) (h : Separate a b) {key : String} (ha : KeyOf a key) : ¬ KeyOf b key := by
  -- a digest is the hash of every item, for one hash function
  have hdis (d : Digest) {key : String} (ha : Owns (fun _ => d) a key) : ¬ Owns (fun _ => d) b key :=
    owns_disjoint hne (h fun _ => d) ha
  intro hb
  cases ha with
  | list q =>
    generalize hk : listName a q = key at hb
    cases hb with
    | list q' => exact hdis (zeroHash []) (.list q) (hk ▸ .list q')
    | lease d => exact hdis d (.list q) (hk ▸ .lease [])
  | lease d =>
    generalize hk : leaseKey a d = key at hb
    cases hb with
    | list q' => exact hdis d (.lease []) (hk ▸ .list q')
    | lease d' => exact hne (leaseKey_inj hk).1

/-- **One event**: it changes keys of its own queue only. -/
theorem obey_frame {e : Ev W Digest} (h : db.obey P b e = some db') {key : String} (hkey : ¬ KeyOf b key) :
    db' key = db key := by
  rcases obey_cases h with rfl | ⟨d, rfl⟩ | ⟨c, r, hr⟩
  · rfl
  · have hne : key ≠ leaseKey b d := fun hk => hkey (hk ▸ .lease d)
    exact Function.update_of_ne hne _ _
  · have hhash : Hashed (fun _ => c.key.getD (zeroHash [])) c := fun d hd => ⟨[], by rw [hd]; rfl⟩
    refine serve_frame hhash hr fun hown => hkey ?_
    cases hown with
    | list q => exact .list q
    | lease v => exact .lease _

theorem view_congr (h : ∀ key, KeyOf a key → db' key = db key) : db'.view a = db.view a := by
  refine Server.ext ?_ ?_ (funext fun d => ?_)
  · have hk : db' a = db a := h _ (.list .main)
    simp only [Db.view, Db.listAt, hk]
  · have hk : db' (processingName a) = db (processingName a) := h _ (.list .processing)
    simp only [Db.view, Db.listAt, hk]
  · simp only [Db.view, Db.strAt, h _ (.lease d)]

theorem wellTyped_congr (h : ∀ key, KeyOf a key → db' key = db key) (hw : db.WellTyped a) : db'.WellTyped a :=
  ⟨fun q v => by rw [h _ (.list q)]; exact hw.list q v, fun d l => by rw [h _ (.lease d)]; exact hw.str d l⟩

end Frame

/-! ## All queues -/

section All
variable [DecidableEq W] {move : L → Ev W Digest → Option L} {P : Params W Digest}
  {c c' : Config W Db (Member L)} {x : QEv W} {a : String}

/-- **One event**: the queue it is on sees it as an event of its own system. -/
theorem exec_on (hw : c.srv.WellTyped x.queue) : ((shared move P).exec c x).map (queueView x.queue) =
    (workers (present move) P).exec (queueView x.queue c) x.ev := by
  have hs : (c.srv.obey P x.queue x.ev).map (Db.view x.queue) = serve P (c.srv.view x.queue) x.ev := obey_view hw x.ev
  unfold System.exec
  simp only [shared, workers, queueView]
  rw [← hs]
  cases hobey : c.srv.obey P x.queue x.ev with
  | none => rfl
  | some db' =>
    cases hwho : x.ev.who with
    | none => rfl
    | some w =>
      simp only [Option.map_some, Member.move]
      by_cases hq : (c.loc w).queue = x.queue
      · simp only [if_pos hq, present]
        cases hm : move (c.loc w).state x.ev with
        | none => rfl
        | some l =>
          simp only [Option.map_some, Option.some.injEq, queueView]
          refine Config.ext rfl (funext fun y => ?_)
          by_cases hy : y = w
          · subst hy; simp [hq]
          · simp [hy]
      · simp only [if_neg hq, present, Option.map_none]

/-- The other queues do not see it. -/
theorem exec_off (hne : a ≠ x.queue) (h : Separate a x.queue) (he : (shared move P).exec c x = some c') :
    queueView a c' = queueView a c := by
  have hs : c.srv.obey P x.queue x.ev = some c'.srv := exec_serve (shared move P) he
  have hview : c'.srv.view a = c.srv.view a := view_congr fun key hk => obey_frame hs (keyOf_disjoint hne h hk)
  refine Config.ext hview (funext fun w => ?_)
  simp only [queueView]
  by_cases hw : x.ev.who = some w
  · -- the worker that steps is one of the event's queue, before and after
    have hm : Member.move move (c.loc w) x = some (c'.loc w) := exec_move (shared move P) hw he
    unfold Member.move at hm
    split at hm
    · rename_i hq
      obtain ⟨l, -, hl⟩ := Option.map_eq_some_iff.1 hm
      rw [← hl, hq, if_neg hne.symm, if_neg hne.symm]
    · cases hm
  · rw [exec_frame (shared move P) hw he]

theorem splits_shared (move : L → Ev W Digest → Option L) (P : Params W Digest) {names : String → Prop}
    (hnames : ∀ a b, names a → names b → a ≠ b → Separate a b) :
    Splits (shared move P) (fun _ => workers (present move) P) QEv.queue QEv.ev queueView
      (fun c => ∀ b, names b → c.srv.WellTyped b) names where
  inv c x c' hI hx he b hb := by
    have hs : c.srv.obey P x.queue x.ev = some c'.srv := exec_serve (shared move P) he
    by_cases hbx : b = x.queue
    · subst hbx
      exact wellTyped_obey (hI x.queue hx) hs
    · have hsep : Separate b x.queue := hnames b x.queue hb hx hbx
      exact wellTyped_congr (fun key hk => obey_frame hs (keyOf_disjoint hbx hsep hk)) (hI b hb)
  self c x hI hx := exec_on (hI x.queue hx)
  other c x c' b hx hb hne he := exec_off hne (hnames b x.queue hb hx hne) he

omit [DecidableEq W] in
theorem ClientLike.present {abs : L → Client} (h : ClientLike move abs) :
    ClientLike (present move) fun l => (l.map abs).getD ⟨.idle, [], true⟩ where
  move l e l' hl he := by
    cases l with
    | none => cases hl
    | some l =>
      obtain ⟨m, hm, rfl⟩ := Option.map_eq_some_iff.1 hl
      exact h.move l e m hm he

/-- The database empty, the Python workers started, each for its queue. -/
def sharedLaunch (home : W → String) : Config W Db (Member Worker) :=
  ⟨fun _ => none, fun w => ⟨home w, ⟨.probe false .main, true⟩⟩⟩

theorem wellTyped_none (b : String) : Db.WellTyped b fun _ => none := ⟨by simp, by simp⟩

/-- **Exclusive hand-over without loss, queue by queue**: whatever goes on in the other queues of the
database, each queue has all it was given, and its items go to its own workers. -/
theorem shared_accounted (P : Params W Digest) (home : W → String) {names : String → Prop}
    (hnames : ∀ a b, names a → names b → a ≠ b → Separate a b) {tr : List (QEv W)}
    (htr : ∀ x ∈ tr, names x.queue) {c : Config W Db (Member Worker)}
    (h : (shared Worker.move P).run (sharedLaunch home) tr = some c) {b : String} (hb : names b)
    (hd : (published (onQueue b tr)).Nodup) (h0 : [] ∉ published (onQueue b tr)) :
    Accounted (onQueue b tr) (c.srv.view b) ∧ ∀ w v, (w, v) ∈ handed (onQueue b tr) → home w = b := by
  have hrun : (workers (present Worker.move) P).run (queueView b (sharedLaunch home)) (onQueue b tr) =
      some (queueView b c) :=
    (run_components (splits_shared Worker.move P hnames) (fun b _ => wellTyped_none b) htr).2 c h b hb
  constructor
  · have hclients := ((clientLike_worker P).present).run hrun List.not_mem_nil h0
    have hready : (queueView b (sharedLaunch home)).map (fun l => (l.map Worker.toClient).getD ⟨.idle, [], true⟩) =
        ready .empty := by
      refine Config.ext rfl (funext fun w => ?_)
      simp only [queueView, sharedLaunch, Config.map, ready]
      by_cases hw : home w = b
      · simp [hw, Worker.toClient, PC.mode, PC.held]
      · simp [hw]
    rw [hready] at hclients
    exact accounted hclients hd
  · intro w v hv
    by_contra hw
    exact (run_stuck _ (fun _ => rfl) hrun (if_neg hw)).1 _ (mem_handed.1 hv) rfl

end All

/-- Names without a colon are separate. -/
theorem separate_of_noColon {a b : String} (ha : ':' ∉ a.toList) (hb : ':' ∉ b.toList) : Separate a b :=
  fun _ => apart_of_noColon ha hb

def fooBar (b : Bool) : String := if b then "bar" else "foo"

theorem separate_fooBar : ∀ a b, (∃ x, a = fooBar x) → (∃ x, b = fooBar x) → a ≠ b → Separate a b := by
  have hcolon : ∀ x, ':' ∉ (fooBar x).toList := by decide
  rintro a b ⟨x, rfl⟩ ⟨y, rfl⟩ -
  exact separate_of_noColon (hcolon x) (hcolon y)

/-- A worker of `foo` and one of `bar`; the same payload is in both queues. -/
def twoQueuesRun : List (QEv Bool) :=
  [⟨"foo", .rpush [97]⟩, ⟨"bar", .rpush [97]⟩, ⟨"foo", .llen false .main 1⟩, ⟨"bar", .llen true .main 1⟩,
   ⟨"foo", .llen false .main 1⟩, ⟨"foo", .pop false (some [97])⟩, ⟨"bar", .llen true .main 1⟩,
   ⟨"foo", .setex false [97]⟩, ⟨"bar", .pop true (some [97])⟩, ⟨"foo", .work false [97]⟩,
   ⟨"foo", .lrem false [97] 1⟩, ⟨"bar", .expire (zeroHash [])⟩, ⟨"foo", .del false [97]⟩]

theorem shared_accounted_twoQueuesRun : ∃ c,
    (shared Worker.move ⟨zeroHash, fun _ => []⟩).run (sharedLaunch fooBar) twoQueuesRun = some c ∧
      Accounted (onQueue "bar" twoQueuesRun) (c.srv.view "bar") ∧
      ∀ w v, (w, v) ∈ handed (onQueue "bar" twoQueuesRun) → fooBar w = "bar" := by
  obtain ⟨c, hc⟩ : ∃ c,
      (shared Worker.move ⟨zeroHash, fun _ => []⟩).run (sharedLaunch fooBar) twoQueuesRun = some c := ⟨_, rfl⟩
  have htr : ∀ x ∈ twoQueuesRun, ∃ y, x.queue = fooBar y := by decide
  exact ⟨c, hc, shared_accounted _ fooBar separate_fooBar htr hc ⟨true, rfl⟩ (by decide) (by decide)⟩

end RedisQueue
