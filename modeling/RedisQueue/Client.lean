import RedisQueue.Daemon

/-!
# The clients a queue is meant for

What a process does between two operations does not matter to the queue, as long as it
calls `complete` only on an item `lease` handed to it, once for each hand-over. `Client`
is any such process: idle, inside a `lease` that has popped, or inside a `complete` that
has removed, with the items it holds. The `sub` process is one of them
(`worker_is_client`), run for run (`client_run_of_daemon`), so everything proved about
clients holds of the daemon.
-/
namespace RedisQueue
open Interleave

variable {W K : Type}

inductive Mode where
  | idle
  /-- `lease` has popped `v`; its `SETEX` is next. -/
  | leasing (v : Bytes)
  /-- `complete` has executed the `LREM` of `v`; its `DEL` is next. -/
  | completing (v : Bytes)
deriving DecidableEq

/-- `held`: the items handed out by `lease` and not yet given to `complete`. -/
structure Client where
  mode : Mode
  held : List Bytes
  alive : Bool
deriving DecidableEq

def Client.move : Client → Ev W K → Option Client
  | ⟨.idle, h, true⟩, .llen _ _ _ => some ⟨.idle, h, true⟩
  | ⟨.idle, h, true⟩, .pop _ none => some ⟨.idle, h, true⟩
  | ⟨.idle, h, true⟩, .pop _ (some v) =>
    some (if v = [] then ⟨.idle, v :: h, true⟩ else ⟨.leasing v, h, true⟩)
  | ⟨.leasing v, h, true⟩, .setex _ x => if x = v then some ⟨.idle, v :: h, true⟩ else none
  | ⟨.idle, h, true⟩, .work _ v => if v ∈ h then some ⟨.idle, h, true⟩ else none
  | ⟨.idle, h, true⟩, .raise _ v => if v ∈ h then some ⟨.idle, h, false⟩ else none
  | ⟨.idle, h, true⟩, .lrem _ v _ => if v ∈ h then some ⟨.completing v, h.erase v, true⟩ else none
  | ⟨.completing v, h, true⟩, .del _ x => if x = v then some ⟨.idle, h, true⟩ else none
  | ⟨m, h, true⟩, .crash _ => some ⟨m, h, false⟩
  | _, _ => none

inductive Client.Step : Client → Ev W K → Client → Prop where
  | llen (h w q n) : Step ⟨.idle, h, true⟩ (.llen w q n) ⟨.idle, h, true⟩
  | timeout (h w) : Step ⟨.idle, h, true⟩ (.pop w none) ⟨.idle, h, true⟩
  | popEmpty (h w) : Step ⟨.idle, h, true⟩ (.pop w (some [])) ⟨.idle, [] :: h, true⟩
  | pop (h w v) (hv : v ≠ []) : Step ⟨.idle, h, true⟩ (.pop w (some v)) ⟨.leasing v, h, true⟩
  | setex (h w v) : Step ⟨.leasing v, h, true⟩ (.setex w v) ⟨.idle, v :: h, true⟩
  | work (h w v) (hv : v ∈ h) : Step ⟨.idle, h, true⟩ (.work w v) ⟨.idle, h, true⟩
  | raise (h w v) (hv : v ∈ h) : Step ⟨.idle, h, true⟩ (.raise w v) ⟨.idle, h, false⟩
  | lrem (h w v n) (hv : v ∈ h) :
    Step ⟨.idle, h, true⟩ (.lrem w v n) ⟨.completing v, h.erase v, true⟩
  | del (h w v) : Step ⟨.completing v, h, true⟩ (.del w v) ⟨.idle, h, true⟩
  | crash (m h w) : Step ⟨m, h, true⟩ (.crash w) ⟨m, h, false⟩

theorem client_move_iff {l l' : Client} {e : Ev W K} : l.move e = some l' ↔ Client.Step l e l' := by
  constructor
  · intro h
    unfold Client.move at h
    split at h
    · cases h; exact .llen _ _ _ _
    · cases h; exact .timeout _ _
    · rename_i v
      by_cases hv : v = []
      · subst hv; cases h; exact .popEmpty _ _
      · rw [if_neg hv] at h; cases h; exact .pop _ _ _ hv
    · split at h <;> cases h
      rename_i hx; subst hx; exact .setex _ _ _
    · split at h <;> cases h
      rename_i hx; exact .work _ _ _ hx
    · split at h <;> cases h
      rename_i hx; exact .raise _ _ _ hx
    · split at h <;> cases h
      rename_i hx; exact .lrem _ _ _ _ hx
    · split at h <;> cases h
      rename_i hx; subst hx; exact .del _ _ _
    · cases h; exact .crash _ _ _
    · cases h
  · intro h
    cases h <;> simp_all [Client.move]

def clients [DecidableEq K] (P : Params W K) : System W (Ev W K) (Server K) Client where
  who := Ev.who
  serve := serve P
  move := Client.move

/-- Every client idle and empty-handed, the queue in state `s`. -/
def ready (s : Server K) : Config W (Server K) Client := ⟨s, fun _ => ⟨.idle, [], true⟩⟩

/-! ## The `sub` process is a client -/

def PC.mode : PC → Mode
  | .setex v => .leasing v
  | .del v => .completing v
  | _ => .idle

def PC.held : PC → List Bytes
  | .item v | .lrem v => [v]
  | _ => []

def Worker.toClient (l : Worker) : Client := ⟨l.pc.mode, l.pc.held, l.alive⟩

theorem afterEmpty_mode (g b : Bool) : (afterEmpty g b).mode = .idle := by cases g <;> cases b <;> rfl

theorem afterEmpty_held (g b : Bool) : (afterEmpty g b).held = [] := by cases g <;> cases b <;> rfl

theorem worker_is_client [DecidableEq K] (P : Params W K) :
    LocalSim (daemon P) (clients P) Worker.toClient where
  who _ := rfl
  serve _ _ _ h := h
  move l e l' h := by
    refine client_move_iff.2 ?_
    cases move_iff.1 h with
    | probeMain g w n =>
      have hpc : (if n = 0 then PC.probe g .processing else afterEmpty g false).mode = .idle ∧
          (if n = 0 then PC.probe g .processing else afterEmpty g false).held = [] := by
        split
        · exact ⟨rfl, rfl⟩
        · exact ⟨afterEmpty_mode g false, afterEmpty_held g false⟩
      simp only [Worker.toClient, hpc]
      exact .llen _ _ _ _
    | probeProcessing g w n =>
      simp only [Worker.toClient, afterEmpty_mode, afterEmpty_held]
      exact .llen _ _ _ _
    | timeout w => exact .timeout _ _
    | pop w v =>
      by_cases hv : v = []
      · subst hv; exact .popEmpty _ _
      · simp only [Worker.toClient, if_neg hv]; exact .pop _ _ _ hv
    | setex w v => exact .setex _ _ _
    | work w v hd => exact .work _ _ _ (List.mem_singleton_self v)
    | raise w v hd => exact .raise _ _ _ (List.mem_singleton_self v)
    | lrem w v n =>
      have hlrem := Client.Step.lrem (K := K) [v] w v n (List.mem_singleton_self v)
      rw [List.erase_cons_head] at hlrem
      exact hlrem
    | del w v => exact .del _ _ _
    | crash w pc hx => exact .crash _ _ _

/-- **The daemon refines the clients**: a run of workers is the same run of clients. -/
theorem client_run_of_daemon [DecidableEq W] [DecidableEq K] {P : Params W K} {s : Server K}
    {tr : List (Ev W K)} {c : Config W (Server K) Worker}
    (h : (daemon P).run (launch s) tr = some c) :
    (clients P).run (ready s) tr = some (c.map Worker.toClient) :=
  (worker_is_client P).run h

/-! ## Items in a client's hands -/

/-- Popped and not yet removed. -/
def Client.inHand (l : Client) : List Bytes :=
  match l.mode with
  | .leasing v => v :: l.held
  | _ => l.held

/-- A client that removes `v` had it in hand. -/
theorem inHand_of_lrem {l l' : Client} {w : W} {n : Nat} {v : Bytes}
    (h : l.move (K := K) (.lrem w v n) = some l') :
    v ∈ l.inHand := by
  cases client_move_iff.1 h with
  | lrem h _ _ _ hv => exact hv

theorem inHand_of_setex {l l' : Client} {w : W} {v : Bytes}
    (h : l.move (K := K) (.setex w v) = some l') : v ∈ l.inHand := by
  cases client_move_iff.1 h with
  | setex h => exact List.mem_cons_self

/-- The item a worker has popped and not yet removed. -/
def PC.carries : PC → Option Bytes
  | .setex v | .item v | .lrem v => some v
  | _ => none

theorem toClient_inHand (l : Worker) : l.toClient.inHand = l.pc.carries.toList := by
  obtain ⟨pc, alive⟩ := l
  cases pc <;> rfl

theorem mem_toClient_inHand {l : Worker} {v : Bytes} : v ∈ l.toClient.inHand ↔ l.pc.carries = some v := by
  rw [toClient_inHand, Option.mem_toList]

section Ledger
variable [DecidableEq W] [DecidableEq K] {P : Params W K} {tr : List (Ev W K)}
  {c c' : Config W (Server K) Client}

/-- What has been pushed is in the main list or has been popped. -/
theorem main_ledger (v : Bytes) (h : (clients P).run c tr = some c') :
    c.srv.main.count v + (published tr).count v =
      c'.srv.main.count v + ((handed tr).map Prod.snd).count v := by
  rw [handed_items, published, count_filterMap, count_filterMap]
  refine server_ledger (clients P) (fun s => s.main.count v) _ _ (fun s e s' hs => ?_) h
  rcases serve_lists hs with ⟨h1, h2, _, hm, _⟩ | ⟨x, rfl, hm, _⟩ | ⟨w, x, rfl, hm, _⟩ | ⟨w, x, n, rfl, _, hm, _⟩
  · rw [h1, h2, hm]; rfl
  · rw [hm]; simp [Ev.pushes, Ev.hands, List.count_append]
  · rw [hm]; simp [Ev.pushes, Ev.hands, List.count_append]
  · rw [hm]; rfl

/-- The number of elements an `LREM` of `v` took out. -/
def Ev.took (v : Bytes) : Ev W K → Nat
  | .lrem _ x n => if x = v then n else 0
  | _ => 0

/-- What has been popped is in the processing list or has been taken out by an `LREM`. -/
theorem processing_ledger (v : Bytes) (h : (clients P).run c tr = some c') :
    c.srv.processing.count v + ((handed tr).map Prod.snd).count v =
      c'.srv.processing.count v + (tr.map (Ev.took v)).sum := by
  rw [handed_items, count_filterMap]
  refine server_ledger (clients P) (fun s => s.processing.count v) _ _ (fun s e s' hs => ?_) h
  rcases serve_lists hs with ⟨_, h2, h3, _, hp⟩ | ⟨x, rfl, _, hp⟩ | ⟨w, x, rfl, _, hp⟩ | ⟨w, x, n, rfl, hn, _, hp⟩
  · rw [h2, hp]
    cases e with
    | lrem w x n => cases h3
    | _ => rfl
  · rw [hp]; rfl
  · rw [hp]; simp [Ev.took, Ev.hands, List.count_cons]
  · rw [hp]
    by_cases hx : x = v
    · subst hx; simp [Ev.took, Ev.hands, hn, List.count_eq_zero]
    · have hne : v ≠ x := fun e => hx e.symm
      simp [Ev.took, Ev.hands, hx, List.count_filter, hne]

/-- What a client popped it has removed, or still has in its hands. -/
theorem hand_ledger (w : W) (v : Bytes) (h : (clients P).run c tr = some c') :
    (c.loc w).inHand.count v + (handed tr).count (w, v) =
      (c'.loc w).inHand.count v + (removed tr).count (w, v) := by
  refine observed_ledger (clients P) w v (fun l => l.inHand.count v) hands_who removes_who
    (fun l e l' hw hm => ?_) h
  cases client_move_iff.1 hm with
  | popEmpty h x => cases hw; simp [Client.inHand, Ev.hands, Ev.removes, List.count_cons]
  | pop h x u hu => cases hw; simp [Client.inHand, Ev.hands, Ev.removes, List.count_cons]
  | lrem h x u n hu =>
    cases hw
    simp only [Client.inHand, Ev.hands, Ev.removes, Option.toList, List.count_nil, List.count_cons]
    by_cases huv : u = v
    · subst huv
      have := List.count_pos_iff.2 hu
      simp [List.count_erase_self]; omega
    · simp [List.count_erase_of_ne (Ne.symm huv), huv]
  | _ => rfl

end Ledger

end RedisQueue
