import Mathlib.Data.List.Forall2

/-!
# Client programs: sequences of commands with replies

A program issues commands `c : C`, continues with the reply `r : R c`, and ends by
returning or raising. `Prog.run` executes it alone against a server that answers
each command with a reply, refuses it (the client raises), or leaves the client
waiting for somebody else. `turns` and `loop` execute a loop body over and over;
`Prog.Only` says which commands a program can issue, and `Prog.runFor` kills it in the middle.
-/
namespace Program

inductive Prog (C : Type) (R : C → Type) (α : Type) where
  | ret (a : α)
  | raise (msg : String)
  | call (c : C) (k : R c → Prog C R α)

/-- What a server does with one command. -/
inductive Answer (ρ σ : Type) where
  | reply (r : ρ) (s : σ)
  | refuse (msg : String)
  | wait

inductive Out (α : Type) where
  | ret (a : α)
  | raised (msg : String)
  | waiting
deriving DecidableEq, Repr

/-- The commands answered, in order, the state left behind, and how it ended. -/
structure Result (C : Type) (R : C → Type) (σ α : Type) where
  log : List (Sigma R)
  srv : σ
  out : Out α

variable {C : Type} {R : C → Type} {α β σ τ ω : Type}

def Prog.bind : Prog C R α → (α → Prog C R β) → Prog C R β
  | .ret a, f => f a
  | .raise m, _ => .raise m
  | .call c k, f => .call c fun r => (k r).bind f

instance : Monad (Prog C R) where
  pure := .ret
  bind := .bind

def issue (c : C) : Prog C R (R c) := .call c .ret

@[simp] theorem pure_eq (a : α) : (pure a : Prog C R α) = .ret a := rfl
@[simp] theorem bind_ret (a : α) (f : α → Prog C R β) : (Prog.ret a >>= f) = f a := rfl
@[simp] theorem bind_raise (m : String) (f : α → Prog C R β) :
    (Prog.raise m >>= f : Prog C R β) = .raise m := rfl
@[simp] theorem bind_call (c : C) (k : R c → Prog C R α) (f : α → Prog C R β) :
    (Prog.call c k >>= f) = .call c fun r => k r >>= f := rfl
@[simp] theorem issue_bind (c : C) (f : R c → Prog C R β) : (issue c >>= f) = .call c f := rfl

theorem prog_bind_assoc {γ : Type} (p : Prog C R α) (f : α → Prog C R β) (g : β → Prog C R γ) :
    ((p >>= f) >>= g) = p >>= fun a => f a >>= g := by
  induction p with
  | ret a => rfl
  | raise m => rfl
  | call c k ih => exact congrArg (Prog.call c) (funext fun r => ih r)

/-! ## Running alone -/

section Run
variable (h : σ → (c : C) → Answer (R c) σ)

def Prog.run : Prog C R α → σ → Result C R σ α
  | .ret a, s => ⟨[], s, .ret a⟩
  | .raise m, s => ⟨[], s, .raised m⟩
  | .call c k, s => match h s c with
    | .reply r s' => ⟨⟨c, r⟩ :: ((k r).run s').log, ((k r).run s').srv, ((k r).run s').out⟩
    | .refuse m => ⟨[], s, .raised m⟩
    | .wait => ⟨[], s, .waiting⟩

@[simp] theorem run_ret (a : α) (s : σ) : (Prog.ret a : Prog C R α).run h s = ⟨[], s, .ret a⟩ := rfl

@[simp] theorem run_raise (m : String) (s : σ) :
    (Prog.raise m : Prog C R α).run h s = ⟨[], s, .raised m⟩ := rfl

theorem run_reply {c : C} {k : R c → Prog C R α} {s s' : σ} {r : R c} (hr : h s c = .reply r s') :
    (Prog.call c k).run h s =
      ⟨⟨c, r⟩ :: ((k r).run h s').log, ((k r).run h s').srv, ((k r).run h s').out⟩ := by
  simp only [Prog.run, hr]

theorem run_refuse {c : C} {k : R c → Prog C R α} {s : σ} {m : String} (hr : h s c = .refuse m) :
    (Prog.call c k).run h s = ⟨[], s, .raised m⟩ := by
  simp only [Prog.run, hr]

theorem run_wait {c : C} {k : R c → Prog C R α} {s : σ} (hr : h s c = .wait) :
    (Prog.call c k).run h s = ⟨[], s, .waiting⟩ := by
  simp only [Prog.run, hr]

/-- **Sequencing**: `p >>= f` runs `p`, then `f` on its result from the state `p` left. -/
theorem run_bind (p : Prog C R α) (f : α → Prog C R β) : ∀ s : σ, (p >>= f).run h s =
    match (p.run h s).out with
    | .ret a => ⟨(p.run h s).log ++ ((f a).run h (p.run h s).srv).log,
        ((f a).run h (p.run h s).srv).srv, ((f a).run h (p.run h s).srv).out⟩
    | .raised m => ⟨(p.run h s).log, (p.run h s).srv, .raised m⟩
    | .waiting => ⟨(p.run h s).log, (p.run h s).srv, .waiting⟩ := by
  induction p with
  | ret a => intro s; rfl
  | raise m => intro s; rfl
  | call c k ih =>
    intro s
    rw [bind_call]
    cases hr : h s c with
    | reply r s' =>
      rw [run_reply h hr, run_reply h hr, ih r s']
      dsimp only
      cases ((k r).run h s').out <;> rfl
    | refuse m => rw [run_refuse h hr, run_refuse h hr]
    | wait => rw [run_wait h hr, run_wait h hr]

end Run

/-! ## Loops -/

/-- What a loop does after a turn. -/
inductive Ctl where
  | again | leave
deriving DecidableEq, Repr

/-- The results of the first `n` turns of a loop; the list stops short at the turn that
leaves the loop, raises or waits. -/
def turns (h : σ → (c : C) → Answer (R c) σ) (body : Prog C R Ctl) :
    Nat → σ → List (Result C R σ Ctl)
  | 0, _ => []
  | n + 1, s =>
    let r := body.run h s
    r :: match r.out with
      | .ret .again => turns h body n r.srv
      | _ => []

theorem turns_again {h : σ → (c : C) → Answer (R c) σ} {body : Prog C R Ctl} {s : σ}
    (hr : (body.run h s).out = .ret .again) (n : Nat) :
    turns h body (n + 1) s = body.run h s :: turns h body n (body.run h s).srv := by
  simp only [turns, hr]

theorem turns_stop {h : σ → (c : C) → Answer (R c) σ} {body : Prog C R Ctl} {s : σ}
    (hr : (body.run h s).out ≠ .ret .again) (n : Nat) :
    turns h body (n + 1) s = [body.run h s] := by
  simp only [turns]

/-- Two loops whose turns from related states look the same, and lead to related states
whenever they go on, look the same for ever. -/
theorem turns_bisim {C' : Type} {R' : C' → Type} {h : σ → (c : C) → Answer (R c) σ}
    {h' : τ → (c : C') → Answer (R' c) τ} {body : Prog C R Ctl} {body' : Prog C' R' Ctl}
    (Same : Result C R σ Ctl → Result C' R' τ Ctl → Prop) (Rel : σ → τ → Prop)
    (hout : ∀ r r', Same r r' → r.out = r'.out)
    (hturn : ∀ s t, Rel s t → Same (body.run h s) (body'.run h' t) ∧
      ((body.run h s).out = .ret .again → Rel (body.run h s).srv (body'.run h' t).srv)) :
    ∀ n s t, Rel s t → List.Forall₂ Same (turns h body n s) (turns h' body' n t) := by
  intro n
  induction n with
  | zero => intro s t _; exact .nil
  | succ n ih =>
    intro s t hrel
    obtain ⟨hsame, hnext⟩ := hturn s t hrel
    have ho := hout _ _ hsame
    by_cases hr : (body.run h s).out = .ret .again
    · rw [turns_again hr, turns_again (ho ▸ hr)]
      exact .cons hsame (ih _ _ (hnext hr))
    · rw [turns_stop hr, turns_stop (fun e => hr (ho.trans e))]
      exact .cons hsame .nil

/-- At most `n` turns of a loop, as one program. -/
def loop (body : Prog C R Ctl) : Nat → Prog C R Ctl
  | 0 => .ret .again
  | n + 1 => do
    match ← body with
    | .again => loop body n
    | .leave => return .leave

section Loop
variable {h : σ → (c : C) → Answer (R c) σ} {body : Prog C R Ctl} {s : σ}

theorem run_loop_again (hr : (body.run h s).out = .ret .again) (n : Nat) :
    (loop body (n + 1)).run h s =
      ⟨(body.run h s).log ++ ((loop body n).run h (body.run h s).srv).log,
        ((loop body n).run h (body.run h s).srv).srv, ((loop body n).run h (body.run h s).srv).out⟩ := by
  rw [loop, run_bind, hr]

theorem run_loop_stop (hr : (body.run h s).out ≠ .ret .again) (n : Nat) :
    (loop body (n + 1)).run h s = body.run h s := by
  rw [loop, run_bind]
  generalize body.run h s = r at hr
  obtain ⟨log, s', out⟩ := r
  cases out with
  | ret a =>
    cases a with
    | again => exact absurd rfl hr
    | leave => simp
  | raised m => rfl
  | waiting => rfl

/-- **The loop rule**: a turn that keeps `I` and goes on, goes on for ever. -/
theorem run_loop_keeps {I : σ → Prop} {p : Sigma R → Prop}
    (hturn : ∀ s, I s → (body.run h s).out = .ret .again ∧ I (body.run h s).srv ∧ ∀ x ∈ (body.run h s).log, p x) :
    ∀ n s, I s → ((loop body n).run h s).out = .ret .again ∧ I ((loop body n).run h s).srv ∧
      ∀ x ∈ ((loop body n).run h s).log, p x := by
  intro n
  induction n with
  | zero => intro s hs; exact ⟨rfl, hs, by simp [loop]⟩
  | succ n ih =>
    intro s hs
    obtain ⟨ho, hI, hp⟩ := hturn s hs
    obtain ⟨ho', hI', hp'⟩ := ih _ hI
    rw [run_loop_again ho]
    exact ⟨ho', hI', fun x hx => (List.mem_append.1 hx).elim (hp x) (hp' x)⟩

end Loop

/-! ## The commands of a program -/

/-- Every command the program can issue is of kind `p`. -/
def Prog.Only (p : C → Prop) : Prog C R α → Prop
  | .ret _ | .raise _ => True
  | .call c k => p c ∧ ∀ r, (k r).Only p

section Only
variable {p : C → Prop}

@[simp] theorem only_ret (a : α) : (Prog.ret a : Prog C R α).Only p := trivial

@[simp] theorem only_raise (m : String) : (Prog.raise m : Prog C R α).Only p := trivial

@[simp] theorem only_issue (c : C) : (issue c : Prog C R (R c)).Only p ↔ p c :=
  ⟨fun h => h.1, fun h => ⟨h, fun _ => trivial⟩⟩

theorem only_ite {b : Prop} [Decidable b] {q q' : Prog C R α} (hq : q.Only p) (hq' : q'.Only p) :
    (if b then q else q').Only p := by
  by_cases hb : b
  · rwa [if_pos hb]
  · rwa [if_neg hb]

theorem only_bind {q : Prog C R α} {f : α → Prog C R β} (hq : q.Only p) (hf : ∀ a, (f a).Only p) :
    (q >>= f).Only p := by
  induction q with
  | ret a => exact hf a
  | raise m => trivial
  | call c k ih => exact ⟨hq.1, fun r => ih r (hq.2 r)⟩

theorem only_loop {body : Prog C R Ctl} (hb : body.Only p) (n : Nat) : (loop body n).Only p := by
  induction n with
  | zero => trivial
  | succ n ih =>
    refine only_bind hb fun a => ?_
    cases a with
    | again => exact ih
    | leave => trivial

variable {h : σ → (c : C) → Answer (R c) σ}

theorem log_of_only {q : Prog C R α} (hq : q.Only p) : ∀ s, ∀ x ∈ (q.run h s).log, p x.1 := by
  induction q with
  | ret a => intro s x hx; simp at hx
  | raise m => intro s x hx; simp at hx
  | call c k ih =>
    intro s x hx
    cases hr : h s c with
    | reply r s' =>
      rw [run_reply h hr] at hx
      rcases List.mem_cons.1 hx with rfl | hx
      · exact hq.1
      · exact ih r (hq.2 r) s' x hx
    | refuse m => rw [run_refuse h hr] at hx; simp at hx
    | wait => rw [run_wait h hr] at hx; simp at hx

/-- **The frame rule**: what no command of kind `p` changes, a program of such commands does not. -/
theorem run_frame {Q : σ → Prop} {q : Prog C R α} (hq : q.Only p)
    (hstep : ∀ s c r s', p c → h s c = .reply r s' → Q s → Q s') : ∀ s, Q s → Q (q.run h s).srv := by
  induction q with
  | ret a => intro s hs; exact hs
  | raise m => intro s hs; exact hs
  | call c k ih =>
    intro s hs
    cases hr : h s c with
    | reply r s' =>
      rw [run_reply h hr]
      exact ih r (hq.2 r) s' (hstep s c r s' hq.1 hr hs)
    | refuse m => rw [run_refuse h hr]; exact hs
    | wait => rw [run_wait h hr]; exact hs

end Only

/-! ## Two servers -/

/-- The same answer, from the state that `f` makes of the one left behind. -/
def Answer.map {ρ : Type} (f : σ → τ) : Answer ρ σ → Answer ρ τ
  | .reply r s => .reply r (f s)
  | .refuse m => .refuse m
  | .wait => .wait

def Result.map (f : σ → τ) (r : Result C R σ α) : Result C R τ α := ⟨r.log, f r.srv, r.out⟩

/-- The state after an answer that is one of the replies that are `ok`. -/
def Answer.accept {ρ : Type} (ok : ρ → Bool) : Answer ρ σ → Option σ
  | .reply r s => if ok r then some s else none
  | .refuse _ | .wait => none

theorem accept_reply {ρ : Type} (ok : ρ → Bool) {a : Answer ρ σ} {s : σ} (h : a.accept ok = some s) :
    ∃ r, a = .reply r s := by
  cases a with
  | reply r s' =>
    simp only [Answer.accept, Option.ite_none_right_eq_some, Option.some.injEq] at h
    exact ⟨r, by rw [h.2]⟩
  | refuse m => cases h
  | wait => cases h

theorem accept_map {ρ : Type} (ok : ρ → Bool) (f : σ → τ) (a : Answer ρ σ) :
    (a.map f).accept ok = (a.accept ok).map f := by
  cases a with
  | reply r s =>
    by_cases h : ok r = true <;> simp [Answer.map, Answer.accept, h]
  | refuse m => rfl
  | wait => rfl

/-- **Refinement of servers**: when each answer of `h` is the answer of `h'`, seen through `f`, a
program cannot tell the two apart. -/
theorem run_map {h : σ → (c : C) → Answer (R c) σ} {h' : τ → (c : C) → Answer (R c) τ} {f : σ → τ}
    {I : σ → Prop} (hans : ∀ s c, I s → h' (f s) c = (h s c).map f)
    (hkeep : ∀ s c r s', I s → h s c = .reply r s' → I s') (q : Prog C R α) :
    ∀ s, I s → q.run h' (f s) = (q.run h s).map f ∧ I (q.run h s).srv := by
  induction q with
  | ret a => intro s hs; exact ⟨rfl, hs⟩
  | raise m => intro s hs; exact ⟨rfl, hs⟩
  | call c k ih =>
    intro s hs
    have ha := hans s c hs
    cases hr : h s c with
    | reply r s' =>
      rw [hr] at ha
      obtain ⟨hrun, hI⟩ := ih r s' (hkeep s c r s' hs hr)
      rw [run_reply h hr, run_reply h' ha, hrun]
      exact ⟨rfl, hI⟩
    | refuse m =>
      rw [hr] at ha
      rw [run_refuse h hr, run_refuse h' ha]
      exact ⟨rfl, hs⟩
    | wait =>
      rw [hr] at ha
      rw [run_wait h hr, run_wait h' ha]
      exact ⟨rfl, hs⟩

/-! ## Programs that are killed -/

/-- The program killed after `n` commands: what was answered, and the state left behind. -/
def Prog.runFor (h : σ → (c : C) → Answer (R c) σ) : Nat → Prog C R α → σ → List (Sigma R) × σ
  | 0, _, s => ([], s)
  | _ + 1, .ret _, s => ([], s)
  | _ + 1, .raise _, s => ([], s)
  | n + 1, .call c k, s => match h s c with
    | .reply r s' => (⟨c, r⟩ :: ((k r).runFor h n s').1, ((k r).runFor h n s').2)
    | _ => ([], s)

/-- **Killed is cut short**: what a killed run did is the beginning of the whole run. -/
theorem runFor_log {h : σ → (c : C) → Answer (R c) σ} (q : Prog C R α) :
    ∀ n s, (q.runFor h n s).1 = (q.run h s).log.take n := by
  induction q with
  | ret a => intro n s; cases n <;> rfl
  | raise m => intro n s; cases n <;> rfl
  | call c k ih =>
    intro n s
    cases n with
    | zero => rfl
    | succ n =>
      cases hr : h s c with
      | reply r s' => rw [run_reply h hr, List.take_succ_cons, ← ih r n s', Prog.runFor, hr]
      | refuse m => rw [run_refuse h hr, Prog.runFor, hr]; rfl
      | wait => rw [run_wait h hr, Prog.runFor, hr]; rfl

/-- The program killed again and again, after the given numbers of commands, started from the
beginning each time, and at last left to run. -/
def Prog.restarted (h : σ → (c : C) → Answer (R c) σ) (q : Prog C R α) :
    List Nat → σ → List (Sigma R) × σ
  | [], s => ((q.run h s).log, (q.run h s).srv)
  | n :: kills, s => ((q.runFor h n s).1 ++ (q.restarted h kills (q.runFor h n s).2).1,
    (q.restarted h kills (q.runFor h n s).2).2)

end Program
