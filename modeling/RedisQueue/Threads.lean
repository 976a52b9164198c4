import RedisQueue.Interleave
import RedisQueue.Program

/-!
# Programs side by side

A thread executes a program once and then the body of a loop over and over. Any number of threads
over one server make a `System` (`threads`): a step is one command of one thread, with the answer the
server gives, the end of a thread, or something that happens to the server from outside. A command
the server lets wait is no step; a command it refuses raises in the thread that sent it.

`Thread.move` is how a thread goes on, `Thread.Step` says the same case by case (`thread_move_iff`).
-/
namespace Threads
open Program Interleave

variable {W C O σ : Type} {R : C → Type}

structure Thread (C : Type) (R : C → Type) where
  body : Prog C R Ctl
  rest : Prog C R Ctl
  alive : Bool

inductive Act (W : Type) {C : Type} (R : C → Type) (O : Type) where
  | answered (w : W) (c : C) (r : R c)
  | refused (w : W) (c : C) (m : String)
  /-- An exception nobody catches. -/
  | raised (w : W) (m : String)
  | killed (w : W)
  | outside (o : O)

def Act.who : Act W R O → Option W
  | .answered w _ _ | .refused w _ _ | .raised w _ | .killed w => some w
  | .outside _ => none

/-- After `again` comes the next turn. -/
def resume (body : Prog C R Ctl) : Prog C R Ctl → Prog C R Ctl
  | .ret .again => body
  | p => p

theorem resume_self {body p : Prog C R Ctl} (hp : p ≠ .ret .again) : resume body p = p := by
  cases p with
  | ret a =>
    cases a with
    | again => exact absurd rfl hp
    | leave => rfl
  | raise m => rfl
  | call c k => rfl

def Thread.move [DecidableEq C] : Thread C R → Act W R O → Option (Thread C R)
  | ⟨body, .call c k, true⟩, .answered _ c' r => if h : c' = c then some ⟨body, resume body (k (h ▸ r)), true⟩ else none
  | ⟨body, .call c _, true⟩, .refused _ c' m => if c' = c then some ⟨body, .raise m, true⟩ else none
  | ⟨body, .raise m, true⟩, .raised _ m' => if m' = m then some ⟨body, .raise m, false⟩ else none
  | ⟨body, .call c k, true⟩, .killed _ => some ⟨body, .call c k, false⟩
  | ⟨body, .raise m, true⟩, .killed _ => some ⟨body, .raise m, false⟩
  | _, _ => none

/-- The steps of `Thread.move`, case by case. -/
inductive Thread.Step : Thread C R → Act W R O → Thread C R → Prop where
  | answered (body w c k r) : Step ⟨body, .call c k, true⟩ (.answered w c r) ⟨body, resume body (k r), true⟩
  | refused (body w c k m) : Step ⟨body, .call c k, true⟩ (.refused w c m) ⟨body, .raise m, true⟩
  | raised (body w m) : Step ⟨body, .raise m, true⟩ (.raised w m) ⟨body, .raise m, false⟩
  | killed (body w p) (hp : ∀ a, p ≠ .ret a) : Step ⟨body, p, true⟩ (.killed w) ⟨body, p, false⟩

theorem thread_move_iff [DecidableEq C] {t t' : Thread C R} {a : Act W R O} : t.move a = some t' ↔ t.Step a t' := by
  constructor
  · intro h
    unfold Thread.move at h
    split at h
    · split at h <;> cases h
      rename_i hc; subst hc; exact .answered _ _ _ _ _
    · split at h <;> cases h
      rename_i hc; subst hc; exact .refused _ _ _ _ _
    · split at h <;> cases h
      rename_i hm; subst hm; exact .raised _ _ _
    · cases h; exact .killed _ _ _ (by simp)
    · cases h; exact .killed _ _ _ (by simp)
    · cases h
  · intro h
    cases h with
    | killed body w p hp =>
      cases p with
      | ret a => exact absurd rfl (hp a)
      | raise m => rfl
      | call c k => rfl
    | _ => simp [Thread.move]

/-- What an act does to a server that answers commands with `h`, and that `out` changes from outside. -/
def serveAct [∀ c, DecidableEq (R c)] (h : σ → (c : C) → Answer (R c) σ) (out : σ → O → Option σ) (s : σ) :
    Act W R O → Option σ
  | .answered _ c r => (h s c).accept fun r' => r' = r
  | .refused _ c m => match h s c with
    | .refuse m' => if m' = m then some s else none
    | _ => none
  | .raised _ _ | .killed _ => some s
  | .outside o => out s o

section Serve
variable [∀ c, DecidableEq (R c)] {h : σ → (c : C) → Answer (R c) σ} {out : σ → O → Option σ} {s s' : σ} {w : W}
  {c : C}

@[simp] theorem serve_answered {r : R c} :
    serveAct h out s (.answered w c r) = some s' ↔ h s c = .reply r s' := by
  cases hc : h s c with
  | reply r' s₁ => simp [serveAct, Answer.accept, hc]
  | refuse m => simp [serveAct, Answer.accept, hc]
  | wait => simp [serveAct, Answer.accept, hc]

theorem serve_refused {m : String} :
    serveAct h out s (.refused w c m) = some s' ↔ h s c = .refuse m ∧ s' = s := by
  cases hc : h s c with
  | reply r s₁ => simp [serveAct, hc]
  | refuse m' => simp [serveAct, hc, eq_comm (a := s)]
  | wait => simp [serveAct, hc]

end Serve

/-- Threads over one server. -/
def threads [DecidableEq C] [∀ c, DecidableEq (R c)] (h : σ → (c : C) → Answer (R c) σ) (out : σ → O → Option σ) :
    System W (Act W R O) σ (Thread C R) where
  who := Act.who
  serve := serveAct h out
  move := Thread.move

end Threads
