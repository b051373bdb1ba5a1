import Kirakira.Lib.Transition
import Mathlib.Data.List.Nodup
import Mathlib.Logic.Function.Basic

/-!
# Messages That Steer a Reply

`conversation/steer.py` keeps the messages that arrive while a reply is being generated. A
message is staged in a list of its session; the reply task takes the list into its hands
between two steps and writes it message by message, and what it could not write goes back to
the list. A waiter for each watched task takes over when the task is over: it follows the task
that replies now, or turns what is staged into ordinary inputs.

A step of the system is what one coroutine does between two awaits. The coroutines that run are
numbered. What the tasks do is left to the environment; `steer` and `accept` may fail, before
their commit or after it, and do not write a message id that is written already.

* A **hand** is a list that was taken from the staging list: by an inject, or by a waiter that
  turns it into inputs.
* A **waiter** is a settlement that has not looked for the next task yet: it waits for its task
  to end, or for the runtime scope.
* `owed` records what was staged and not withdrawn since.

## Main results

* `steers_kept` — in every run in which no message is staged that is in a
  hand, and no waiter looks away from the messages that an inject of another task holds, no
  message is lost, staged messages are waited for, and a withdrawn message is not written.
* `stranded_and_rewritten` — without the condition, a message stays in the list with nobody
  waiting, and a message is written after it was withdrawn.
-/

namespace Kirakira.Conversation

/-! ### The state -/

/-- `_Staged`. -/
structure Staged where
  messageId : String
  message : String
  deriving DecidableEq, Repr

/-- A list that was taken from the staging list of a session. -/
structure Hand where
  /-- The reply task that writes it between two steps; none for a settlement. -/
  holder : Option ℕ
  session : String
  items : List Staged
  deriving DecidableEq, Repr

/-- What a waiter waits for. -/
inductive Waiting where
  | task (task : ℕ)
  | scope
  deriving DecidableEq, Repr

/-- A settlement that has not decided yet. -/
structure Waiter where
  session : String
  waiting : Waiting
  deriving DecidableEq, Repr

/-- `Steers`, its coroutines, the tasks around it and the inputs that were written. -/
structure State where
  staged : String → List Staged
  watched : String → Option ℕ
  bound : List ℕ
  queue : List (String × ℕ)
  waiters : ℕ → Option Waiter
  hands : ℕ → Option Hand
  /-- The task that replies for a session. -/
  active : String → Option ℕ
  /-- The tasks that are over. -/
  done : List ℕ
  /-- The tasks that are in an inject. -/
  injects : List ℕ
  /-- Whether the runtime scope can be entered. -/
  scope : Bool
  /-- The inputs of the ledger, by session and id. -/
  log : List (String × String)
  /-- The messages that `accept` refused. -/
  refused : List (String × String)
  /-- The messages that were staged and not withdrawn since. -/
  owed : List (String × String)

/-- Nothing is staged. -/
def State.initial : State where
  staged _ := []
  watched _ := none
  bound := []
  queue := []
  waiters _ := none
  hands _ := none
  active _ := none
  done := []
  injects := []
  scope := true
  log := []
  refused := []
  owed := []

/-- What happens next. -/
inductive Event where
  /-- A reply task begins to accept messages between its steps. -/
  | bind (task : ℕ)
  /-- A task replies for a session from now on. -/
  | activate (session : String) (task : ℕ)
  /-- The reply of a session is superseded or stopped. -/
  | revoke (session : String)
  /-- A task is over. -/
  | finish (task : ℕ)
  /-- The runtime scope closes. -/
  | closeScope
  | stage (session : String) (item : Staged)
  | withdraw (session messageId : String)
  /-- The reply task takes the list. -/
  | inject (n task : ℕ) (session : String)
  /-- `steer` returns for the first message of an inject. -/
  | steered (n : ℕ)
  /-- `steer` raises, or the inject is cancelled in it. -/
  | steerFailed (n : ℕ) (committed : Bool)
  /-- `run` begins a settlement. -/
  | dequeue (n : ℕ)
  /-- The task of a waiter is over. -/
  | joined (n : ℕ)
  /-- A waiter has entered the scope and asks who replies now. -/
  | entered (n : ℕ)
  /-- A waiter cannot enter the scope. -/
  | notEntered (n : ℕ)
  /-- `accept` returns for the first message of a settlement. -/
  | accepted (n : ℕ)
  /-- `accept` raises. -/
  | acceptFailed (n : ℕ) (committed : Bool)
  deriving DecidableEq, Repr

/-! ### The steps -/

namespace State

/-- An input is written, unless its id is written already. -/
def write (s : State) (session messageId : String) : State :=
  if (session, messageId) ∈ s.log then s else { s with log := s.log ++ [(session, messageId)] }

/-- A hand is let go, and an inject is over. -/
def release (s : State) (n : ℕ) (h : Hand) : State :=
  { s with
    hands := Function.update s.hands n none
    injects := h.holder.elim s.injects s.injects.erase }

/-- A hand without its first message: a list that is empty is let go. -/
def dropFirst (s : State) (n : ℕ) (h : Hand) : State :=
  match h.items.tail with
  | [] => s.release n h
  | items => { s with hands := Function.update s.hands n (some { h with items := items }) }

/-- Whether a number is free. -/
def Free (s : State) (n : ℕ) : Prop :=
  s.waiters n = none ∧ s.hands n = none

instance (s : State) (n : ℕ) : Decidable (s.Free n) :=
  inferInstanceAs (Decidable (_ ∧ _))

/-- `self._watched[session_id] = task`, and a settlement is queued for it. -/
def watch (s : State) (session : String) (task : ℕ) : State :=
  { s with
    watched := Function.update s.watched session (some task)
    queue := s.queue ++ [(session, task)] }

/-- `stage`, where a bound task replies. -/
def stage (s : State) (session : String) (item : Staged) : State :=
  match s.active session with
  | none => s
  | some task =>
      if task ∈ s.bound then
        let items := s.staged session
        let s := { s with
          staged := Function.update s.staged session
            (if ∀ old ∈ items, old.messageId ≠ item.messageId then items ++ [item] else items)
          owed := (session, item.messageId) :: s.owed }
        if s.watched session = some task then s else s.watch session task
      else s

/-- `withdraw`: whether the message was there, and the state without it. -/
def withdraw (s : State) (session messageId : String) : Bool × State :=
  if ∃ item ∈ s.staged session, item.messageId = messageId then
    (true, { s with
      staged := Function.update s.staged session
        ((s.staged session).eraseP fun item => item.messageId = messageId)
      owed := s.owed.filter (· ≠ (session, messageId)) })
  else (false, s)

/-- `inject`, up to its first await. -/
def inject (s : State) (n task : ℕ) (session : String) : State :=
  match s.staged session with
  | [] => s
  | items => { s with
      staged := Function.update s.staged session []
      hands := Function.update s.hands n (some ⟨some task, session, items⟩)
      injects := task :: s.injects }

/-- What `inject` does with a message that it could not write. -/
def putBack (s : State) (n : ℕ) (h : Hand) : State :=
  { s with
    staged := Function.update s.staged h.session (h.items ++ s.staged h.session) }.release n h

/-- `_settle` after `join`: it is over when nothing is staged. -/
def joined (s : State) (n task : ℕ) (session : String) : State :=
  let s := if s.watched session = some task then
      { s with watched := Function.update s.watched session none }
    else s
  if s.staged session = [] then { s with waiters := Function.update s.waiters n none }
  else { s with waiters := Function.update s.waiters n (some ⟨session, .scope⟩) }

/-- `_settle` inside the scope: another waiter for the task that replies now, or the whole list
in its hands. -/
def entered (s : State) (n : ℕ) (session : String) : State :=
  let s := { s with waiters := Function.update s.waiters n none }
  match s.active session with
  | some current => s.watch session current
  | none =>
      match s.staged session with
      | [] => s
      | items => { s with
          staged := Function.update s.staged session []
          hands := Function.update s.hands n (some ⟨none, session, items⟩) }

end State

/-- The state after an event that can happen. -/
def after (s : State) : Event → Option State
  | .bind task => some { s with bound := task :: s.bound }
  | .activate session task =>
      if task ∈ s.done then none
      else some { s with active := Function.update s.active session (some task) }
  | .revoke session => some { s with active := Function.update s.active session none }
  | .finish task =>
      if task ∈ s.injects then none
      else some { s with
        active := fun session => if s.active session = some task then none else s.active session
        done := task :: s.done }
  | .closeScope => some { s with scope := false }
  | .stage session item => some (s.stage session item)
  | .withdraw session messageId => some (s.withdraw session messageId).2
  | .inject n task session =>
      if s.Free n ∧ task ∈ s.bound ∧ task ∉ s.done ∧ task ∉ s.injects then
        some (s.inject n task session) else none
  | .steered n =>
      match s.hands n with
      | some ⟨some task, session, item :: items⟩ =>
          some ((s.write session item.messageId).dropFirst n ⟨some task, session, item :: items⟩)
      | _ => none
  | .steerFailed n committed =>
      match s.hands n with
      | some ⟨some task, session, item :: items⟩ =>
          let s := if committed then s.write session item.messageId else s
          some (s.putBack n ⟨some task, session, item :: items⟩)
      | _ => none
  | .dequeue n =>
      match s.queue with
      | (session, task) :: queue =>
          if s.Free n then some { s with
            queue := queue
            waiters := Function.update s.waiters n (some ⟨session, .task task⟩) }
          else none
      | [] => none
  | .joined n =>
      match s.waiters n with
      | some ⟨session, .task task⟩ =>
          if task ∈ s.done then some (s.joined n task session) else none
      | _ => none
  | .entered n =>
      match s.waiters n with
      | some ⟨session, .scope⟩ => if s.scope then some (s.entered n session) else none
      | _ => none
  | .notEntered n =>
      match s.waiters n with
      | some ⟨_, .scope⟩ =>
          if s.scope then none else some { s with waiters := Function.update s.waiters n none }
      | _ => none
  | .accepted n =>
      match s.hands n with
      | some ⟨none, session, item :: items⟩ =>
          some ((s.write session item.messageId).dropFirst n ⟨none, session, item :: items⟩)
      | _ => none
  | .acceptFailed n committed =>
      match s.hands n with
      | some ⟨none, session, item :: items⟩ =>
          let s := if committed then s.write session item.messageId else s
          let s := { s with refused := (session, item.messageId) :: s.refused }
          some (s.dropFirst n ⟨none, session, item :: items⟩)
      | _ => none

/-- `Steers` as a transition system. -/
def system : Transition.System State Event where
  init s := s = .initial
  step s e t := after s e = some t

/-! ### Where messages are -/

/-- The messages of a session in a place: the staging list, or a hand. -/
def itemsIn (staged : String → List Staged) (hands : ℕ → Option Hand) (session : String) :
    Option ℕ → List Staged
  | none => staged session
  | some n => (hands n).elim [] fun h => if h.session = session then h.items else []

/-- The message ids of a session in a place. -/
def idsIn (staged : String → List Staged) (hands : ℕ → Option Hand) (session : String)
    (place : Option ℕ) : List String :=
  (itemsIn staged hands session place).map fun item => item.messageId

namespace State

/-- The message ids of a session in a place. -/
def idsAt (s : State) (session : String) (place : Option ℕ) : List String :=
  idsIn s.staged s.hands session place

/-- A message is in the staging list or in a hand. -/
def Placed (s : State) (session messageId : String) : Prop :=
  ∃ place, messageId ∈ s.idsAt session place

/-- An inject holds messages of a session. -/
def Injecting (s : State) (session : String) : Prop :=
  ∃ n h, s.hands n = some h ∧ h.holder ≠ none ∧ h.session = session

/-- A settlement of a session is queued, or a waiter that is none of the given number. -/
def PendingBut (s : State) (n : Option ℕ) (session : String) : Prop :=
  (∃ task, (session, task) ∈ s.queue) ∨
    ∃ n' w, some n' ≠ n ∧ s.waiters n' = some w ∧ w.session = session

/-- A settlement of a session is queued or waits. -/
def Pending (s : State) (session : String) : Prop :=
  s.PendingBut none session

end State

section Places

variable {staged : String → List Staged} {hands : ℕ → Option Hand} {session : String}
  {place : Option ℕ}

theorem idsIn_staged (changed : String) (items : List Staged) :
    idsIn (Function.update staged changed items) hands session place =
      if place = none ∧ session = changed then items.map fun item => item.messageId
      else idsIn staged hands session place := by
  cases place with
  | some n => rw [if_neg (by simp)]; rfl
  | none =>
      by_cases h : session = changed
      · subst h
        rw [if_pos ⟨rfl, rfl⟩, idsIn, itemsIn, Function.update_self]
      · rw [if_neg fun hb => h hb.2, idsIn, itemsIn, Function.update_of_ne h]
        rfl

theorem idsIn_hand (n : ℕ) (h : Hand) :
    idsIn staged (Function.update hands n (some h)) session place =
      if place = some n then
        if h.session = session then h.items.map fun item => item.messageId else []
      else idsIn staged hands session place := by
  cases place with
  | none => rfl
  | some n' =>
      by_cases hn : n' = n
      · subst hn
        rw [if_pos rfl, idsIn, itemsIn, Function.update_self, Option.elim_some]
        split <;> rfl
      · rw [if_neg (by simpa using hn), idsIn, itemsIn, Function.update_of_ne hn]
        rfl

theorem idsIn_noHand (n : ℕ) :
    idsIn staged (Function.update hands n none) session place =
      if place = some n then [] else idsIn staged hands session place := by
  cases place with
  | none => rfl
  | some n' =>
      by_cases hn : n' = n
      · subst hn
        rw [if_pos rfl, idsIn, itemsIn, Function.update_self]
        rfl
      · rw [if_neg (by simpa using hn), idsIn, itemsIn, Function.update_of_ne hn]
        rfl

end Places

/-- No message is in two places, or in one place twice. -/
def Once (ids : String → Option ℕ → List String) : Prop :=
  ∀ session place, (ids session place).Nodup ∧
    ∀ other m, m ∈ ids session place → m ∈ ids session other → place = other

section Once

variable {ids ids' : String → Option ℕ → List String}

theorem Once.sublist (h : Once ids) (hsub : ∀ x p, List.Sublist (ids' x p) (ids x p)) :
    Once ids' := by
  intro x p
  refine ⟨(h x p).1.sublist (hsub x p), fun q m hp hq => ?_⟩
  exact (h x p).2 q m ((hsub x p).subset hp) ((hsub x q).subset hq)

/-- All messages of one place that go to the front of another. -/
theorem Once.move (h : Once ids) {x₀ : String} {p₀ q₀ : Option ℕ} (hne : p₀ ≠ q₀)
    (hfrom : ids' x₀ p₀ = []) (hto : ids' x₀ q₀ = ids x₀ p₀ ++ ids x₀ q₀)
    (hsame : ∀ x p, (x = x₀ → p ≠ p₀ ∧ p ≠ q₀) → ids' x p = ids x p) : Once ids' := by
  have hold : ∀ x p m, m ∈ ids' x p → m ∈ ids x p ∨ x = x₀ ∧ p = q₀ ∧ m ∈ ids x p₀ := by
    intro x p m hm
    by_cases hx : x = x₀
    · subst hx
      by_cases hp : p = p₀
      · rw [hp, hfrom] at hm
        cases hm
      · by_cases hq : p = q₀
        · rw [hq, hto] at hm
          rcases List.mem_append.mp hm with hm | hm
          · exact .inr ⟨rfl, hq, hm⟩
          · exact .inl (hq ▸ hm)
        · rw [hsame x p fun _ => ⟨hp, hq⟩] at hm
          exact .inl hm
    · rw [hsame x p fun heq => absurd heq hx] at hm
      exact .inl hm
  have hgone : ∀ p m, m ∈ ids' x₀ p → p ≠ p₀ := by
    rintro p m hm rfl
    rw [hfrom] at hm
    cases hm
  intro x p
  constructor
  · by_cases hx : x = x₀
    · subst hx
      by_cases hp : p = p₀
      · rw [hp, hfrom]
        exact List.nodup_nil
      · by_cases hq : p = q₀
        · rw [hq, hto]
          refine List.nodup_append.mpr ⟨(h x p₀).1, (h x q₀).1, ?_⟩
          rintro m hm _ hm' rfl
          exact hne ((h x p₀).2 q₀ m hm hm')
        · rw [hsame x p fun _ => ⟨hp, hq⟩]
          exact (h x p).1
    · rw [hsame x p fun heq => absurd heq hx]
      exact (h x p).1
  · intro q m hm hm'
    rcases hold x p m hm with hp | ⟨rfl, rfl, hp⟩
    · rcases hold x q m hm' with hq | ⟨rfl, rfl, hq⟩
      · exact (h x p).2 q m hp hq
      · exact absurd ((h x p).2 p₀ m hp hq) (hgone p m hm)
    · rcases hold x q m hm' with hq | ⟨-, rfl, -⟩
      · exact absurd ((h x p₀).2 q m hp hq).symm (hgone q m hm')
      · rfl

theorem mem_move {x₀ : String} {p₀ q₀ : Option ℕ} (hto : ids' x₀ q₀ = ids x₀ p₀ ++ ids x₀ q₀)
    (hsame : ∀ x p, (x = x₀ → p ≠ p₀ ∧ p ≠ q₀) → ids' x p = ids x p) {x : String}
    {p : Option ℕ} {m : String} (hm : m ∈ ids x p) : ∃ q, m ∈ ids' x q := by
  by_cases hx : x = x₀
  · subst hx
    by_cases hp : p = p₀
    · exact ⟨q₀, hto ▸ List.mem_append_left _ (hp ▸ hm)⟩
    · by_cases hq : p = q₀
      · exact ⟨q₀, hto ▸ List.mem_append_right _ (hq ▸ hm)⟩
      · exact ⟨p, (hsame x p fun _ => ⟨hp, hq⟩).symm ▸ hm⟩
  · exact ⟨p, (hsame x p fun heq => absurd heq hx).symm ▸ hm⟩

theorem Once.add (h : Once ids) {x₀ : String} {p₀ : Option ℕ} {m₀ : String}
    (hnew : ∀ p, m₀ ∉ ids x₀ p) (hto : ids' x₀ p₀ = ids x₀ p₀ ++ [m₀])
    (hsame : ∀ x p, (x = x₀ → p ≠ p₀) → ids' x p = ids x p) : Once ids' := by
  have hold : ∀ x p m, m ∈ ids' x p → m ∈ ids x p ∨ x = x₀ ∧ p = p₀ ∧ m = m₀ := by
    intro x p m hm
    by_cases hx : x = x₀ ∧ p = p₀
    · rw [hx.1, hx.2, hto] at hm
      rcases List.mem_append.mp hm with hm | hm
      · exact .inl (hx.1 ▸ hx.2 ▸ hm)
      · exact .inr ⟨hx.1, hx.2, List.mem_singleton.mp hm⟩
    · rw [hsame x p fun heq hp => hx ⟨heq, hp⟩] at hm
      exact .inl hm
  intro x p
  constructor
  · by_cases hx : x = x₀ ∧ p = p₀
    · rw [hx.1, hx.2, hto]
      refine List.nodup_append.mpr ⟨(h x₀ p₀).1, List.nodup_singleton m₀, ?_⟩
      rintro m hm _ hm' rfl
      exact hnew p₀ (List.mem_singleton.mp hm' ▸ hm)
    · rw [hsame x p fun heq hp => hx ⟨heq, hp⟩]
      exact (h x p).1
  · intro q m hm hm'
    rcases hold x p m hm with hp | ⟨rfl, rfl, rfl⟩
    · rcases hold x q m hm' with hq | ⟨rfl, rfl, rfl⟩
      · exact (h x p).2 q m hp hq
      · exact absurd hp (hnew p)
    · rcases hold x q m hm' with hq | ⟨-, rfl, -⟩
      · exact absurd hq (hnew q)
      · rfl

end Once

/-! ### The invariant -/

/-- What holds between two steps. -/
structure Inv (s : State) : Prop where
  /-- A watched task has a settlement that is queued or waits for it. -/
  watched : ∀ session task, s.watched session = some task →
    (session, task) ∈ s.queue ∨ ∃ n, s.waiters n = some ⟨session, .task task⟩
  apart : ∀ n w, s.waiters n = some w → s.hands n = none
  once : Once s.idsAt
  owed : ∀ session m, (session, m) ∈ s.owed →
    s.Placed session m ∨ (session, m) ∈ s.log ∨ (session, m) ∈ s.refused
  log : s.log.Nodup
  pending : s.scope = true → ∀ session, s.staged session ≠ [] ∨ s.Injecting session →
    s.Pending session

/-- When a step keeps what is staged and held from getting lost: no message is staged that is in
a hand, and a waiter that looks away while an inject holds messages leaves another one. -/
def Watchful (s : State) : Event → Prop
  | .stage session item => (∃ task, s.active session = some task ∧ task ∈ s.bound) →
      ∀ n, item.messageId ∉ s.idsAt session (some n)
  | .joined n => ∀ w, s.waiters n = some w → s.staged w.session = [] → s.Injecting w.session →
      s.PendingBut (some n) w.session
  | .entered n => ∀ w, s.waiters n = some w → s.active w.session = none →
      s.Injecting w.session → s.PendingBut (some n) w.session
  | _ => True

theorem Inv.initial : Inv .initial where
  watched _ _ h := absurd h (Option.some_ne_none _).symm
  apart _ _ _ := rfl
  once x p := by
    have hnone : State.initial.idsAt x p = [] := by
      cases p <;> rfl
    rw [hnone]
    exact ⟨List.nodup_nil, fun _ _ hm => absurd hm List.not_mem_nil⟩
  owed _ _ h := absurd h List.not_mem_nil
  log := List.nodup_nil
  pending := by
    rintro - x (h | ⟨_, _, h, -⟩)
    · exact absurd rfl h
    · exact absurd h (Option.some_ne_none _).symm

section Steps

variable {s : State} {session : String} {n : ℕ}

/-! ### Writing -/

theorem write_spec (s : State) (session m : String) :
    ∃ log, s.write session m = { s with log := log } ∧ (∀ e ∈ s.log, e ∈ log) ∧
      (session, m) ∈ log ∧ (s.log.Nodup → log.Nodup) ∧
      ∀ e ∈ log, e ∈ s.log ∨ e = (session, m) := by
  rw [State.write]
  split
  · next h => exact ⟨s.log, rfl, fun _ he => he, h, id, fun _ he => .inl he⟩
  · next h =>
      refine ⟨_, rfl, fun e he => List.mem_append_left _ he, by simp, fun hnodup => ?_, ?_⟩
      · refine List.nodup_append.mpr ⟨hnodup, List.nodup_singleton _, ?_⟩
        rintro e he _ he' rfl
        exact h (List.mem_singleton.mp he' ▸ he)
      · intro e he
        rcases List.mem_append.mp he with he | he
        · exact .inl he
        · exact .inr (List.mem_singleton.mp he)

variable {log : List (String × String)} {item : Staged} {e : Event} {t : State}

theorem Inv.noted (h : Inv s) {refused : List (String × String)} (hlog : ∀ e ∈ s.log, e ∈ log)
    (hrefused : ∀ e ∈ s.refused, e ∈ refused) (hnodup : log.Nodup) :
    Inv { s with log := log, refused := refused } :=
  { watched := h.watched
    apart := h.apart
    once := h.once
    owed := fun x m hm => (h.owed x m hm).imp_right fun hm => hm.imp (hlog _) (hrefused _)
    log := hnodup
    pending := h.pending }

theorem mayWrite_spec (s : State) (committed : Bool) (session m : String) :
    ∃ log, (if committed then s.write session m else s) = { s with log := log } ∧
      (∀ e ∈ s.log, e ∈ log) ∧ (s.log.Nodup → log.Nodup) ∧
      ∀ e ∈ log, e ∈ s.log ∨ e = (session, m) := by
  split
  · obtain ⟨log, heq, hlog, -, hnodup, hold⟩ := write_spec s session m
    exact ⟨log, heq, hlog, hnodup, hold⟩
  · exact ⟨s.log, rfl, fun _ he => he, id, fun _ he => .inl he⟩

/-! ### Hands -/

theorem dropFirst_spec (s : State) (n : ℕ) (h : Hand) :
    ∃ hands injects, s.dropFirst n h = { s with hands := hands, injects := injects } ∧
      (∀ n', n' ≠ n → hands n' = s.hands n') ∧
      (hands n = none ∨
        ∃ items, hands n = some { h with items := items }) ∧
      ∀ x p, idsIn s.staged hands x p = if p = some n then
        if h.session = x then h.items.tail.map fun item => item.messageId else []
      else s.idsAt x p := by
  rw [State.dropFirst]
  split
  · next htail =>
      refine ⟨_, _, rfl, fun n' hn => Function.update_of_ne hn .., .inl (Function.update_self ..),
        fun x p => ?_⟩
      rw [idsIn_noHand, htail]
      split
      · split <;> rfl
      · rfl
  · next items htail =>
      refine ⟨_, _, rfl, fun n' hn => Function.update_of_ne hn ..,
        .inr ⟨_, Function.update_self ..⟩, fun x p => ?_⟩
      rw [idsIn_hand]
      rfl

variable {h : Hand} {holder : Option ℕ} {items : List Staged} {task : ℕ}

theorem idsAt_hand (hhand : s.hands n = some h) (x : String) :
    s.idsAt x (some n) =
      if h.session = x then h.items.map fun item => item.messageId else [] := by
  rw [State.idsAt, idsIn, itemsIn, hhand, Option.elim_some]
  split <;> rfl

/-- A message that is settled is dropped from its hand. -/
theorem Inv.dropFirst (h : Inv s) (hhand : s.hands n = some ⟨holder, session, item :: items⟩)
    (hsettled : (session, item.messageId) ∈ s.log ∨ (session, item.messageId) ∈ s.refused) :
    Inv (s.dropFirst n ⟨holder, session, item :: items⟩) := by
  obtain ⟨hands, injects, heq, hothers, hown, hids⟩ :=
    dropFirst_spec s n ⟨holder, session, item :: items⟩
  have hhandIds := idsAt_hand hhand
  rw [heq]
  refine
    { watched := h.watched
      apart := ?_
      once := ?_
      owed := ?_
      log := h.log
      pending := ?_ }
  · intro n' w hw
    have hfree := h.apart n' w hw
    by_cases hn : n' = n
    · rw [hn, hhand] at hfree
      cases hfree
    · exact (hothers n' hn).trans hfree
  · refine h.once.sublist fun x p => ?_
    change List.Sublist (idsIn s.staged hands x p) _
    rw [hids]
    split
    · next hp =>
        rw [hp, hhandIds]
        split
        · exact List.sublist_cons_self _ _
        · exact List.Sublist.refl _
    · exact List.Sublist.refl _
  · intro x m hm
    rcases h.owed x m hm with ⟨p, hp⟩ | hm
    · by_cases hgone : p = some n ∧ session = x ∧ item.messageId = m
      · obtain ⟨-, rfl, rfl⟩ := hgone
        exact .inr hsettled
      · refine .inl ⟨p, ?_⟩
        change m ∈ idsIn s.staged hands x p
        rw [hids]
        by_cases hpn : p = some n
        · rw [if_pos hpn]
          rw [hpn, hhandIds] at hp
          split at hp
          · next hx =>
              rw [if_pos hx]
              rcases List.mem_cons.mp hp with rfl | hp
              · exact absurd ⟨hpn, hx, rfl⟩ hgone
              · exact hp
          · cases hp
        · rw [if_neg hpn]
          exact hp
    · exact .inr hm
  · intro hscope x hx
    refine h.pending hscope x (hx.imp_right ?_)
    rintro ⟨n', h', hn', hholder, hsession⟩
    by_cases hn : n' = n
    · subst hn
      rcases hown with hnone | ⟨items', hsome⟩
      · exact absurd (hnone.symm.trans hn') (Option.some_ne_none _).symm
      · obtain rfl := Option.some.inj (hsome.symm.trans hn')
        exact ⟨n', _, hhand, hholder, hsession⟩
    · exact ⟨n', h', (hothers n' hn).symm.trans hn', hholder, hsession⟩

theorem idsAt_putBack (s : State) (n : ℕ) (h : Hand) (x : String) (p : Option ℕ) :
    (s.putBack n h).idsAt x p = if p = some n then [] else if p = none ∧ x = h.session then
        (h.items ++ s.staged h.session).map fun item => item.messageId
      else s.idsAt x p := by
  change idsIn (Function.update s.staged h.session (h.items ++ s.staged h.session))
    (Function.update s.hands n none) x p = _
  rw [idsIn_noHand, idsIn_staged]
  rfl

theorem idsIn_take (s : State) (session : String) (n : ℕ) (holder : Option ℕ) (x : String)
    (p : Option ℕ) :
    idsIn (Function.update s.staged session [])
        (Function.update s.hands n (some ⟨holder, session, s.staged session⟩)) x p =
      if p = some n then
        if session = x then (s.staged session).map fun item => item.messageId else []
      else if p = none ∧ x = session then [] else s.idsAt x p := by
  rw [idsIn_hand, idsIn_staged]
  rfl

/-- What an inject could not write is staged again, before what came since. -/
theorem Inv.putBack (h : Inv s) (hhand : s.hands n = some ⟨some task, session, items⟩) :
    Inv (s.putBack n ⟨some task, session, items⟩) := by
  have hhandIds := idsAt_hand hhand
  have hids := idsAt_putBack s n ⟨some task, session, items⟩
  have hto : (s.putBack n ⟨some task, session, items⟩).idsAt session none =
      s.idsAt session (some n) ++ s.idsAt session none := by
    rw [hids, hhandIds, if_neg (by simp), if_pos ⟨rfl, rfl⟩, if_pos rfl, List.map_append]
    rfl
  have hsame : ∀ x p, (x = session → p ≠ some n ∧ p ≠ none) →
      (s.putBack n ⟨some task, session, items⟩).idsAt x p = s.idsAt x p := by
    intro x p hxp
    rw [hids]
    by_cases hp : p = some n
    · rw [if_pos hp, hp, hhandIds, if_neg fun heq => (hxp heq.symm).1 hp]
    · rw [if_neg hp, if_neg fun hb => (hxp hb.2).2 hb.1]
  refine
    { watched := h.watched
      apart := ?_
      once := h.once.move (Option.some_ne_none n) ?_ hto hsame
      owed := ?_
      log := h.log
      pending := ?_ }
  · intro n' w hw
    by_cases hn : n' = n
    · exact hn ▸ Function.update_self ..
    · exact (Function.update_of_ne hn ..).trans (h.apart n' w hw)
  · rw [hids, if_pos rfl]
  · intro x m hm
    exact (h.owed x m hm).imp_left fun ⟨p, hp⟩ => mem_move hto hsame hp
  · intro hscope x hx
    by_cases hsession : x = session
    · exact h.pending hscope x (.inr ⟨n, _, hhand, Option.some_ne_none _, hsession.symm⟩)
    · refine h.pending hscope x (hx.imp ?_ ?_)
      · intro hne
        rwa [show (s.putBack n ⟨some task, session, items⟩).staged x = s.staged x from
          Function.update_of_ne hsession ..] at hne
      · rintro ⟨n', h', hn', hholder, hh'⟩
        by_cases hn : n' = n
        · rw [hn] at hn'
          exact absurd ((Function.update_self ..).symm.trans hn') (Option.some_ne_none _).symm
        · exact ⟨n', h', (Function.update_of_ne hn ..).symm.trans hn', hholder, hh'⟩

theorem pendingBut_of_ne (hown : ∀ w, s.waiters n = some w → w.session = session) {x : String}
    (hx : x ≠ session) (h : s.Pending x) : s.PendingBut (some n) x := by
  refine h.imp_right ?_
  rintro ⟨n', w, -, hn', hw⟩
  refine ⟨n', w, ?_, hn', hw⟩
  intro heq
  obtain rfl := Option.some.inj heq
  exact hx (hw.symm.trans (hown w hn'))

theorem pendingBut_update (staged : String → List Staged) (hands : ℕ → Option Hand)
    (injects : List ℕ) {x : String} (h : s.PendingBut (some n) x) :
    State.Pending { s with
      staged := staged
      waiters := Function.update s.waiters n none
      hands := hands
      injects := injects } x := by
  refine h.imp_right ?_
  rintro ⟨n', w, hne, hn', hw⟩
  refine ⟨n', w, Option.some_ne_none n', (Function.update_of_ne ?_ ..).trans hn', hw⟩
  exact fun heq => hne (congrArg some heq)

theorem Inv.take (h : Inv s) (hfree : s.hands n = none)
    (hown : ∀ w, s.waiters n = some w → w.session = session ∧ w.waiting = .scope)
    (holder : Option ℕ) (injects : List ℕ)
    (hpending : s.scope = true → s.Injecting session ∨ holder ≠ none →
      s.PendingBut (some n) session) :
    Inv { s with
      staged := Function.update s.staged session []
      waiters := Function.update s.waiters n none
      hands := Function.update s.hands n (some ⟨holder, session, s.staged session⟩)
      injects := injects } := by
  have hids := idsIn_take s session n holder
  have hempty : ∀ x, s.idsAt x (some n) = [] := by
    intro x
    rw [State.idsAt, idsIn, itemsIn, hfree]
    rfl
  have hto : idsIn (Function.update s.staged session [])
      (Function.update s.hands n (some ⟨holder, session, s.staged session⟩)) session (some n) =
      s.idsAt session none ++ s.idsAt session (some n) := by
    rw [hids, if_pos rfl, if_pos rfl, hempty, List.append_nil]
    rfl
  have hsame : ∀ x p, (x = session → p ≠ none ∧ p ≠ some n) →
      idsIn (Function.update s.staged session [])
        (Function.update s.hands n (some ⟨holder, session, s.staged session⟩)) x p =
      s.idsAt x p := by
    intro x p hxp
    rw [hids]
    by_cases hp : p = some n
    · rw [if_pos hp, hp, hempty, if_neg fun heq => (hxp heq.symm).2 hp]
    · rw [if_neg hp, if_neg fun hb => (hxp hb.2).1 hb.1]
  refine
    { watched := ?_
      apart := ?_
      once := h.once.move (Option.some_ne_none n).symm ?_ hto hsame
      owed := fun x m hm => (h.owed x m hm).imp_left fun ⟨p, hp⟩ => mem_move hto hsame hp
      log := h.log
      pending := ?_ }
  · intro x t hw
    refine (h.watched x t hw).imp_right ?_
    rintro ⟨n', hn'⟩
    refine ⟨n', (Function.update_of_ne ?_ ..).trans hn'⟩
    rintro rfl
    cases (hown _ hn').2
  · intro n' w hw
    by_cases hn : n' = n
    · simp only [hn, Function.update_self] at hw
      cases hw
    · exact (Function.update_of_ne hn ..).trans
        (h.apart n' w ((Function.update_of_ne hn ..).symm.trans hw))
  · change idsIn _ _ session none = []
    rw [hids, if_neg (by simp), if_pos ⟨rfl, rfl⟩]
  · intro hscope x hx
    refine pendingBut_update _ _ _ ?_
    by_cases hsession : x = session
    · subst hsession
      rcases hx with hx | ⟨n', h', hn', hholder, hh'⟩
      · exact absurd (Function.update_self ..) hx
      · by_cases hn : n' = n
        · simp only [hn, Function.update_self] at hn'
          obtain rfl := Option.some.inj hn'
          exact hpending hscope (.inr hholder)
        · exact hpending hscope
            (.inl ⟨n', h', (Function.update_of_ne hn ..).symm.trans hn', hholder, hh'⟩)
    · refine pendingBut_of_ne (fun w hw => (hown w hw).1) hsession (h.pending hscope x (hx.imp ?_ ?_))
      · intro hne
        simpa only [Function.update_of_ne hsession] using hne
      · rintro ⟨n', h', hn', hholder, hh'⟩
        by_cases hn : n' = n
        · simp only [hn, Function.update_self] at hn'
          obtain rfl := Option.some.inj hn'
          exact absurd hh'.symm hsession
        · exact ⟨n', h', (Function.update_of_ne hn ..).symm.trans hn', hholder, hh'⟩

/-! ### Staging -/

theorem Inv.watch (h : Inv s) (task : ℕ) : Inv (s.watch session task) where
  watched x t hw := by
    by_cases hx : x = session
    · subst hx
      simp only [State.watch, Function.update_self] at hw
      obtain rfl := Option.some.inj hw
      exact .inl (List.mem_append_right _ (List.mem_singleton.mpr rfl))
    · simp only [State.watch, Function.update_of_ne hx] at hw
      exact (h.watched x t hw).imp_left (List.mem_append_left _)
  apart := h.apart
  once := h.once
  owed := h.owed
  log := h.log
  pending hscope x hx := (h.pending hscope x hx).imp_left fun ⟨t, ht⟩ =>
    ⟨t, List.mem_append_left _ ht⟩

theorem idsIn_stage (s : State) (session : String) (item : Staged) (x : String) (p : Option ℕ) :
    idsIn (Function.update s.staged session
        (if ∀ old ∈ s.staged session, old.messageId ≠ item.messageId then
          s.staged session ++ [item] else s.staged session)) s.hands x p =
      if item.messageId ∉ s.idsAt session none ∧ p = none ∧ x = session then
        s.idsAt session none ++ [item.messageId]
      else s.idsAt x p := by
  have hnew : (∀ old ∈ s.staged session, old.messageId ≠ item.messageId) ↔
      item.messageId ∉ s.idsAt session none := by
    change _ ↔ item.messageId ∉ (s.staged session).map _
    simp [eq_comm]
  rw [idsIn_staged]
  by_cases hx : p = none ∧ x = session
  · rw [if_pos hx, hx.1, hx.2]
    by_cases h : ∀ old ∈ s.staged session, old.messageId ≠ item.messageId
    · rw [if_pos h, if_pos ⟨hnew.mp h, rfl, rfl⟩, List.map_append]
      rfl
    · rw [if_neg h, if_neg fun hb => h (hnew.mpr hb.1)]
      rfl
  · rw [if_neg hx, if_neg fun hb => hx hb.2]
    rfl

/-- A message that is in no hand is put into a list that is waited for. -/
theorem Inv.enlist (h : Inv s) (hpending : s.Pending session)
    (hnew : ∀ n, item.messageId ∉ s.idsAt session (some n)) : Inv { s with
      staged := Function.update s.staged session
        (if ∀ old ∈ s.staged session, old.messageId ≠ item.messageId then
          s.staged session ++ [item] else s.staged session)
      owed := (session, item.messageId) :: s.owed } := by
  have hids := idsIn_stage s session item
  refine
    { watched := h.watched
      apart := h.apart
      once := ?_
      owed := ?_
      log := h.log
      pending := ?_ }
  · by_cases hin : item.messageId ∈ s.idsAt session none
    · refine h.once.sublist fun x p => ?_
      change List.Sublist (idsIn _ _ x p) _
      rw [hids, if_neg fun hb => hb.1 hin]
    · refine @Once.add _ _ h.once session none item.messageId ?_ ?_ ?_
      · rintro (_ | n)
        · exact hin
        · exact hnew n
      · exact (hids _ _).trans (if_pos ⟨hin, rfl, rfl⟩)
      · exact fun x p hx => (hids _ _).trans (if_neg fun hb => hx hb.2.2 hb.2.1)
  · intro x m hm
    have hold : ∀ x p m, m ∈ s.idsAt x p → m ∈ idsIn (Function.update s.staged session
        (if ∀ old ∈ s.staged session, old.messageId ≠ item.messageId then
          s.staged session ++ [item] else s.staged session)) s.hands x p := by
      intro x p m hm
      rw [hids]
      split
      · next hx => exact List.mem_append_left _ (hx.2.1 ▸ hx.2.2 ▸ hm)
      · exact hm
    rcases List.mem_cons.mp hm with hm | hm
    · obtain ⟨rfl, rfl⟩ := Prod.mk.inj hm
      refine .inl ⟨none, ?_⟩
      change item.messageId ∈ idsIn _ _ x none
      rw [hids]
      split
      · exact List.mem_append_right _ (List.mem_singleton.mpr rfl)
      · next hin => exact not_not.mp fun hnot => hin ⟨hnot, rfl, rfl⟩
    · exact (h.owed x m hm).imp_left fun ⟨p, hp⟩ => ⟨p, hold x p m hp⟩
  · intro hscope x hx
    by_cases hsession : x = session
    · exact hsession ▸ hpending
    · refine h.pending hscope x (hx.imp_left fun hne => ?_)
      simpa only [Function.update_of_ne hsession] using hne

theorem Inv.stage (h : Inv s) (hwatchful : Watchful s (.stage session item)) :
    Inv (s.stage session item) := by
  rw [State.stage]
  split
  · exact h
  · next task hactive =>
      split
      · next hbound =>
          have hnew := hwatchful ⟨task, hactive, hbound⟩
          dsimp only
          split
          · next hwatched =>
              refine h.enlist ?_ hnew
              rcases h.watched session task hwatched with hqueue | ⟨n, hwaiter⟩
              · exact .inl ⟨task, hqueue⟩
              · exact .inr ⟨n, _, Option.some_ne_none n, hwaiter, rfl⟩
          · exact (h.watch task).enlist
              (.inl ⟨task, List.mem_append_right _ (List.mem_singleton.mpr rfl)⟩) hnew
      · exact h

theorem idsIn_withdraw (s : State) (session m x : String) (p : Option ℕ) :
    idsIn (Function.update s.staged session
        ((s.staged session).eraseP fun item => item.messageId = m)) s.hands x p =
      if p = none ∧ x = session then (s.idsAt session none).erase m else s.idsAt x p := by
  rw [idsIn_staged]
  split
  · change _ = ((s.staged session).map fun item => item.messageId).erase m
    rw [List.erase_eq_eraseP, List.eraseP_map]
    congr 2
    funext item
    simp only [Function.comp_apply]
    rw [Bool.eq_iff_iff, beq_iff_eq, decide_eq_true_iff, eq_comm]
  · rfl

theorem Inv.withdraw (h : Inv s) (m : String) : Inv (s.withdraw session m).2 := by
  rw [State.withdraw]
  split
  · have hids := idsIn_withdraw s session m
    dsimp only
    refine
      { watched := h.watched
        apart := h.apart
        once := ?_
        owed := ?_
        log := h.log
        pending := ?_ }
    · refine h.once.sublist fun x p => ?_
      change List.Sublist (idsIn _ _ x p) _
      rw [hids]
      split
      · next hx => exact hx.1 ▸ hx.2 ▸ List.erase_sublist
      · exact List.Sublist.refl _
    · intro x m' hm'
      obtain ⟨hm', hne⟩ := List.mem_filter.mp hm'
      refine (h.owed x m' hm').imp_left ?_
      rintro ⟨p, hp⟩
      refine ⟨p, ?_⟩
      change m' ∈ idsIn _ _ x p
      rw [hids]
      split
      · next hx =>
          obtain ⟨rfl, rfl⟩ := hx
          refine (List.mem_erase_of_ne ?_).mpr hp
          rintro rfl
          exact of_decide_eq_true hne rfl
      · exact hp
    · intro hscope x hx
      refine h.pending hscope x (hx.imp_left fun hne => ?_)
      by_cases hsession : x = session
      · subst hsession
        simp only [Function.update_self] at hne
        intro hnil
        rw [hnil] at hne
        exact hne rfl
      · simpa only [Function.update_of_ne hsession] using hne
  · exact h

/-! ### Waiters -/

theorem Inv.dequeue (h : Inv s) {queue : List (String × ℕ)}
    (hqueue : s.queue = (session, task) :: queue) (hfree : s.Free n) : Inv { s with
      queue := queue
      waiters := Function.update s.waiters n (some ⟨session, .task task⟩) } := by
  have hkept : ∀ n' w, s.waiters n' = some w → n' ≠ n := by
    rintro n' w hw rfl
    exact absurd (hfree.1.symm.trans hw) (Option.some_ne_none _).symm
  refine
    { watched := ?_
      apart := ?_
      once := h.once
      owed := h.owed
      log := h.log
      pending := ?_ }
  · intro x t hw
    rcases h.watched x t hw with hq | ⟨n', hn'⟩
    · rw [hqueue] at hq
      rcases List.mem_cons.mp hq with heq | hq
      · obtain ⟨rfl, rfl⟩ := Prod.mk.inj heq
        exact .inr ⟨n, Function.update_self ..⟩
      · exact .inl hq
    · exact .inr ⟨n', (Function.update_of_ne (hkept n' _ hn') ..).trans hn'⟩
  · intro n' w hw
    by_cases hn : n' = n
    · exact hn ▸ hfree.2
    · exact h.apart n' w ((Function.update_of_ne hn ..).symm.trans hw)
  · intro hscope x hx
    rcases h.pending hscope x hx with ⟨t, ht⟩ | ⟨n', w, -, hn', hw⟩
    · rw [hqueue] at ht
      rcases List.mem_cons.mp ht with heq | ht
      · obtain ⟨rfl, rfl⟩ := Prod.mk.inj heq
        exact .inr ⟨n, _, Option.some_ne_none n, Function.update_self .., rfl⟩
      · exact .inl ⟨t, ht⟩
    · exact .inr ⟨n', w, Option.some_ne_none n',
        (Function.update_of_ne (hkept n' _ hn') ..).trans hn', hw⟩

/-- A waiter is over: another one is left where it has to be. -/
theorem Inv.leave (h : Inv s) {w : Waiter}
    (hwatched : ∀ task, w.waiting = .task task → s.watched w.session ≠ some task)
    (hwaiter : s.waiters n = some w)
    (hother : s.scope = true → s.staged w.session ≠ [] ∨ s.Injecting w.session →
      s.PendingBut (some n) w.session) :
    Inv { s with waiters := Function.update s.waiters n none } := by
  refine
    { watched := ?_
      apart := ?_
      once := h.once
      owed := h.owed
      log := h.log
      pending := ?_ }
  · intro x t hw
    refine (h.watched x t hw).imp_right ?_
    rintro ⟨n', hn'⟩
    refine ⟨n', (Function.update_of_ne ?_ ..).trans hn'⟩
    rintro rfl
    obtain rfl := Option.some.inj (hwaiter.symm.trans hn')
    exact hwatched t rfl hw
  · intro n' w' hw'
    by_cases hn : n' = n
    · simp only [hn, Function.update_self] at hw'
      cases hw'
    · exact h.apart n' w' ((Function.update_of_ne hn ..).symm.trans hw')
  · intro hscope x hx
    refine pendingBut_update s.staged s.hands s.injects ?_
    by_cases hsession : x = w.session
    · exact hsession ▸ hother hscope (hsession ▸ hx)
    · refine pendingBut_of_ne (fun w' hw' => ?_) hsession (h.pending hscope x hx)
      rw [Option.some.inj (hwaiter.symm.trans hw')]

theorem Inv.unwatch (h : Inv s) (task : ℕ) : Inv (if s.watched session = some task then
    { s with watched := Function.update s.watched session none } else s) := by
  split
  · refine ⟨fun x t hw => ?_, h.apart, h.once, h.owed, h.log, h.pending⟩
    by_cases hx : x = session
    · simp only [hx, Function.update_self] at hw
      cases hw
    · exact h.watched x t ((Function.update_of_ne hx ..).symm.trans hw)
  · exact h

/-- A waiter whose task is not watched any more looks at the list. -/
theorem Inv.look (h : Inv s) (hwaiter : s.waiters n = some ⟨session, .task task⟩)
    (hnot : s.watched session ≠ some task)
    (hother : s.staged session = [] → s.Injecting session → s.PendingBut (some n) session) :
    Inv (if s.staged session = [] then { s with waiters := Function.update s.waiters n none }
      else { s with waiters := Function.update s.waiters n (some ⟨session, .scope⟩) }) := by
  split
  · next hnil =>
      refine h.leave ?_ hwaiter fun _ hx => hother hnil (hx.resolve_left fun hne => hne hnil)
      intro t ht
      obtain rfl := Waiting.task.inj ht
      exact hnot
  · refine
      { watched := ?_
        apart := ?_
        once := h.once
        owed := h.owed
        log := h.log
        pending := ?_ }
    · intro x t hw
      refine (h.watched x t hw).imp_right ?_
      rintro ⟨n', hn'⟩
      refine ⟨n', (Function.update_of_ne ?_ ..).trans hn'⟩
      rintro rfl
      obtain ⟨rfl, heq⟩ := Waiter.mk.inj (Option.some.inj (hwaiter.symm.trans hn'))
      obtain rfl := Waiting.task.inj heq
      exact hnot hw
    · intro n' w' hw'
      by_cases hn : n' = n
      · exact hn ▸ h.apart n _ hwaiter
      · exact h.apart n' w' ((Function.update_of_ne hn ..).symm.trans hw')
    · intro hscope x hx
      refine (h.pending hscope x hx).imp_right ?_
      rintro ⟨n', w', hne, hn', hw'⟩
      by_cases hn : n' = n
      · subst hn
        obtain rfl := Option.some.inj (hwaiter.symm.trans hn')
        exact ⟨n', _, hne, Function.update_self .., hw'⟩
      · exact ⟨n', w', hne, (Function.update_of_ne hn ..).trans hn', hw'⟩

theorem Inv.joined (h : Inv s) (hwaiter : s.waiters n = some ⟨session, .task task⟩)
    (hwatchful : Watchful s (.joined n)) : Inv (s.joined n task session) := by
  have hunwatch := @Inv.unwatch s session h task
  have hother := hwatchful _ hwaiter
  rw [State.joined]
  split
  · next hwatched =>
      rw [if_pos hwatched] at hunwatch
      exact hunwatch.look hwaiter (by simp) hother
  · next hwatched =>
      rw [if_neg hwatched] at hunwatch
      exact hunwatch.look hwaiter hwatched hother

theorem Inv.entered (h : Inv s) (hwaiter : s.waiters n = some ⟨session, .scope⟩)
    (hwatchful : Watchful s (.entered n)) : Inv (s.entered n session) := by
  rw [State.entered]
  dsimp only
  split
  · next current hactive =>
      refine (h.watch current).leave (fun _ ht => ?_) hwaiter fun _ _ => ?_
      · cases ht
      · exact .inl ⟨current, List.mem_append_right _ (List.mem_singleton.mpr rfl)⟩
  · next hactive =>
      have hother := hwatchful _ hwaiter hactive
      split
      · next hnil =>
          refine h.leave (fun _ ht => ?_) hwaiter fun _ hx =>
            hother (hx.resolve_left fun hne => hne hnil)
          cases ht
      · refine h.take (h.apart n _ hwaiter) (fun w hw => ?_) none s.injects fun _ hx =>
          hother (hx.resolve_right fun hne => hne rfl)
        obtain rfl := Option.some.inj (hwaiter.symm.trans hw)
        exact ⟨rfl, rfl⟩

theorem Inv.inject (h : Inv s) (hfree : s.Free n) (task : ℕ) : Inv (s.inject n task session) := by
  rw [State.inject]
  split
  · exact h
  · next hne =>
      have hwaiters : Function.update s.waiters n none = s.waiters := by
        conv_lhs => rw [← hfree.1]
        exact Function.update_eq_self n s.waiters
      have htake := @Inv.take s session n h hfree.2 (fun w hw => absurd (hfree.1.symm.trans hw)
        (Option.some_ne_none _).symm) (some task) (task :: s.injects) fun hscope _ => ?_
      · rwa [hwaiters] at htake
      · refine (h.pending hscope session (.inl hne)).imp_right ?_
        rintro ⟨n', w, -, hn', hw⟩
        refine ⟨n', w, ?_, hn', hw⟩
        intro heq
        rw [Option.some.inj heq, hfree.1] at hn'
        cases hn'

/-! ### What a step does -/

/-- What a step does to the messages and to those who wait for them. -/
inductive Does (s : State) : Event → State → Prop where
  /-- The environment moves. -/
  | quiet {e : Event} {t : State} (staged : t.staged = s.staged) (watched : t.watched = s.watched)
      (queue : t.queue = s.queue) (waiters : t.waiters = s.waiters) (hands : t.hands = s.hands)
      (log : t.log = s.log) (refused : t.refused = s.refused) (owed : t.owed = s.owed)
      (scope : t.scope = true → s.scope = true) : Does s e t
  | stage (session : String) (item : Staged) : Does s (.stage session item) (s.stage session item)
  | withdraw (session m : String) : Does s (.withdraw session m) (s.withdraw session m).2
  | inject {n : ℕ} (task : ℕ) (session : String) (free : s.Free n) :
      Does s (.inject n task session) (s.inject n task session)
  /-- The first message of a hand is written or refused. -/
  | settled {e : Event} {n : ℕ} {holder : Option ℕ} {session : String} {item : Staged}
      {items : List Staged} {log refused : List (String × String)}
      (hand : s.hands n = some ⟨holder, session, item :: items⟩) (kept : ∀ e ∈ s.log, e ∈ log)
      (keptRefused : ∀ e ∈ s.refused, e ∈ refused) (nodup : s.log.Nodup → log.Nodup)
      (new : ∀ e ∈ log, e ∈ s.log ∨ e = (session, item.messageId))
      (settled : (session, item.messageId) ∈ log ∨ (session, item.messageId) ∈ refused) :
      Does s e (State.dropFirst { s with log := log, refused := refused } n
        ⟨holder, session, item :: items⟩)
  /-- An inject puts back what it holds; its first message may be written. -/
  | putBack {e : Event} {n task : ℕ} {session : String} {item : Staged}
      {items : List Staged} {log : List (String × String)}
      (hand : s.hands n = some ⟨some task, session, item :: items⟩) (kept : ∀ e ∈ s.log, e ∈ log)
      (nodup : s.log.Nodup → log.Nodup)
      (new : ∀ e ∈ log, e ∈ s.log ∨ e = (session, item.messageId)) :
      Does s e (State.putBack { s with log := log } n ⟨some task, session, item :: items⟩)
  | dequeue {n task : ℕ} {session : String} {queue : List (String × ℕ)}
      (head : s.queue = (session, task) :: queue) (free : s.Free n) : Does s (.dequeue n) { s with
        queue := queue
        waiters := Function.update s.waiters n (some ⟨session, .task task⟩) }
  | joined {n task : ℕ} {session : String} (waiter : s.waiters n = some ⟨session, .task task⟩) :
      Does s (.joined n) (s.joined n task session)
  | entered {n : ℕ} {session : String} (waiter : s.waiters n = some ⟨session, .scope⟩) :
      Does s (.entered n) (s.entered n session)
  | notEntered {n : ℕ} {session : String} (waiter : s.waiters n = some ⟨session, .scope⟩)
      (closed : ¬s.scope = true) :
      Does s (.notEntered n) { s with waiters := Function.update s.waiters n none }

theorem does_write (hhand : s.hands n = some ⟨holder, session, item :: items⟩) :
    Does s e ((s.write session item.messageId).dropFirst n ⟨holder, session, item :: items⟩) := by
  obtain ⟨log, heq, hlog, hin, hnodup, hnew⟩ := write_spec s session item.messageId
  rw [heq]
  exact .settled hhand hlog (fun _ he => he) hnodup hnew (.inl hin)

/-- **A step does one of these things.** -/
theorem does_of_after (hstep : after s e = some t) : Does s e t := by
  cases e with
  | bind task | revoke session =>
      obtain rfl := Option.some.inj hstep
      exact .quiet rfl rfl rfl rfl rfl rfl rfl rfl id
  | activate session task | finish task =>
      rw [after] at hstep
      split at hstep
      · cases hstep
      · obtain rfl := Option.some.inj hstep
        exact .quiet rfl rfl rfl rfl rfl rfl rfl rfl id
  | closeScope =>
      obtain rfl := Option.some.inj hstep
      exact .quiet rfl rfl rfl rfl rfl rfl rfl rfl fun hscope => by cases hscope
  | stage session item =>
      obtain rfl := Option.some.inj hstep
      exact .stage session item
  | withdraw session m =>
      obtain rfl := Option.some.inj hstep
      exact .withdraw session m
  | inject n task session =>
      rw [after] at hstep
      obtain ⟨hcond, hstep⟩ | ⟨-, ⟨⟩⟩ := ite_eq_iff.mp hstep
      obtain rfl := Option.some.inj hstep
      exact .inject task session hcond.1
  | steered n | accepted n =>
      rw [after] at hstep
      split at hstep
      · next hhand =>
          obtain rfl := Option.some.inj hstep
          exact does_write hhand
      · cases hstep
  | steerFailed n committed =>
      rw [after] at hstep
      split at hstep
      · next task session item items hhand =>
          obtain rfl := Option.some.inj hstep
          obtain ⟨log, heq, hlog, hnodup, hnew⟩ := mayWrite_spec s committed session item.messageId
          rw [heq]
          exact .putBack hhand hlog hnodup hnew
      · cases hstep
  | dequeue n =>
      rw [after] at hstep
      split at hstep
      · next session task queue hqueue =>
          obtain ⟨hfree, hstep⟩ | ⟨-, ⟨⟩⟩ := ite_eq_iff.mp hstep
          obtain rfl := Option.some.inj hstep
          exact .dequeue hqueue hfree
      · cases hstep
  | joined n =>
      rw [after] at hstep
      split at hstep
      · next session task hwaiter =>
          split at hstep
          · obtain rfl := Option.some.inj hstep
            exact .joined hwaiter
          · cases hstep
      · cases hstep
  | entered n =>
      rw [after] at hstep
      split at hstep
      · next session hwaiter =>
          split at hstep
          · obtain rfl := Option.some.inj hstep
            exact .entered hwaiter
          · cases hstep
      · cases hstep
  | notEntered n =>
      rw [after] at hstep
      split at hstep
      · next session hwaiter =>
          obtain ⟨-, ⟨⟩⟩ | ⟨hclosed, hstep⟩ := ite_eq_iff.mp hstep
          obtain rfl := Option.some.inj hstep
          exact .notEntered hwaiter hclosed
      · cases hstep
  | acceptFailed n committed =>
      rw [after] at hstep
      split at hstep
      · next session item items hhand =>
          obtain rfl := Option.some.inj hstep
          obtain ⟨log, heq, hlog, hnodup, hnew⟩ := mayWrite_spec s committed session item.messageId
          rw [heq]
          exact .settled hhand hlog (fun _ he => List.mem_cons_of_mem _ he) hnodup hnew
            (.inr List.mem_cons_self)
      · cases hstep

theorem Inv.quiet (h : Inv s) (hstaged : t.staged = s.staged) (hwatched : t.watched = s.watched)
    (hqueue : t.queue = s.queue) (hwaiters : t.waiters = s.waiters) (hhands : t.hands = s.hands)
    (hlog : t.log = s.log) (hrefused : t.refused = s.refused) (howed : t.owed = s.owed)
    (hscope : t.scope = true → s.scope = true) : Inv t := by
  cases t
  cases hstaged
  cases hwatched
  cases hqueue
  cases hwaiters
  cases hhands
  cases hlog
  cases hrefused
  cases howed
  exact ⟨h.watched, h.apart, h.once, h.owed, h.log, fun hs => h.pending (hscope hs)⟩

/-- **Everything that may happen keeps the invariant.** -/
theorem Inv.step (h : Inv s) (hwatchful : Watchful s e) (hstep : after s e = some t) : Inv t := by
  cases does_of_after hstep with
  | quiet hstaged hwatched hqueue hwaiters hhands hlog hrefused howed hscope =>
      exact h.quiet hstaged hwatched hqueue hwaiters hhands hlog hrefused howed hscope
  | stage session item => exact h.stage hwatchful
  | withdraw session m => exact h.withdraw m
  | inject task session hfree => exact h.inject hfree task
  | settled hhand hlog hrefused hnodup hnew hsettled =>
      exact (h.noted hlog hrefused (hnodup h.log)).dropFirst hhand hsettled
  | putBack hhand hlog hnodup hnew =>
      exact (h.noted hlog (fun _ he => he) (hnodup h.log)).putBack hhand
  | dequeue hqueue hfree => exact h.dequeue hqueue hfree
  | joined hwaiter => exact h.joined hwaiter hwatchful
  | entered hwaiter => exact h.entered hwaiter hwatchful
  | notEntered hwaiter hclosed =>
      refine h.leave (fun _ ht => ?_) hwaiter fun hscope _ => absurd hscope hclosed
      cases ht

/-! ### Withdrawn messages -/

end Steps

/-! ### What is promised -/

/-- An inject of the session is in progress, or one of its settlements is queued or runs. -/
def State.Attended (s : State) (session : String) : Prop :=
  (∃ n h, s.hands n = some h ∧ h.session = session) ∨ s.Pending session

/-- No message is lost or in two places, none is written twice, and what is staged is attended
to. -/
structure Kept (s : State) : Prop where
  somewhere : ∀ session m, (session, m) ∈ s.owed →
    s.Placed session m ∨ (session, m) ∈ s.log ∨ (session, m) ∈ s.refused
  once : ∀ session p, (s.idsAt session p).Nodup ∧
    ∀ q m, m ∈ s.idsAt session p → m ∈ s.idsAt session q → p = q
  written : s.log.Nodup
  attended : s.scope = true → ∀ session, s.staged session ≠ [] → s.Attended session

theorem Inv.reachable {s : State} (h : system.ReachableVia Watchful s) : Inv s :=
  h.invariant (fun _ hinit => hinit ▸ Inv.initial) fun _ _ _ hs hG hstep => hs.step hG hstep

theorem Inv.kept {s : State} (h : Inv s) : Kept s :=
  ⟨h.owed, h.once, h.log, fun hscope session hne => .inr (h.pending hscope session (.inl hne))⟩

end Kirakira.Conversation
