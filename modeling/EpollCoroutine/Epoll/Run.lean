import EpollCoroutine.Lib.Lts
import EpollCoroutine.Epoll.Context

/-!
# `IOContext::run`

The dispatch loop as a step function. The loop alternates with the coroutines it resumes: a
coroutine runs until it suspends or ends, and everything it does to the shared state is a list of
`Call`s. What the coroutines are is left to a `Program`; the loop only knows how to resume a
handle.

* `Control`: where `run` is. `coro k` means that a coroutine is running and that `run` goes on
  with `k` when it returns. `dispatch todo` is the head of the loop over `events`, `out e todo` the
  test of `EPOLLOUT` for the event `e`, and `flush todo` the loop over `processedSockets`.
* `collect`: what `epoll_wait` may return: at most `maxEvents` registrations, each with a
  reportable event set. An event remembers the object that lived at its address at that moment.
* `step`: one step. A step that would access a destroyed object, or resume a handle that has no
  suspended frame, is not possible: a run is cut there.
-/

namespace EpollCoroutine

/-- `IOContext::max_events`. -/
def maxEvents : ℕ := 20

/-- An entry of `events[]`: `data.ptr`, `events`, and which object the pointer designated when the
kernel returned it. -/
structure Event where
  ptr : Addr
  events : Mask
  oid : Option ℕ
  deriving DecidableEq

/-- Where `run` continues when the coroutine it resumed returns; `start` is the first resumption,
made by `main` before `run`. -/
inductive Cont
  | start
  | out (e : Event) (todo : List Event)
  | dispatch (todo : List Event)
  deriving DecidableEq

/-- Where `run` is. -/
inductive Control
  | epollWait
  | dispatch (todo : List Event)
  | out (e : Event) (todo : List Event)
  | flush (todo : List Addr)
  | coro (k : Cont)
  | exited
  deriving DecidableEq

/-- The place of `run` that a continuation stands for. -/
def Cont.control : Cont → Control
  | .start => .epollWait
  | .out e todo => .out e todo
  | .dispatch todo => .dispatch todo

/-- What becomes of the running coroutine after one of its steps. -/
inductive Status
  | running
  | yielded
  | exited

/-- Where `run` is after a step of the coroutine that leaves `s`. -/
def Status.control (k : Cont) : Status → Control
  | .running => .coro k
  | .yielded => k.control
  | .exited => .exited

theorem Status.control_eq_exited {s : Status} {k : Cont} : s.control k = .exited ↔ s = .exited := by
  cases s <;> cases k <;> simp [Status.control, Cont.control]

/-- `run` begins when the first resumption returns. -/
theorem Status.control_start {s : Status} {k : Cont}
    (h : s.control k = .coro .start ∨ s.control k = .epollWait) : k = .start := by
  cases s <;> cases k <;> simp_all [Status.control, Cont.control]

theorem Status.control_ne_flush (s : Status) (k : Cont) (todo : List Addr) :
    s.control k ≠ .flush todo := by
  cases s <;> cases k <;> simp [Status.control, Cont.control]

/-- One step of the running coroutine. -/
structure Move (H σ : Type) where
  calls : List (Call H)
  next : σ
  status : Status

/-- A program of coroutines over states `σ`; the labels `ℓ` resolve the outcomes of its system
calls. `resume` is `coroutine_handle::resume`, possible on a suspended frame only. `env` is what
other processes do, at any time. -/
structure Program (H σ ℓ : Type) where
  resume : H → σ → Option σ
  step : ℓ → World H → σ → Option (Move H σ)
  env : ℓ → σ → Option σ

/-- A state of the server. -/
structure Server (H σ : Type) where
  w : World H
  ctl : Control
  co : σ

/-- The state in which `main` begins. -/
def Server.start {H σ : Type} (co : σ) : Server H σ := ⟨World.initial, .coro .start, co⟩

/-- The choices of the environment: the result of `epoll_wait`, the outcome of an
`EPOLL_CTL_MOD`, those of a coroutine's system calls, those of another process. -/
inductive Label (ℓ : Type)
  | epollWait (reported : List (Fd × Mask))
  | next
  | modify (ok : Bool)
  | co (l : ℓ)
  | env (l : ℓ)

variable {H σ ℓ : Type}

namespace World

variable (w : World H)

/-- The events of the registrations `reported`. -/
def collectEvents : List (Fd × Mask) → Option (List Event)
  | [] => some []
  | (fd, e) :: l =>
    match w.interest fd with
    | none => none
    | some i =>
      if Reportable i.events e then
        (collectEvents l).map (⟨i.ptr, e, (w.heap i.ptr).map AsyncFd.oid⟩ :: ·)
      else none

/-- `epoll_wait(fd_, events, max_events, -1)`; an error is the empty batch. -/
def collect (reported : List (Fd × Mask)) : Option (List Event) :=
  if (reported.map Prod.fst).Nodup ∧ reported.length ≤ maxEvents then w.collectEvents reported
  else none

/-- A hang-up reported together with `EPOLLIN` sets `doneRecv_`. -/
def noteHangup (e : Event) : World H :=
  if e.events.has EPOLLHUP then w.modifyAt e.ptr fun a => { a with doneRecv := true } else w

end World

namespace Server

/-- `resumeRecv` and `resumeSend`: resume a handle, if there is one, and go on with `k`
afterwards. -/
def resume (P : Program H σ ℓ) (S : Server H σ) (h : Option H) (k : Cont) : Option (Server H σ) :=
  match h with
  | none => some { S with ctl := k.control }
  | some h => (P.resume h S.co).map fun co => { S with ctl := .coro k, co := co }

/-- The dispatch of one event, and the passage from one loop to the next. -/
def next (P : Program H σ ℓ) (S : Server H σ) : Option (Server H σ) :=
  match S.ctl with
  | .dispatch [] => some { S with ctl := .flush S.w.processedSockets.elems }
  | .dispatch (e :: todo) =>
    if e.ptr ∈ S.w.managedFd then
      if e.events.has EPOLLIN then
        (S.w.heap e.ptr).bind fun a =>
          resume P { S with w := S.w.noteHangup e } a.coroRecv (.out e todo)
      else some { S with ctl := .out e todo }
    else some { S with ctl := .dispatch todo }
  | .out e todo =>
    if e.events.has EPOLLOUT then
      (S.w.heap e.ptr).bind fun a => resume P S a.coroSend (.dispatch todo)
    else some { S with ctl := .dispatch todo }
  | .flush [] => some { S with ctl := .epollWait }
  | _ => none

/-- One step of the running coroutine. -/
def coStep (P : Program H σ ℓ) (S : Server H σ) (k : Cont) (l : ℓ) : Option (Server H σ) :=
  (P.step l S.w S.co).bind fun m => (Call.applyAll m.calls S.w).map fun w =>
    { w := w, ctl := m.status.control k, co := m.next }

/-- One step of the server. -/
def step (P : Program H σ ℓ) (S : Server H σ) : Label ℓ → Option (Server H σ)
  | .epollWait reported =>
    match S.ctl with
    | .epollWait => (S.w.collect reported).map fun evs => { S with ctl := .dispatch evs }
    | _ => none
  | .next => S.next P
  | .modify ok =>
    match S.ctl with
    | .flush (p :: todo) =>
      (S.w.heap p).map fun a => { S with w := S.w.flushOne p a ok, ctl := .flush todo }
    | _ => none
  | .co l =>
    match S.ctl with
    | .coro k => S.coStep P k l
    | _ => none
  | .env l => (P.env l S.co).map fun co => { S with co := co }

/-- What one step can do. -/
inductive StepCase (P : Program H σ ℓ) (S S' : Server H σ) : Label ℓ → Prop
  | wait {reported : List (Fd × Mask)} {evs : List Event} (hctl : S.ctl = .epollWait)
      (hev : S.w.collect reported = some evs) (hS : S' = { S with ctl := .dispatch evs }) :
      StepCase P S S' (.epollWait reported)
  | batchEnd (hctl : S.ctl = .dispatch [])
      (hS : S' = { S with ctl := .flush S.w.processedSockets.elems }) : StepCase P S S' .next
  | unmanaged {e : Event} {todo : List Event} (hctl : S.ctl = .dispatch (e :: todo))
      (hm : e.ptr ∉ S.w.managedFd) (hS : S' = { S with ctl := .dispatch todo }) :
      StepCase P S S' .next
  | noIn {e : Event} {todo : List Event} (hctl : S.ctl = .dispatch (e :: todo))
      (hm : e.ptr ∈ S.w.managedFd) (hin : ¬ e.events.has EPOLLIN)
      (hS : S' = { S with ctl := .out e todo }) : StepCase P S S' .next
  | recvNull {e : Event} {todo : List Event} {a : AsyncFd H} (hctl : S.ctl = .dispatch (e :: todo))
      (hm : e.ptr ∈ S.w.managedFd) (hin : e.events.has EPOLLIN) (ha : S.w.heap e.ptr = some a)
      (hcoro : a.coroRecv = none) (hS : S' = ⟨S.w.noteHangup e, .out e todo, S.co⟩) :
      StepCase P S S' .next
  | recv {e : Event} {todo : List Event} {a : AsyncFd H} {h : H} {co : σ}
      (hctl : S.ctl = .dispatch (e :: todo)) (hm : e.ptr ∈ S.w.managedFd)
      (hin : e.events.has EPOLLIN) (ha : S.w.heap e.ptr = some a) (hcoro : a.coroRecv = some h)
      (hco : P.resume h S.co = some co) (hS : S' = ⟨S.w.noteHangup e, .coro (.out e todo), co⟩) :
      StepCase P S S' .next
  | noOut {e : Event} {todo : List Event} (hctl : S.ctl = .out e todo)
      (hout : ¬ e.events.has EPOLLOUT) (hS : S' = { S with ctl := .dispatch todo }) :
      StepCase P S S' .next
  | sendNull {e : Event} {todo : List Event} {a : AsyncFd H} (hctl : S.ctl = .out e todo)
      (hout : e.events.has EPOLLOUT) (ha : S.w.heap e.ptr = some a) (hcoro : a.coroSend = none)
      (hS : S' = { S with ctl := .dispatch todo }) : StepCase P S S' .next
  | send {e : Event} {todo : List Event} {a : AsyncFd H} {h : H} {co : σ}
      (hctl : S.ctl = .out e todo) (hout : e.events.has EPOLLOUT) (ha : S.w.heap e.ptr = some a)
      (hcoro : a.coroSend = some h) (hco : P.resume h S.co = some co)
      (hS : S' = ⟨S.w, .coro (.dispatch todo), co⟩) : StepCase P S S' .next
  | flushEnd (hctl : S.ctl = .flush []) (hS : S' = { S with ctl := .epollWait }) :
      StepCase P S S' .next
  | flush {p : Addr} {todo : List Addr} {a : AsyncFd H} {ok : Bool}
      (hctl : S.ctl = .flush (p :: todo)) (ha : S.w.heap p = some a)
      (hS : S' = ⟨S.w.flushOne p a ok, .flush todo, S.co⟩) : StepCase P S S' (.modify ok)
  | co {k : Cont} {l : ℓ} {m : Move H σ} {w : World H} (hctl : S.ctl = .coro k)
      (hm : P.step l S.w S.co = some m) (hw : Call.applyAll m.calls S.w = some w)
      (hS : S' = ⟨w, m.status.control k, m.next⟩) : StepCase P S S' (.co l)
  | env {l : ℓ} {co : σ} (hco : P.env l S.co = some co) (hS : S' = { S with co := co }) :
      StepCase P S S' (.env l)

theorem resume_none (P : Program H σ ℓ) (S : Server H σ) (k : Cont) :
    resume P S none k = some { S with ctl := k.control } := rfl

theorem next_cases {P : Program H σ ℓ} {S S' : Server H σ} (hs : S.next P = some S') :
    StepCase P S S' .next := by
  unfold next at hs
  split at hs
  · rename_i hctl
    exact .batchEnd hctl (Option.some.inj hs).symm
  · rename_i e todo hctl
    split_ifs at hs with hm hin
    · obtain ⟨a, ha, hs⟩ := Option.bind_eq_some_iff.1 hs
      cases hcoro : a.coroRecv with
      | none =>
        rw [hcoro, resume_none] at hs
        exact .recvNull hctl hm hin ha hcoro (Option.some.inj hs).symm
      | some h =>
        rw [hcoro] at hs
        obtain ⟨co, hco, hS⟩ := Option.map_eq_some_iff.1 hs
        exact .recv hctl hm hin ha hcoro hco hS.symm
    · exact .noIn hctl hm hin (Option.some.inj hs).symm
    · exact .unmanaged hctl hm (Option.some.inj hs).symm
  · rename_i e todo hctl
    split_ifs at hs with hout
    · obtain ⟨a, ha, hs⟩ := Option.bind_eq_some_iff.1 hs
      cases hcoro : a.coroSend with
      | none =>
        rw [hcoro, resume_none] at hs
        exact .sendNull hctl hout ha hcoro (Option.some.inj hs).symm
      | some h =>
        rw [hcoro] at hs
        obtain ⟨co, hco, hS⟩ := Option.map_eq_some_iff.1 hs
        exact .send hctl hout ha hcoro hco hS.symm
    · exact .noOut hctl hout (Option.some.inj hs).symm
  · rename_i hctl
    exact .flushEnd hctl (Option.some.inj hs).symm
  · cases hs

/-- Every step is one of the cases. -/
theorem step_cases {P : Program H σ ℓ} {S S' : Server H σ} {l : Label ℓ}
    (hs : S.step P l = some S') : StepCase P S S' l := by
  cases l with
  | epollWait reported =>
    simp only [step] at hs
    split at hs
    · rename_i hctl
      obtain ⟨evs, hev, hS⟩ := Option.map_eq_some_iff.1 hs
      exact .wait hctl hev hS.symm
    · cases hs
  | next => exact next_cases hs
  | modify ok =>
    simp only [step] at hs
    split at hs
    · rename_i p todo hctl
      obtain ⟨a, ha, hS⟩ := Option.map_eq_some_iff.1 hs
      exact .flush hctl ha hS.symm
    · cases hs
  | co l =>
    simp only [step] at hs
    split at hs
    · rename_i k hctl
      obtain ⟨m, hm, hs⟩ := Option.bind_eq_some_iff.1 hs
      obtain ⟨w, hw, hS⟩ := Option.map_eq_some_iff.1 hs
      exact .co hctl hm hw hS.symm
    · cases hs
  | env l =>
    obtain ⟨co, hco, hS⟩ := Option.map_eq_some_iff.1 hs
    exact .env hco hS.symm

end Server

/-! ### Events still to be offered -/

/-- The events of the batch that have still to be offered to the direction `d`. -/
def Cont.awaits (d : Dir) : Cont → List Event
  | .start => []
  | .out e todo => if d = .write then e :: todo else todo
  | .dispatch todo => todo

/-- The events of the batch that have still to be offered to the direction `d`. -/
def Control.awaits (d : Dir) : Control → List Event
  | .dispatch todo => todo
  | .out e todo => if d = .write then e :: todo else todo
  | .coro k => k.awaits d
  | _ => []

/-- An event with the bit of direction `d` for address `p` has still to be offered. -/
def Control.Pending (c : Control) (d : Dir) (p : Addr) : Prop :=
  ∃ e ∈ c.awaits d, e.ptr = p ∧ e.events.has d.bit

@[simp] theorem Cont.control_awaits (k : Cont) (d : Dir) : k.control.awaits d = k.awaits d := by
  cases k <;> rfl

theorem Control.awaits_coro (k : Cont) (d : Dir) : (Control.coro k).awaits d = k.awaits d := rfl

theorem Status.awaits_sublist (s : Status) (k : Cont) (d : Dir) :
    ((s.control k).awaits d).Sublist (k.awaits d) := by
  cases s with
  | running => exact List.Sublist.refl _
  | yielded => rw [Status.control, Cont.control_awaits]
  | exited => exact List.nil_sublist _

/-- A step of a coroutine does not take events away. -/
theorem Status.awaits_eq {s : Status} {k : Cont} (h : s.control k ≠ .exited) (d : Dir) :
    (s.control k).awaits d = k.awaits d := by
  cases s with
  | running => rfl
  | yielded => exact k.control_awaits d
  | exited => exact absurd rfl h

/-- Only `epoll_wait` adds events. -/
theorem Server.awaits_step {P : Program H σ ℓ} {S S' : Server H σ} {l : Label ℓ}
    (hs : S.step P l = some S') (hl : ∀ r, l ≠ .epollWait r) (d : Dir) :
    (S'.ctl.awaits d).Sublist (S.ctl.awaits d) := by
  cases Server.step_cases hs with
  | wait => exact absurd rfl (hl _)
  | batchEnd _ hS' | flushEnd _ hS' | flush _ _ hS' => subst hS'; exact List.nil_sublist _
  | unmanaged hctl _ hS' => subst hS'; rw [hctl]; exact List.sublist_cons_self _ _
  | noIn hctl _ _ hS' | recvNull hctl _ _ _ _ hS' | recv hctl _ _ _ _ _ hS' =>
    subst hS'
    rw [hctl]
    simp only [Control.awaits, Cont.awaits]
    split_ifs
    · exact List.Sublist.refl _
    · exact List.sublist_cons_self _ _
  | noOut hctl _ hS' | sendNull hctl _ _ _ hS' | send hctl _ _ _ _ hS' =>
    subst hS'
    rw [hctl]
    simp only [Control.awaits, Cont.awaits]
    split_ifs
    · exact List.sublist_cons_self _ _
    · exact List.Sublist.refl _
  | co hctl _ _ hS' => subst hS'; rw [hctl]; exact Status.awaits_sublist _ _ _
  | env _ hS' => subst hS'; exact List.Sublist.refl _

/-- A step other than `epoll_wait` leaves no new event to be offered. -/
theorem Server.Pending.of_step {P : Program H σ ℓ} {S S' : Server H σ} {l : Label ℓ}
    (hs : S.step P l = some S') (hl : ∀ r, l ≠ .epollWait r) {d : Dir} {p : Addr}
    (h : S'.ctl.Pending d p) : S.ctl.Pending d p := by
  obtain ⟨e, he, hrest⟩ := h
  exact ⟨e, (Server.awaits_step hs hl d).subset he, hrest⟩

end EpollCoroutine
