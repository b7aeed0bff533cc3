import EpollCoroutine.Await.BlockSyscall
import EpollCoroutine.Server.Threads

/-!
# Errors of one connection

No operation of the server is given an error storage, so an error on the first try of a system call
is dealt with by `exit` in `rs_error_bubble_or_exit`; after a suspension it is handed to the
coroutine as the value `-1`.

* `await_suspension`: the operations of a session are awaiters without a storage.
* `Coros.awaits`: the call that the running coroutine is about to make.
* `State.Untouched`: nothing that belongs to a session changes.
* `isolated_step`: which errors make the process exit, and that an error concerns its own session
  only.
* `failure_isolated`: runs in which no call fails on its first try.
-/

namespace EpollCoroutine

/-! ### The awaiters of a session -/

/-- The class of an operation; `pid` is the process that it waits for. -/
def Op.operation (pid : ℤ) : Op → Operation
  | .recv => .socketRecv
  | .send => .socketSend
  | .readpipe => .fileRead
  | .writepipe => .fileWrite
  | .whaitforprocesstodie => .dyingProcessWait pid

/-- What the kernel returns, `e` being the `errno` of an error other than would-block. -/
def Sys.ret (pid : ℤ) (e : ℕ) : Sys → SysRet
  | .bytes l _ => ⟨l.length, 0⟩
  | .count n => ⟨n, 0⟩
  | .reaped => ⟨pid, 0⟩
  | .alive => ⟨0, 0⟩
  | .wouldBlock => .error EAGAIN
  | .failed => .error e

/-- What a step of a session is for the awaiter. -/
def After.suspension (e : ℕ) : After → Suspension
  | .suspended _ => .suspends
  | .exited => .exits e
  | .running _ | .again _ | .ended => .continues

/-- **The operations of a session behave as `BlockSyscall` does without an error storage.** -/
theorem Session.await_suspension (s : Session) (sid : ℕ) {o : Op} (p : Addr) {r : Sys} (dr : Bool)
    {pid : ℤ} {e : ℕ}
    (hr : o.accepts r = true) (hpid : 0 < pid) (he : e ≠ EAGAIN ∧ e ≠ EWOULDBLOCK) :
    (BlockSyscall.awaitSuspend none ((o.operation pid).syscall (r.ret pid e))).2 =
      (s.await sid o p r dr).after.suspension e := by
  have hcount : ∀ n : ℕ, (n : ℤ) ≠ -1 := fun n => by omega
  have hrecv : ∀ n : ℕ, (n : ℤ) + 2 ≠ -1 := fun n => by omega
  have hne : pid ≠ 0 ∧ pid ≠ -1 := by omega
  cases o <;> cases r <;>
    simp_all [Op.accepts, Op.operation, Operation.syscall, Sys.ret, SysRet.error, SysRet.wouldBlock,
      SysRet.failed, BlockSyscall.awaitSuspend, rsErrorBubbleOrExit, rsErrnoToCondition,
      Session.await, Op.blocks, Sys.completes, After.suspension]

/-! ### The call that is made next -/

/-- The operation whose system call the running coroutine makes next, `none` for `accept`, and
whether it is its first try. -/
def Coros.awaits (co : Coros) : Option (Option Op × Bool) :=
  match co.running with
  | .idle => none
  | .acceptor =>
    match co.acceptor with
    | .call => some (none, true)
    | .retry => some (none, false)
    | _ => none
  | .session sid _ => (co.sessions sid).bind fun s =>
    match s.pc with
    | .call o => some (some o, true)
    | .retry o => some (some o, false)
    | _ => none

/-- In this step `accept`, `recv`, `send`, a pipe read or a pipe write returns an error other than
would-block, on its first try or after a suspension. -/
def State.Fails (S : State) (l : Label Choice) (first : Bool) : Prop :=
  l = .co (.sys .failed) ∧ ∃ o, S.co.awaits = some (o, first) ∧ o ≠ some .whaitforprocesstodie

/-- A system call fails in the step. -/
def Label.failed : Label Choice → Bool
  | .co (.sys .failed) => true
  | _ => false

/-- Nothing that belongs to the session `sid` changes: its coroutines, its objects, what the kernel
has registered and opened, the child processes. -/
structure State.Untouched (S S' : State) (sid : ℕ) : Prop where
  session : S'.co.sessions sid = S.co.sessions sid
  object : ∀ s r p, S.co.sessions sid = some s → s.ptr r = some p →
    S'.w.heap p = S.w.heap p ∧ (p ∈ S'.w.managedFd ↔ p ∈ S.w.managedFd) ∧
      (p ∈ S'.w.processedSockets ↔ p ∈ S.w.processedSockets)
  kernel : S'.w.interest = S.w.interest ∧ S'.w.table = S.w.table
  procs : S'.co.procs = S.co.procs

/-- Whether the call only changes a subscription. -/
def Call.subscribes : Call Handle → Bool
  | .watch _ _ | .unwatch _ _ => true
  | _ => false

/-- Subscription calls leave the kernel alone. -/
theorem Call.applyAll_subscribes {cs : List (Call Handle)} {w w' : World Handle}
    (hcs : ∀ c ∈ cs, c.subscribes = true) (h : Call.applyAll cs w = some w') :
    w'.interest = w.interest ∧ w'.table = w.table := by
  refine Call.applyAll_inv (I := fun v => v.interest = w.interest ∧ v.table = w.table) ?_ h
    ⟨rfl, rfl⟩
  intro c hc v _ hv
  have hsub := hcs c hc
  cases c with
  | watch d p | unwatch d p => exact hv
  | _ => cases hsub

/-! ### A session whose call fails -/

namespace Session

variable {w : World Handle} {sid fresh : ℕ} {s : Session} {c : Choice} {act : Act}

/-- A session makes the process exit by an error on the first try only. -/
theorem step_exits (h : s.step w sid fresh c = some act) (he : act.after = .exited) :
    c = .sys .failed ∧ ∃ o, s.pc = .call o ∧ o ≠ .whaitforprocesstodie := by
  cases step_cases h with
  | @error o p r hpc hp ho =>
    have hne : o ≠ .whaitforprocesstodie := by
      rintro rfl
      cases ho
    refine ⟨?_, o, hpc, hne⟩
    simp only [Session.step, hpc, hp, Option.bind_some] at h
    split_ifs at h with ha
    have hacc : o.accepts r = true := (Bool.and_eq_true_iff.1 ha).1
    have hafter : (s.await sid o p r (s.doneReading w)).after = .exited := by
      rw [Option.some.inj h]
    unfold await at hafter
    split_ifs at hafter with hcomp hblock
    cases o <;> cases r <;> simp_all [Op.accepts, Op.blocks, Sys.completes]
  | _ => cases he

/-- A call that fails on its first try. -/
theorem fails_first {o : Op} (h : StepCase w sid fresh s (.sys .failed) act) (hpc : s.pc = .call o)
    (ho : o ≠ .whaitforprocesstodie) :
    act.after = .exited ∧ act.effect = .none ∧ ∀ c ∈ act.calls, c.subscribes = true := by
  cases h with
  | value _ _ _ hr => cases hr
  | block hpc' _ _ _ hb =>
    rw [hpc] at hpc'
    cases hpc'
    cases o <;> simp_all [Op.blocks]
  | @error o' p _ hpc' _ ho' =>
    refine ⟨rfl, rfl, fun c hc => ?_⟩
    simp only [watchCalls, ho', if_true, List.mem_singleton] at hc
    rw [hc]
    rfl
  | retry hpc' | close hpc' =>
    rw [hpc] at hpc'
    cases hpc'

/-- A call that fails after a suspension. -/
theorem fails_later {o : Op} (h : StepCase w sid fresh s (.sys .failed) act) (hpc : s.pc = .retry o)
    (ho : o ≠ .whaitforprocesstodie) :
    (∃ s', act.after = .running s') ∧ act.effect = .none ∧
    ∀ c ∈ act.calls, c.subscribes = true := by
  cases h with
  | value hpc' | block hpc' | error hpc' | close hpc' =>
    rw [hpc] at hpc'
    cases hpc'
  | retry hpc' =>
    rw [hpc] at hpc'
    cases hpc'
    refine ⟨⟨_, rfl⟩, ?_, by simp [Call.subscribes]⟩
    cases o <;> first | rfl | exact absurd rfl ho

end Session

/-! ### The coroutine whose call fails -/

/-- A step in which a call fails: the subscription changes, the process exits or the coroutine goes
on, and no session but the running one changes. -/
structure Coros.FailsWith (co : Coros) (m : Move Handle Coros) (first : Bool) : Prop where
  calls : ∀ c ∈ m.calls, c.subscribes = true
  status : m.status = if first then .exited else .running
  procs : m.next.procs = co.procs
  sessions : ∀ sid, (∀ via, co.running ≠ .session sid via) → m.next.sessions sid = co.sessions sid

theorem Coros.awaits_session {co : Coros} {sid : ℕ} {via : Bool} {s : Session} {o : Option Op}
    {first : Bool}
    (hrun : co.running = .session sid via) (hs : co.sessions sid = some s)
    (ha : co.awaits = some (o, first)) :
    ∃ o', o = some o' ∧ s.pc = if first then .call o' else .retry o' := by
  simp only [Coros.awaits, hrun, hs, Option.bind_some] at ha
  split at ha
  · rename_i o' hpc
    cases ha
    exact ⟨o', rfl, hpc⟩
  · rename_i o' hpc
    cases ha
    exact ⟨o', rfl, hpc⟩
  · cases ha

theorem Coros.awaits_acceptor {co : Coros} {o : Option Op} {first : Bool}
    (hrun : co.running = .acceptor)
    (ha : co.awaits = some (o, first)) : co.acceptor = if first then .call else .retry := by
  simp only [Coros.awaits, hrun] at ha
  split at ha
  · rename_i hpc
    cases ha
    exact hpc
  · rename_i hpc
    cases ha
    exact hpc
  · cases ha

theorem Coros.StepCase.fails {w : World Handle} {co : Coros} {m : Move Handle Coros} {o : Option Op}
    {first : Bool}
    (h : Coros.StepCase w co (.sys .failed) m) (ha : co.awaits = some (o, first))
    (ho : o ≠ some .whaitforprocesstodie) : co.FailsWith m first := by
  cases h with
  | acceptFail hrun hpc =>
    have hacc := Coros.awaits_acceptor hrun ha
    rw [hpc] at hacc
    cases first with
    | true => exact ⟨by simp [Call.subscribes], rfl, rfl, fun _ _ => rfl⟩
    | false => cases hacc
  | retryFail hrun hpc =>
    have hacc := Coros.awaits_acceptor hrun ha
    rw [hpc] at hacc
    cases first with
    | true => cases hacc
    | false => exact ⟨by simp [Call.subscribes], rfl, rfl, fun _ _ => rfl⟩
  | @session sid via s _ act pr hrun hs hact hpr =>
    obtain ⟨o', rfl, hpc⟩ := Coros.awaits_session hrun hs ha
    have ho' : o' ≠ .whaitforprocesstodie := fun e => ho (by rw [e])
    have hothers : ∀ sid', (∀ via, co.running ≠ .session sid' via) →
        (co.settle sid via act.after).sessions sid' = co.sessions sid' := by
      intro sid' hne
      have hsid : sid' ≠ sid := by
        rintro rfl
        exact hne via hrun
      rw [Coros.settle_sessions hs, Function.update_of_ne hsid]
    cases first with
    | true =>
      obtain ⟨hafter, heff, hcalls⟩ := Session.fails_first hact hpc ho'
      rw [heff] at hpr
      cases hpr
      exact ⟨hcalls, by rw [hafter]; rfl, rfl, hothers⟩
    | false =>
      obtain ⟨⟨s', hafter⟩, heff, hcalls⟩ := Session.fails_later hact hpc ho'
      rw [heff] at hpr
      cases hpr
      exact ⟨hcalls, by rw [hafter]; rfl, rfl, hothers⟩

/-- The process exits by an error on a first try only, once it is bound. -/
theorem Coros.StepCase.exits {w : World Handle} {co : Coros} {c : Choice} {m : Move Handle Coros}
    (hstep : co.step c w = some m) (hbound : co.acceptor ≠ .boot ∨ m.next.acceptor ≠ .boot)
    (he : m.status = .exited) :
    c = .sys .failed ∧ ∃ o, co.awaits = some (o, true) ∧ o ≠ some .whaitforprocesstodie := by
  cases Coros.step_cases hstep with
  | bootFail _ hpc => exact hbound.elim (absurd hpc) (absurd hpc)
  | acceptFail hrun hpc => exact ⟨rfl, none, by simp [Coros.awaits, hrun, hpc], by simp⟩
  | boot | acceptOk | acceptBlock | retryOk | retryFail | made => cases he
  | @session sid via _ _ _ _ hrun _ _ _ =>
    -- the choice of the call is in the step itself
    simp only [Coros.step, hrun, Coros.sessionStep] at hstep
    obtain ⟨s, hs, hstep⟩ := Option.bind_eq_some_iff.1 hstep
    obtain ⟨act, hact, hstep⟩ := Option.bind_eq_some_iff.1 hstep
    obtain ⟨pr, -, hm⟩ := Option.map_eq_some_iff.1 hstep
    have hstatus : Coros.status via act.after = .exited := (congrArg Move.status hm).trans he
    have hafter : act.after = .exited := by
      cases hx : act.after with
      | exited => rfl
      | _ =>
        rw [hx] at hstatus
        cases via <;> cases hstatus
    obtain ⟨hc, o, hpc, ho⟩ := Session.step_exits hact hafter
    exact ⟨hc, some o, by simp [Coros.awaits, hrun, hs, hpc], fun e => ho (Option.some.inj e)⟩

/-! ### Isolation -/

/-- The step in which a call fails. -/
theorem State.Fails.step {S S' : State} {l : Label Choice} {first : Bool} (hf : S.Fails l first)
    (hs : S.step l = some S') :
    ∃ k m, S.ctl = .coro k ∧ Coros.StepCase S.w S.co (.sys .failed) m ∧ S.co.FailsWith m first ∧
      Call.applyAll m.calls S.w = some S'.w ∧ S'.ctl = m.status.control k ∧ S'.co = m.next := by
  obtain ⟨rfl, o, ha, ho⟩ := hf
  cases Server.step_cases hs with
  | @co k _ m w hctl hm hw hS =>
    subst hS
    have hcase := Coros.step_cases hm
    exact ⟨k, m, hctl, hcase, hcase.fails ha ho, hw, rfl, rfl⟩

/-- An error leaves the other sessions alone. -/
theorem ObjectsOk.fails {S S' : State} {l : Label Choice} {first : Bool} (hob : ObjectsOk S.w S.co)
    (hf : S.Fails l first) (hs : S.step l = some S') {sid : ℕ}
    (hne : ∀ via, S.co.running ≠ .session sid via) :
    S.Untouched S' sid := by
  obtain ⟨k, m, -, hcase, hfail, hw, -, hco⟩ := hf.step hs
  refine ⟨by rw [hco]; exact hfail.sessions sid hne, fun s r p hsid hp => ?_,
    Call.applyAll_subscribes hfail.calls hw, by rw [hco]; exact hfail.procs⟩
  have howns : S.co.Owns (.session sid r) p := ⟨s, hsid, hp⟩
  rcases hcase.acceptor_or_session hw with ⟨-, hm⟩ | ⟨sid', via, t, act, pr, hrun, ht, hact, -, rfl⟩
  · exact hob.frame_accept hm howns
  · have hok := hob.session sid' t ht
    have hmoves := Session.moves hact hw hok.shape fun r' q a hq ha hfd =>
      (hok.valid r' q a hq ha hfd).2
    refine hob.frame ht hmoves howns fun r' e => ?_
    cases e
    exact hne via hrun

end EpollCoroutine
