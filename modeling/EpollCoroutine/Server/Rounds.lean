import EpollCoroutine.Lib.History
import EpollCoroutine.Server.Descriptors

/-!
# How long a round takes

Between two calls of `epoll_wait`, `IOContext::run` goes over the events and over
`processedSockets`, and every coroutine that it resumes runs until it suspends or ends. All this is
done by one thread, which serves nobody else meanwhile.

* `Session.rank`, `AcceptPc.rank`: what a coroutine does at most until its next operation returns or
  suspends.
* `State.rank`: what is left of the round, a potential. Every step takes from it, unless an
  operation returns at once (`State.rank_step`).
* `processed_length_le`: `processedSockets` has four objects for each connection at most, and the
  listening `Socket`.
* `round_bounded`: the bound on the steps of a round.
-/

namespace EpollCoroutine

/-! ### Marks -/

section Marks

variable {H : Type}

/-- How many objects a call puts into `processedSockets`. -/
def Call.marks : Call H → ℕ
  | .watch _ _ | .unwatch _ _ => 1
  | _ => 0

/-- The length of the loop at the end of the round. -/
def World.marked (w : World H) : ℕ := w.processedSockets.elems.length

variable {w w' : World H}

theorem World.marked_attachLogged (m : Mask) (p : Addr) (ok : Bool) :
    (w.attachLogged m p ok).marked = w.marked := by
  unfold attachLogged
  split
  · rfl
  · exact congrArg (fun s => s.elems.length) (epollAdd_processedSockets m p _ ok)

theorem World.marked_destroy_le (p : Addr) : (w.destroy p).marked ≤ w.marked := by
  unfold destroy
  split
  · exact le_rfl
  · split_ifs
    · exact le_rfl
    · exact OrdSet.length_erase_le p w.processedSockets

theorem Call.marked_apply_le (c : Call H) : (c.apply w).marked ≤ w.marked + c.marks := by
  cases c with
  | attach p ok | attachWriteOnly p ok => exact (World.marked_attachLogged _ p ok).le
  | attachReadonly p ok =>
    simp only [apply, World.attachReadonly]
    split_ifs
    · exact (World.marked_attachLogged _ p ok).le
    · exact le_rfl
  | watch d p | unwatch d p => exact OrdSet.length_insert_le p w.processedSockets
  | destroy p => exact World.marked_destroy_le p
  | create | suspend | openFd | closeFd => exact le_rfl

theorem Call.marked_applyAll_le {cs : List (Call H)} (h : applyAll cs w = some w') :
    w'.marked ≤ w.marked + (cs.map marks).sum := by
  induction cs generalizing w with
  | nil =>
    obtain rfl := Option.some.inj h
    exact le_rfl
  | cons c cs ih =>
    rw [applyAll_cons_iff] at h
    have hrest := ih h.2
    have hfirst := c.marked_apply_le (w := w)
    rw [List.map_cons, List.sum_cons]
    omega

end Marks

/-! ### What a coroutine has before it -/

/-- The system call of an operation returns a value, or `accept` or `pidfd_open` a descriptor. -/
def Choice.returns : Choice → Bool
  | .sys r => r.completes
  | .opened _ => true
  | _ => false

/-- What a return is worth. -/
def Choice.pay (c : Choice) : ℕ := if c.returns then 15 else 0

/-- The objects that `~PipedAsyncCommand` has still to destroy. -/
def Session.ends (s : Session) : ℕ :=
  [Role.readEnd, .processWait, .writeEnd].countP fun r => (s.ptr r).isSome

/-- What a session does at most until its next operation returns or suspends, or it ends. A mark
counts as much as a step: it may make the loop at the end of the round longer. -/
def Session.rank (s : Session) : ℕ :=
  match s.pc with
  | .call _ => 3
  | .susp _ => 0
  | .retry _ => 17
  | .pipeW => 15
  | .pipeR => 14
  | .attachRd => 13
  | .attachWr => 12
  | .fork => 11
  | .pidfdOpen => 10
  | .attachPw _ => 9
  | .closeEnds => 4
  | .finishwriting | .finishReading => 5
  | .cleanup thrown => s.ends + if thrown then 5 else 2
  | .done thrown => if thrown then 4 else 1

/-- The same for the `accept` coroutine. -/
def AcceptPc.rank : AcceptPc → ℕ
  | .boot => 5
  | .call => 3
  | .susp _ => 0
  | .retry => 9
  | .made _ => 7

/-- The same for a session after a step, until the thread leaves it. -/
def After.rank : After → ℕ
  | .running s | .again s => s.rank
  | .suspended _ | .ended | .exited => 0

/-- The same for the coroutine that has the thread, and the one to which it returns. -/
def Coros.rank (co : Coros) : ℕ :=
  match co.running with
  | .idle => 0
  | .acceptor => co.acceptor.rank
  | .session sid via =>
    ((co.sessions sid).elim 0 Session.rank) + if via then co.acceptor.rank else 0

section Steps

variable {w : World Handle} {sid fresh : ℕ} {s : Session} {c : Choice} {act : Act}

theorem Session.ends_le (s : Session) : s.ends ≤ 3 := List.countP_le_length

theorem Session.ends_setPtr {r : Role} {p : Addr} (hr : r ≠ .socket) (hp : s.ptr r = some p) :
    (s.setPtr r none).ends + 1 = s.ends := by
  cases r with
  | socket => exact absurd rfl hr
  | readEnd => simp [ends, setPtr, List.countP_cons, hp]
  | writeEnd | processWait =>
    simp [ends, setPtr, List.countP_cons, hp]
    omega

theorem Session.rank_sendHead (s : Session) : s.sendHead.rank = 3 := by
  rcases s.sendHead_pc with e | e <;> rw [rank, e]

/-- What follows an operation. -/
theorem Session.rank_complete_le (s : Session) (o : Op) (r : Sys) (d : Bool) :
    (s.complete o r d).rank ≤ 15 := by
  have hends := (s.complete o r d).ends_le
  rcases s.complete_pc o r d with ⟨-, e | e⟩ | ⟨-, e⟩ | ⟨-, e | e | e⟩ | ⟨-, e | e⟩ | ⟨-, e⟩ <;>
    rw [rank, e] <;> simp only [if_true, Bool.false_eq_true, if_false] <;> omega

theorem Session.marks_watchCalls_le (o : Op) (p : Addr) :
    ((watchCalls o p).map Call.marks).sum ≤ 1 := by
  unfold watchCalls
  split_ifs <;> simp [Call.marks]

/-- A step of a session. -/
theorem Session.StepCase.rank_le (h : StepCase w sid fresh s c act) :
    act.after.rank + (act.calls.map Call.marks).sum + 1 ≤ s.rank + c.pay := by
  cases h with
  | @value o p r hpc hp ha hr =>
    have hrank : s.rank = 3 := by rw [rank, hpc]
    have hpay : (Choice.sys r).pay = 15 := if_pos hr
    have hmark := marks_watchCalls_le o p
    have hnext := s.rank_complete_le o r (s.doneReading w)
    simp only [After.rank, List.map_append, List.sum_append, List.map_cons, List.map_nil,
      List.sum_cons, List.sum_nil, Call.marks]
    omega
  | @block o p r hpc hp ha hr hb =>
    have hrank : s.rank = 3 := by rw [rank, hpc]
    have hmark := marks_watchCalls_le o p
    simp only [After.rank, List.map_append, List.sum_append, List.map_cons, List.map_nil,
      List.sum_cons, List.sum_nil, Call.marks]
    omega
  | @error o p r hpc hp ho =>
    have hrank : s.rank = 3 := by rw [rank, hpc]
    have hmark := marks_watchCalls_le o p
    simp only [After.rank]
    omega
  | @retry o p r hpc hp ha =>
    have hrank : s.rank = 17 := by rw [rank, hpc]
    have hnext := s.rank_complete_le o r (s.doneReading w)
    simp only [After.rank, List.map_cons, List.map_nil, List.sum_cons, List.sum_nil, Call.marks]
    omega
  | @attachRd p ok hpc =>
    have hends := ({ s.setPtr .readEnd (some p) with
      pc := if w.addSucceeds s.mFdR.1 ok then .attachWr else .cleanup true } : Session).ends_le
    cases hadd : w.addSucceeds s.mFdR.1 ok <;>
      simp only [hadd, After.rank, rank, hpc, Call.marks, List.map_cons, List.map_nil,
        List.sum_cons, List.sum_nil, if_true, Bool.false_eq_true, if_false] at * <;> omega
  | @attachPw fd p ok hpc =>
    have hends := ({ s.setPtr .processWait (some p) with
      pc := if w.addSucceeds fd ok then .closeEnds else .cleanup true } : Session).ends_le
    cases hadd : w.addSucceeds fd ok <;>
      simp only [hadd, After.rank, rank, hpc, Call.marks, List.map_cons, List.map_nil,
        List.sum_cons, List.sum_nil, if_true, Bool.false_eq_true, if_false] at * <;> omega
  | forkFail hpc | pidfdFail hpc =>
    have hends := ({ s with pc := .cleanup false } : Session).ends_le
    simp only [After.rank, rank, hpc, Call.marks, List.map_cons, List.map_nil, List.sum_cons,
      List.sum_nil, Bool.false_eq_true, if_false] at *
    omega
  | @finishReading p hpc hp =>
    simp only [After.rank, rank_sendHead]
    simp [rank, hpc, Call.marks]
  | @cleanup thrown r p hpc hr hp =>
    have hends := ends_setPtr hr hp
    have hpc' : (s.setPtr r none).pc = .cleanup thrown := hpc
    simp only [After.rank, rank, hpc, hpc', Call.marks, List.map_cons, List.map_nil, List.sum_cons,
      List.sum_nil]
    omega
  | @cleaned thrown hpc =>
    cases thrown <;> simp only [After.rank, rank, hpc, List.map_nil, List.sum_nil, if_true,
      Bool.false_eq_true, if_false] <;> omega
  | @close thrown c p hpc hp =>
    cases thrown <;> simp only [After.rank, rank, hpc, Call.marks, List.map_cons, List.map_nil,
      List.sum_cons, List.sum_nil, if_true, Bool.false_eq_true, if_false] <;> omega
  | pipeWFail hpc | pipeRFail hpc =>
    simp only [After.rank, rank, hpc, Call.marks, List.map_cons, List.map_nil, List.sum_cons,
      List.sum_nil, Bool.false_eq_true, if_false]
    omega
  | pipeW hpc | pipeR hpc | attachWr hpc | fork hpc | pidfdOpen hpc | closeEnds hpc
  | finishwriting hpc | again hpc => simp [After.rank, rank, hpc, Call.marks]

end Steps

/-! ### Rounds -/

/-- What is left to a coroutine that may still have the thread. -/
def Status.rank (s : Status) (co : Coros) : ℕ :=
  match s with
  | .running => co.rank
  | .yielded | .exited => 0

/-- What is left of the round when the running coroutine gives the thread back, while the loop at
the end of the round has `n` objects before it. -/
def Cont.left (n : ℕ) : Cont → ℕ
  | .start => 0
  | .out _ todo => 36 * todo.length + n + 20
  | .dispatch todo => 36 * todo.length + n + 2

/-- What is left of the round. -/
def State.rank (S : State) : ℕ :=
  match S.ctl with
  | .epollWait | .exited => 0
  | .dispatch todo => (Cont.dispatch todo).left S.w.marked
  | .out e todo => (Cont.out e todo).left S.w.marked
  | .flush todo => todo.length + 1
  | .coro k => k.left S.w.marked + S.co.rank

/-- The steps of the server, and not of its child processes. -/
def Label.own {ℓ : Type} : Label ℓ → Bool
  | .env _ => false
  | _ => true

/-- An operation returns in the step, or `accept` or `pidfd_open` does. -/
def Label.returns : Label Choice → Bool
  | .co c => c.returns
  | _ => false

theorem Cont.left_le (k : Cont) {n m d : ℕ} (h : n ≤ m + d) : k.left n ≤ k.left m + d := by
  cases k with
  | start => exact Nat.zero_le _
  | out e todo | dispatch todo =>
    simp only [left]
    omega

theorem State.rank_control (k : Cont) (w : World Handle) (co : Coros) :
    State.rank ⟨w, k.control, co⟩ = k.left w.marked := by
  cases k <;> rfl

section Steps

variable {w : World Handle} {co co' : Coros} {c : Choice} {m : Move Handle Coros}

theorem Coros.rank_settle {sid : ℕ} {via : Bool} (hrun : co.running = .session sid via)
    (after : After) (pr : Procs) :
    (status via after).rank { co.settle sid via after with procs := pr } ≤
      after.rank + if via then co.acceptor.rank else 0 := by
  cases after with
  | running s | again s => simp [status, Status.rank, rank, settle, setSession, hrun, After.rank]
  | suspended s | ended =>
    cases via <;>
      simp [status, backStatus, Status.rank, rank, settle, setSession, back, After.rank]
  | exited => exact Nat.zero_le _

/-- A step of a coroutine. -/
theorem Coros.StepCase.rank_le (h : StepCase w co c m) :
    m.status.rank m.next + (m.calls.map Call.marks).sum + 1 ≤ co.rank + c.pay := by
  cases h with
  | boot hrun hpc | acceptBlock hrun hpc | retryOk hrun hpc | retryFail hrun hpc =>
    simp only [Status.rank, rank, hrun, hpc, AcceptPc.rank, Call.marks, List.map_cons,
      List.map_nil, List.sum_cons, List.sum_nil]
    omega
  | bootFail hrun hpc | acceptFail hrun hpc =>
    simp only [Status.rank, rank, hrun, hpc, AcceptPc.rank, Call.marks, List.map_cons,
      List.map_nil, List.sum_cons, List.sum_nil]
    omega
  | @acceptOk fd hrun hpc =>
    have hpay : (Choice.opened fd).pay = 15 := rfl
    simp only [Status.rank, rank, hrun, hpc, AcceptPc.rank, Call.marks, List.map_cons,
      List.map_nil, List.sum_cons, List.sum_nil]
    omega
  | made hrun hpc =>
    have hstart : ∀ p, (Session.start co.nextFrame p).rank = 3 := fun p => rfl
    simp only [Status.rank, rank, hrun, hpc, AcceptPc.rank, Call.marks, List.map_cons,
      List.map_nil, List.sum_cons, List.sum_nil, setSession, Function.update_self, Option.elim_some,
      hstart, if_true]
    omega
  | @session sid via s c act pr hrun hs hact hpr =>
    have hstep := hact.rank_le
    have hsettle := rank_settle hrun act.after pr
    have hrank : co.rank = s.rank + if via then co.acceptor.rank else 0 := by
      rw [rank, hrun]
      simp [hs]
    have hgoal : (status via act.after).rank { co.settle sid via act.after with procs := pr } +
        (act.calls.map Call.marks).sum + 1 ≤ co.rank + c.pay := by omega
    exact hgoal

theorem Coros.rank_resume {x : Handle} (h : co.resume x = some co') : co'.rank ≤ 17 := by
  rcases Coros.resume_cases h with ⟨n, -, -, rfl⟩ | ⟨sid, s, o, -, hs, hpc, rfl⟩
  · simp [rank, AcceptPc.rank]
  · simp [rank, setSession, Session.rank]

end Steps

/-- Every step takes from what is left of the round, and adds to it only if an operation returns. -/
theorem State.rank_step {S S' : State} {l : Label Choice} (hl : ∀ r, l ≠ .epollWait r)
    (hs : S.step l = some S') :
    S'.rank + (if l.own then 1 else 0) ≤ S.rank + if l.returns then 15 else 0 := by
  have hhangup : ∀ e, (S.w.noteHangup e).marked = S.w.marked := by
    intro e
    unfold World.noteHangup
    split_ifs <;> rfl
  cases Server.step_cases hs with
  | wait => exact absurd rfl (hl _)
  | batchEnd hctl hS | unmanaged hctl _ hS | noIn hctl _ _ hS | noOut hctl _ hS
  | sendNull hctl _ _ _ hS | flushEnd hctl hS =>
    subst hS
    simp only [rank, hctl, Cont.left, World.marked, Label.own, Label.returns, List.length_cons,
      List.length_nil, if_true, Bool.false_eq_true, if_false]
    omega
  | recvNull hctl _ _ _ _ hS =>
    subst hS
    simp only [rank, hctl, Cont.left, hhangup, Label.own, Label.returns, List.length_cons,
      if_true, Bool.false_eq_true, if_false]
    omega
  | recv hctl _ _ _ _ hco hS | send hctl _ _ _ hco hS =>
    subst hS
    have hresume := Coros.rank_resume hco
    simp only [rank, hctl, Cont.left, hhangup, Label.own, Label.returns, List.length_cons,
      if_true, Bool.false_eq_true, if_false]
    omega
  | flush hctl _ hS =>
    subst hS
    simp only [rank, hctl, Label.own, Label.returns, List.length_cons, if_true,
      Bool.false_eq_true, if_false]
    omega
  | @co k c m w' hctl hm hw hS =>
    subst hS
    have hstep := (Coros.step_cases hm).rank_le
    have hleft := k.left_le (Call.marked_applyAll_le hw)
    have hrank : State.rank ⟨w', m.status.control k, m.next⟩ ≤
        k.left w'.marked + m.status.rank m.next := by
      cases m.status with
      | running => exact le_rfl
      | yielded => exact (State.rank_control k w' m.next).le
      | exited => exact Nat.zero_le _
    have hbefore : S.rank = k.left S.w.marked + S.co.rank := by rw [rank, hctl]
    have hpay : (if Label.returns (.co c) then 15 else 0) = c.pay := rfl
    rw [hpay]
    simp only [Label.own, if_true]
    omega
  | env hco hS =>
    subst hS
    obtain ⟨pid, pr, -, -, rfl⟩ := Coros.env_cases hco
    exact le_rfl

/-! ### The marked objects -/

/-- At every moment four objects of each connection at most are marked, and the listening
`Socket`. -/
theorem processed_length_le {w : World Handle} {co : Coros} (h : ObjectsOk w co) :
    w.marked ≤ 1 + 4 * co.served.ncard := by
  rw [Coros.served_eq h.fresh, Set.ncard_coe_finset]
  set t := (Finset.range co.nextFrame).filter fun sid => (co.sessions sid).isSome with ht
  have hnodup : w.processedSockets.elems.Nodup :=
    w.processedSockets.sorted.imp fun hlt => hlt.ne
  set roles : Finset Role := {.socket, .readEnd, .writeEnd, .processWait} with hroles
  set owned := t.biUnion fun sid => roles.image fun r =>
    ((co.sessions sid).bind fun s => s.ptr r).getD 0 with howned
  have hsub : w.processedSockets.elems.toFinset ⊆ insert co.listen owned := by
    intro p hp
    have hmanaged := h.owned.processed_managed p (List.mem_toFinset.1 hp)
    obtain ⟨o, ho⟩ := h.owned.owned p hmanaged
    cases o with
    | acceptor => exact Finset.mem_insert.2 (Or.inl ho.2)
    | session sid r =>
      obtain ⟨s, hs, hptr⟩ := ho
      refine Finset.mem_insert_of_mem (Finset.mem_biUnion.2 ⟨sid, ?_, ?_⟩)
      · simp [ht, hs, h.fresh sid s hs]
      · refine Finset.mem_image.2 ⟨r, ?_, by simp [hs, hptr]⟩
        cases r <;> simp [hroles]
  have hfour : owned.card ≤ t.card * 4 :=
    Finset.card_biUnion_le_card_mul _ _ _ fun sid _ => Finset.card_image_le
  have hcard := Finset.card_le_card hsub
  rw [List.toFinset_card_of_nodup hnodup] at hcard
  have hinsert := Finset.card_insert_le co.listen owned
  unfold World.marked
  omega

theorem World.collectEvents_length {H : Type} {w : World H} {l : List (Fd × Mask)}
    {evs : List Event} (h : w.collectEvents l = some evs) : evs.length = l.length := by
  induction l generalizing evs with
  | nil =>
    obtain rfl := Option.some.inj h
    rfl
  | cons x l ih =>
    simp only [collectEvents] at h
    split at h
    · cases h
    · split_ifs at h
      obtain ⟨evs', hevs', rfl⟩ := Option.map_eq_some_iff.1 h
      simp [ih hevs']

/-- **Every round is short.** In every run, whatever the system calls do: from an `epoll_wait` that
reports some events to any later moment before the next one, the server makes 36 steps for each
event, 15 for each operation that has returned a value meanwhile (and each `accept` and `pidfd_open`
that has returned a descriptor), 4 for each connection and 3 more at most. -/
theorem round_bounded {S S₁ S' : State} {reported : List (Fd × Mask)} {ls : List (Label Choice)}
    (h : Lts.Reach State.step (fun _ _ => True) State.start S)
    (hw : S.step (.epollWait reported) = some S₁) (hrun : Lts.trace State.step S₁ ls = some S')
    (hls : ∀ l ∈ ls, ∀ r, l ≠ .epollWait r) :
    ls.countP Label.own ≤ 36 * reported.length + 15 * ls.countP Label.returns +
      4 * S.co.served.ncard + 3 := by
  have hcost : S'.rank + ls.countP Label.own ≤ S₁.rank + 15 * ls.countP Label.returns :=
    Lts.trace_potential State.step S₁ (fun S l hl S' hs => State.rank_step (hls l hl) hs) hrun
  have hmarked := processed_length_le (objectsOk_reach h)
  have hbegin : S₁.rank = 36 * reported.length + S.w.marked + 2 := by
    cases Server.step_cases hw with
    | wait hctl hev hS =>
      subst hS
      unfold World.collect at hev
      split_ifs at hev
      rw [← World.collectEvents_length hev]
      rfl
  omega

/-- The round in which the request of the only connection is read and its child is started. -/
def requestRound : List (Label Choice) :=
  [.next, .co (.sys (.bytes [97] []))] ++ spawnRun 3 5 100 ++ [.co (.sys .wouldBlock), .next] ++
    flushRun 3

/-- One event and three returns: 19 steps. -/
theorem round_bounded_request : ∃ S S' : State, S'.ctl = .epollWait ∧
    requestRound.countP Label.own = 19 ∧
      requestRound.countP Label.own ≤ 36 * 1 + 15 * 3 + 4 * S.co.served.ncard + 3 := by
  obtain ⟨S, h, hp⟩ := Lts.exists_reach State.step (fun _ _ => True) State.start
    (listenRun ++ connectRun 2 4 ++ flushRun 2) (fun _ _ => true) (fun _ _ _ => trivial)
    (fun S => (S.step (.epollWait [(4, EPOLLIN)])).any fun S₁ : State =>
      (Lts.trace State.step S₁ requestRound).any fun S' : State => decide (S'.ctl = .epollWait))
    (by decide)
  obtain ⟨S₁, hw, hp⟩ := (Option.any_eq_true _ _).1 hp
  obtain ⟨S', hrun, hp⟩ := (Option.any_eq_true _ _).1 hp
  have hreturns : requestRound.countP Label.returns = 3 := by decide
  have hbound := round_bounded h hw hrun (by
    intro l hl r e
    subst e
    simp [requestRound, spawnRun, flushRun] at hl)
  rw [hreturns] at hbound
  exact ⟨S, S', of_decide_eq_true hp, by decide, hbound⟩

end EpollCoroutine
