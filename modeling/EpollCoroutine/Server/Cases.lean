import EpollCoroutine.Server.Program

/-!
# The steps of the coroutines, one by one

* `Session.StepCase`: the steps of a session, with their guards.
* `Coros.StepCase`: the steps of the running coroutine.
* `Coros.resume_cases`, `Coros.env_cases`: what a resumption and a child process do.
-/

namespace EpollCoroutine

/-! ### A session -/

namespace Session

/-- The steps of a session. -/
inductive StepCase (w : World Handle) (sid fresh : ℕ) (s : Session) : Choice → Act → Prop
  | value {o : Op} {p : Addr} {r : Sys} (hpc : s.pc = .call o) (hp : s.ptr o.role = some p)
      (ha : allows w o p r) (hr : r.completes) :
      StepCase w sid fresh s (.sys r) ⟨watchCalls o p ++ [.unwatch o.dir p], s.opEffect o r,
        .running (s.complete o r (s.doneReading w))⟩
  | block {o : Op} {p : Addr} {r : Sys} (hpc : s.pc = .call o) (hp : s.ptr o.role = some p)
      (ha : allows w o p r) (hr : r.completes = false) (hb : o.blocks r) :
      StepCase w sid fresh s (.sys r)
        ⟨watchCalls o p ++ [.suspend o.dir p (.echo sid s.frame)], s.opEffect o r,
          .suspended { s with pc := .susp o, opNo := s.opNo + 1 }⟩
  | error {o : Op} {p : Addr} {r : Sys} (hpc : s.pc = .call o) (hp : s.ptr o.role = some p)
      (ho : o.watches) : StepCase w sid fresh s (.sys r) ⟨watchCalls o p, .none, .exited⟩
  | retry {o : Op} {p : Addr} {r : Sys} (hpc : s.pc = .retry o) (hp : s.ptr o.role = some p)
      (ha : allows w o p r) :
      StepCase w sid fresh s (.sys r) ⟨[.unwatch o.dir p], s.opEffect o r,
        .running (s.complete o r (s.doneReading w))⟩
  | pipeW {r wr : Fd} (hpc : s.pc = .pipeW) :
      StepCase w sid fresh s (.pipe r wr)
        ⟨[.openFd r (.pipeEnd (wPipe s.frame) .read),
          .openFd wr (.pipeEnd (wPipe s.frame) .write)], .none,
          .running { s with mFdW := (r, wr), pc := .pipeR }⟩
  | pipeWFail (hpc : s.pc = .pipeW) :
      StepCase w sid fresh s .failed ⟨[], .none, .running { s with pc := .done false }⟩
  | pipeR {r wr : Fd} (hpc : s.pc = .pipeR) :
      StepCase w sid fresh s (.pipe r wr)
        ⟨[.openFd r (.pipeEnd (rPipe s.frame) .read),
          .openFd wr (.pipeEnd (rPipe s.frame) .write)], .none,
          .running { s with mFdR := (r, wr), pc := .attachRd }⟩
  | pipeRFail (hpc : s.pc = .pipeR) :
      StepCase w sid fresh s .failed ⟨[.closeFd s.mFdW.2, .closeFd s.mFdW.1], .none,
        .running { s with pc := .done false }⟩
  | attachRd {p : Addr} {ok : Bool} (hpc : s.pc = .attachRd) :
      StepCase w sid fresh s (.object p ok) ⟨[.create p s.mFdR.1, .attachReadonly p ok], .none,
        .running { s.setPtr .readEnd (some p) with
          pc := if w.addSucceeds s.mFdR.1 ok then .attachWr else .cleanup true }⟩
  | attachWr {p : Addr} {ok : Bool} (hpc : s.pc = .attachWr) :
      StepCase w sid fresh s (.object p ok) ⟨[.create p s.mFdW.2, .attachWriteOnly p ok], .none,
        .running { s.setPtr .writeEnd (some p) with pc := .fork }⟩
  | fork {pid : Pid} (hpc : s.pc = .fork) :
      StepCase w sid fresh s (.forked pid) ⟨[], .forked pid,
        .running { s with forkedProcesId := pid, pc := .pidfdOpen }⟩
  | forkFail (hpc : s.pc = .fork) :
      StepCase w sid fresh s .failed ⟨[.closeFd s.mFdW.1, .closeFd s.mFdR.2], .none,
        .running { s with pc := .cleanup false }⟩
  | pidfdOpen {fd : Fd} (hpc : s.pc = .pidfdOpen) :
      StepCase w sid fresh s (.opened fd) ⟨[.openFd fd (.pidfd s.forkedProcesId)], .none,
        .running { s with pc := .attachPw fd }⟩
  | pidfdFail (hpc : s.pc = .pidfdOpen) :
      StepCase w sid fresh s .failed ⟨[], .none, .running { s with pc := .cleanup false }⟩
  | attachPw {fd : Fd} {p : Addr} {ok : Bool} (hpc : s.pc = .attachPw fd) :
      StepCase w sid fresh s (.object p ok) ⟨[.create p fd, .attachReadonly p ok], .none,
        .running { s.setPtr .processWait (some p) with
          pc := if w.addSucceeds fd ok then .closeEnds else .cleanup true }⟩
  | closeEnds (hpc : s.pc = .closeEnds) :
      StepCase w sid fresh s .go ⟨[.closeFd s.mFdW.1, .closeFd s.mFdR.2], .none,
        .running { s with pc := .call .writepipe }⟩
  | finishwriting {p : Addr} (hpc : s.pc = .finishwriting) (hp : s.ptr .writeEnd = some p) :
      StepCase w sid fresh s .go ⟨[.unwatch .write p, .destroy p], .finishedWriting,
        .running { s.setPtr .writeEnd none with pc := .call .readpipe }⟩
  | finishReading {p : Addr} (hpc : s.pc = .finishReading) (hp : s.ptr .readEnd = some p) :
      StepCase w sid fresh s .go ⟨[.unwatch .read p, .destroy p], .none,
        .running { s.setPtr .readEnd none with vars := s.vars.stripFirstLine }.sendHead⟩
  | cleanup {thrown : Bool} {r : Role} {p : Addr} (hpc : s.pc = .cleanup thrown) (hr : r ≠ .socket)
      (hp : s.ptr r = some p) :
      StepCase w sid fresh s .go ⟨[.destroy p], .none, .running (s.setPtr r none)⟩
  | cleaned {thrown : Bool} (hpc : s.pc = .cleanup thrown) (hp : ∀ r, r ≠ .socket → s.ptr r = none) :
      StepCase w sid fresh s .go ⟨[], .none, .running { s with pc := .done thrown }⟩
  | close {thrown : Bool} {c : Choice} {p : Addr} (hpc : s.pc = .done thrown)
      (hp : s.ptr .socket = some p) : StepCase w sid fresh s c ⟨[.destroy p], .none, .ended⟩
  | again (hpc : s.pc = .done true) :
      StepCase w sid fresh s (.result true)
        ⟨[], .none, .again { s with frame := fresh, pc := .call .recv, vars := {} }⟩

variable {w : World Handle} {sid fresh : ℕ} {s : Session}

theorem cleanup_cases (thrown : Bool) (hpc : s.pc = .cleanup thrown) :
    StepCase w sid fresh s .go (s.cleanup thrown) := by
  unfold Session.cleanup
  split
  · rename_i p h1
    exact .cleanup hpc (by simp) h1
  · rename_i p h1 h2
    exact .cleanup hpc (by simp) h2
  · rename_i p h1 h2 h3
    exact .cleanup hpc (by simp) h3
  · rename_i h1 h2 h3
    refine .cleaned hpc fun r hr => ?_
    cases r with
    | socket => exact absurd rfl hr
    | readEnd => exact h1
    | processWait => exact h2
    | writeEnd => exact h3

theorem close_cases {thrown : Bool} {c : Choice} {act : Act} (hpc : s.pc = .done thrown)
    (h : s.close = some act) : StepCase w sid fresh s c act := by
  obtain ⟨p, hp, rfl⟩ := Option.map_eq_some_iff.1 h
  exact .close hpc hp

theorem await_cases {o : Op} {p : Addr} {r : Sys} (hpc : s.pc = .call o)
    (hp : s.ptr o.role = some p) (ha : allows w o p r) :
    StepCase w sid fresh s (.sys r) (s.await sid o p r (s.doneReading w)) := by
  unfold await
  split_ifs with h1 h2
  · exact .value hpc hp ha h1
  · exact .block hpc hp ha (by simpa using h1) h2
  · refine .error hpc hp ?_
    -- `DyingProcessWaitOperation` has suspended
    cases o <;> simp_all [Op.blocks, Op.watches]

/-- Every step is one of the cases. -/
theorem step_cases {c : Choice} {act : Act} (h : s.step w sid fresh c = some act) :
    StepCase w sid fresh s c act := by
  unfold Session.step at h
  split at h
  case h_1 o r hpc =>
    obtain ⟨p, hp, h⟩ := Option.bind_eq_some_iff.1 h
    split_ifs at h with ha
    cases h
    exact await_cases hpc hp ha
  case h_2 o r hpc =>
    obtain ⟨p, hp, h⟩ := Option.bind_eq_some_iff.1 h
    split_ifs at h with ha
    cases h
    exact .retry hpc hp ha
  case h_3 hpc => cases h; exact .pipeW hpc
  case h_4 hpc => cases h; exact .pipeWFail hpc
  case h_5 hpc => cases h; exact .pipeR hpc
  case h_6 hpc => cases h; exact .pipeRFail hpc
  case h_7 hpc => cases h; exact .attachRd hpc
  case h_8 hpc => cases h; exact .attachWr hpc
  case h_9 hpc => cases h; exact .fork hpc
  case h_10 hpc => cases h; exact .forkFail hpc
  case h_11 hpc => cases h; exact .pidfdOpen hpc
  case h_12 hpc => cases h; exact .pidfdFail hpc
  case h_13 hpc => cases h; exact .attachPw hpc
  case h_14 hpc => cases h; exact .closeEnds hpc
  case h_15 hpc =>
    obtain ⟨p, hp, rfl⟩ := Option.map_eq_some_iff.1 h
    exact .finishwriting hpc hp
  case h_16 hpc =>
    obtain ⟨p, hp, rfl⟩ := Option.map_eq_some_iff.1 h
    exact .finishReading hpc hp
  case h_17 hpc => cases h; exact cleanup_cases _ hpc
  case h_18 hpc => exact close_cases hpc h
  case h_19 hpc => exact close_cases hpc h
  case h_20 hpc => cases h; exact .again hpc
  case h_21 => cases h

end Session

/-! ### The coroutines -/

namespace Coros

/-- The steps of the running coroutine. -/
inductive StepCase (w : World Handle) (co : Coros) : Choice → Move Handle Coros → Prop
  | boot {p : Addr} {fd : Fd} {ok : Bool} (hrun : co.running = .acceptor) (hpc : co.acceptor = .boot) :
      StepCase w co (.boot p fd true ok)
        ⟨[.openFd fd .listening, .create p fd, .attach p ok, .watch .read p],
          { co with listen := p, acceptor := .call }, .running⟩
  | bootFail {p : Addr} {fd : Fd} {ok : Bool} (hrun : co.running = .acceptor)
      (hpc : co.acceptor = .boot) :
      StepCase w co (.boot p fd false ok) ⟨[.openFd fd .listening, .create p fd], co, .exited⟩
  | acceptOk {fd : Fd} (hrun : co.running = .acceptor) (hpc : co.acceptor = .call) :
      StepCase w co (.opened fd)
        ⟨[.watch .read co.listen, .unwatch .read co.listen, .openFd fd .connection],
          { co with acceptor := .made fd }, .running⟩
  | acceptBlock (hrun : co.running = .acceptor) (hpc : co.acceptor = .call) :
      StepCase w co (.sys .wouldBlock)
        ⟨[.watch .read co.listen, .suspend .read co.listen (.accept co.acceptNo)],
          { co with
            acceptor := .susp co.acceptNo
            acceptNo := co.acceptNo + 1
            running := .idle }, .yielded⟩
  | acceptFail (hrun : co.running = .acceptor) (hpc : co.acceptor = .call) :
      StepCase w co (.sys .failed) ⟨[.watch .read co.listen], co, .exited⟩
  | retryOk {fd : Fd} (hrun : co.running = .acceptor) (hpc : co.acceptor = .retry) :
      StepCase w co (.opened fd)
        ⟨[.unwatch .read co.listen, .openFd fd .connection],
          { co with acceptor := .made fd }, .running⟩
  | retryFail {r : Sys} (hrun : co.running = .acceptor) (hpc : co.acceptor = .retry) :
      StepCase w co (.sys r)
        ⟨[.unwatch .read co.listen], { co with acceptor := .made (-1) }, .running⟩
  | made {fd : Fd} {p : Addr} {ok : Bool} (hrun : co.running = .acceptor)
      (hpc : co.acceptor = .made fd) :
      StepCase w co (.object p ok)
        ⟨[.create p fd, .attach p ok],
          { co.setSession co.nextFrame (some (.start co.nextFrame p)) with
            acceptor := .call
            nextFrame := co.nextFrame + 1
            running := .session co.nextFrame true }, .running⟩
  | session {sid : ℕ} {via : Bool} {s : Session} {c : Choice} {act : Act} {pr : Procs}
      (hrun : co.running = .session sid via) (hs : co.sessions sid = some s)
      (hact : Session.StepCase w sid co.nextFrame s c act)
      (hpr : co.procs.apply s w.table act.effect = some pr) :
      StepCase w co c ⟨act.calls, { co.settle sid via act.after with procs := pr },
        status via act.after⟩

variable {w : World Handle} {co co' : Coros}

/-- Every step is one of the cases. -/
theorem step_cases {c : Choice} {m : Move Handle Coros} (h : co.step c w = some m) :
    StepCase w co c m := by
  unfold Coros.step at h
  split at h
  · cases h
  · rename_i hrun
    unfold acceptStep at h
    split at h
    · rename_i hpc
      split_ifs at h with hb
      · cases h
        subst hb
        exact .boot hrun hpc
      · cases h
        rw [Bool.not_eq_true] at hb
        subst hb
        exact .bootFail hrun hpc
    · rename_i hpc; cases h; exact .acceptOk hrun hpc
    · rename_i hpc; cases h; exact .acceptBlock hrun hpc
    · rename_i hpc; cases h; exact .acceptFail hrun hpc
    · rename_i hpc; cases h; exact .retryOk hrun hpc
    · rename_i hpc; cases h; exact .retryFail hrun hpc
    · rename_i hpc; cases h; exact .made hrun hpc
    · cases h
  · rename_i sid via hrun
    unfold sessionStep at h
    obtain ⟨s, hs, h⟩ := Option.bind_eq_some_iff.1 h
    obtain ⟨act, hact, h⟩ := Option.bind_eq_some_iff.1 h
    obtain ⟨pr, hpr, rfl⟩ := Option.map_eq_some_iff.1 h
    exact .session hrun hs (Session.step_cases hact) hpr

/-- What a resumption does. -/
theorem resume_cases {h : Handle} (hr : co.resume h = some co') :
    (∃ n, h = .accept n ∧ co.acceptor = .susp n ∧
      co' = { co with acceptor := .retry, running := .acceptor }) ∨
    (∃ sid s o, h = .echo sid s.frame ∧ co.sessions sid = some s ∧ s.pc = .susp o ∧
      co' = { co.setSession sid (some { s with pc := .retry o }) with
        running := .session sid false }) := by
  cases h with
  | accept n =>
    simp only [resume] at hr
    split_ifs at hr with hn
    exact Or.inl ⟨n, rfl, hn, (Option.some.inj hr).symm⟩
  | echo sid frame =>
    obtain ⟨s, hs, hr'⟩ := Option.bind_eq_some_iff.1 hr
    split at hr'
    · rename_i o hpc
      split_ifs at hr' with hf
      subst hf
      exact Or.inr ⟨sid, s, o, rfl, hs, hpc, (Option.some.inj hr').symm⟩
    · cases hr'

/-- A session after a resumption: it is as before, or it is about to retry its operation. -/
theorem resume_sessions {h : Handle} (hr : co.resume h = some co') {sid : ℕ} {t : Session}
    (ht : co'.sessions sid = some t) :
    co.sessions sid = some t ∨
      ∃ s o, co.sessions sid = some s ∧ s.pc = .susp o ∧ t = { s with pc := .retry o } := by
  rcases resume_cases hr with ⟨n, -, -, rfl⟩ | ⟨sid', s, o, -, hs, hpc, rfl⟩
  · exact Or.inl ht
  · simp only [setSession, Function.update_apply] at ht
    split_ifs at ht with e
    · subst e
      exact Or.inr ⟨s, o, hs, hpc, (Option.some.inj ht).symm⟩
    · exact Or.inl ht

theorem env_cases {c : Choice} (h : co.env c = some co') :
    ∃ pid pr, c = .child pid ∧ co.procs.childStep pid = some pr ∧
      co' = { co with procs := pr } := by
  cases c with
  | child pid =>
    obtain ⟨pr, hpr, rfl⟩ := Option.map_eq_some_iff.1 h
    exact ⟨pid, pr, rfl, hpr, rfl⟩
  | _ => cases h

end Coros

/-- What is left of the session `s` after a step. -/
def After.next (s : Session) : After → Option Session
  | .running s' | .again s' | .suspended s' => some s'
  | .ended => none
  | .exited => some s

theorem Coros.settle_sessions {co : Coros} {sid : ℕ} {s : Session} (hs : co.sessions sid = some s)
    (via : Bool) (after : After) :
    (co.settle sid via after).sessions = Function.update co.sessions sid (after.next s) := by
  cases after with
  | exited => rw [After.next, ← hs, Function.update_eq_self]; rfl
  | _ => rfl

@[simp] theorem Coros.settle_acceptor (co : Coros) (sid : ℕ) (via : Bool) (after : After) :
    (co.settle sid via after).acceptor = co.acceptor := by
  cases after <;> rfl

@[simp] theorem Coros.settle_listen (co : Coros) (sid : ℕ) (via : Bool) (after : After) :
    (co.settle sid via after).listen = co.listen := by
  cases after <;> rfl

end EpollCoroutine
