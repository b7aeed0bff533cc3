import EpollCoroutine.Server.Factory
import EpollCoroutine.Server.Objects

/-!
# The construction of a `PipedAsyncCommand`, call by call

A session makes the calls of `PipedAsyncCommand::factory` one at a time, and other processes may run
in between. Here the two descriptions are put together.

* `Session.runs`: the steps of a session along a list of choices.
* `Outcomes.choices`: the choices that give the calls of `factory` their outcomes.
* `session_factory`: along these choices a session does to the world what `factory` does, and goes
  on as `echo_loop` does after it.
* `sound_reach`: the states of the server are such that `factory_restores_iff` applies.
-/

namespace EpollCoroutine

/-- The steps of a session along a list of choices, while it neither suspends nor ends. -/
def Session.runs (sid fresh : ℕ) : List Choice → World Handle → Session →
    Option (World Handle × Session)
  | [], w, s => some (w, s)
  | c :: cs, w, s =>
    match s.step w sid fresh c with
    | some ⟨calls, _, .running s'⟩ => (Call.applyAll calls w).bind fun w' => runs sid fresh cs w' s'
    | _ => none

/-- The step that destroys the object of a pointer, if it has one. -/
def goes : Option Addr → List Choice
  | none => []
  | some _ => [.go]

/-- The destruction of a `PipedAsyncCommand`. -/
def PipedAsyncCommand.choices (c : PipedAsyncCommand) : List Choice :=
  goes c.asyncReadEndFd ++ (goes c.asyncProcessWaitFd ++ (goes c.asyncWriteEndFd ++ [.go]))

/-- The objects of a `PipedAsyncCommand`. -/
def PipedAsyncCommand.objects (c : PipedAsyncCommand) : List Addr :=
  c.asyncReadEndFd.toList ++ (c.asyncProcessWaitFd.toList ++ c.asyncWriteEndFd.toList)

namespace Outcomes

variable (o : Outcomes)

/-- The choices after `fork` has succeeded. -/
def processChoices : List Choice :=
  match o.pidfdOpen with
  | none => .failed :: PipedAsyncCommand.choices ⟨some o.readEnd, some o.writeEnd, none⟩
  | some fd => .opened fd :: .object o.processWait o.addProcess ::
      if o.addProcess then [.go]
      else PipedAsyncCommand.choices ⟨some o.readEnd, some o.writeEnd, some o.processWait⟩

/-- The choices after both calls of `pipe`. -/
def endsChoices : List Choice :=
  .object o.readEnd o.addRead ::
    if o.addRead then
      .object o.writeEnd o.addWrite ::
        match o.fork with
        | none => .failed :: PipedAsyncCommand.choices ⟨some o.readEnd, some o.writeEnd, none⟩
        | some pid => .forked pid :: o.processChoices
    else PipedAsyncCommand.choices ⟨some o.readEnd, none, none⟩

/-- The choices of a construction. -/
def choices : List Choice :=
  match o.pipeW with
  | none => [.failed]
  | some mFdW => .pipe mFdW.1 mFdW.2 ::
      match o.pipeR with
      | none => [.failed]
      | some mFdR => .pipe mFdR.1 mFdR.2 :: o.endsChoices

end Outcomes

/-- Where `echo_loop` goes on after `factory`. -/
def InitResult.pc : InitResult → Pc
  | .success => .call .writepipe
  | .error => .done false
  | .thrown => .done true

/-- Along `cs` the session comes to the world that `x` leaves. -/
def Session.Reaches (sid fresh : ℕ) (cs : List Choice) (w : World Handle) (s : Session)
    (x : World Handle × PipedAsyncCommand × InitResult) : Prop :=
  ∃ s', s.runs sid fresh cs w = some ((discard x).1, s') ∧ s'.pc = x.2.2.pc

section Runs

variable {sid fresh : ℕ} {w w' : World Handle} {s s' : Session} {c : Choice} {cs : List Choice}
  {calls : List (Call Handle)} {e : Effect}

theorem Session.runs_cons (hstep : s.step w sid fresh c = some ⟨calls, e, .running s'⟩)
    (hcalls : Call.applyAll calls w = some w') :
    s.runs sid fresh (c :: cs) w = s'.runs sid fresh cs w' := by
  rw [Session.runs, hstep]
  simp [hcalls]

theorem Session.Reaches.cons {x : World Handle × PipedAsyncCommand × InitResult}
    (hstep : s.step w sid fresh c = some ⟨calls, e, .running s'⟩)
    (hcalls : Call.applyAll calls w = some w') (h : s'.Reaches sid fresh cs w' x) :
    s.Reaches sid fresh (c :: cs) w x := by
  obtain ⟨t, hrun, hpc⟩ := h
  exact ⟨t, by rw [Session.runs_cons hstep hcalls, hrun], hpc⟩

/-! ### The destruction -/

/-- One pointer of the destructor. -/
theorem Session.runs_goes {t : Bool} {r : Role} (hpc : s.pc = .cleanup t) (ptr : Option Addr)
    (hptr : s.ptr r = ptr) (hlive : ∀ p, ptr = some p → (w.heap p).isSome)
    (hturn : ∀ p, s.ptr r = some p →
      s.cleanup t = ⟨[.destroy p], .none, .running (s.setPtr r none)⟩) :
    s.runs sid fresh (goes ptr ++ cs) w = (s.setPtr r none).runs sid fresh cs
      (w.destroyPtr ptr) := by
  cases ptr with
  | none =>
    have hsame : s.setPtr r none = s := by
      rw [Session.setPtr, ← hptr, Function.update_eq_self]
    rw [hsame]
    rfl
  | some p =>
    have hstep : s.step w sid fresh .go =
        some ⟨[.destroy p], .none, .running (s.setPtr r none)⟩ := by
      unfold Session.step
      rw [hpc]
      exact congrArg some (hturn p hptr)
    refine Session.runs_cons hstep ?_
    simp [Call.applyAll_cons, Call.enabled, hlive p rfl, Call.apply, World.destroyPtr]

theorem Session.cleanup_readEnd {t : Bool} {p : Addr} (h : s.ptr .readEnd = some p) :
    s.cleanup t = ⟨[.destroy p], .none, .running (s.setPtr .readEnd none)⟩ := by
  simp [Session.cleanup, h]

theorem Session.cleanup_processWait {t : Bool} {p : Addr} (hread : s.ptr .readEnd = none)
    (h : s.ptr .processWait = some p) :
    s.cleanup t = ⟨[.destroy p], .none, .running (s.setPtr .processWait none)⟩ := by
  simp [Session.cleanup, hread, h]

theorem Session.cleanup_writeEnd {t : Bool} {p : Addr} (hread : s.ptr .readEnd = none)
    (hproc : s.ptr .processWait = none) (h : s.ptr .writeEnd = some p) :
    s.cleanup t = ⟨[.destroy p], .none, .running (s.setPtr .writeEnd none)⟩ := by
  simp [Session.cleanup, hread, hproc, h]

/-- The whole destructor. -/
theorem Session.runs_destroy {t : Bool} {cmd : PipedAsyncCommand} (hpc : s.pc = .cleanup t)
    (hread : s.ptr .readEnd = cmd.asyncReadEndFd)
    (hproc : s.ptr .processWait = cmd.asyncProcessWaitFd)
    (hwrite : s.ptr .writeEnd = cmd.asyncWriteEndFd)
    (hlive : ∀ p ∈ cmd.objects, (w.heap p).isSome) (hnd : cmd.objects.Nodup) :
    ∃ s', s.runs sid fresh cmd.choices w = some (cmd.destroy w, s') ∧ s'.pc = .done t := by
  obtain ⟨rd, wr, pw⟩ := cmd
  simp only [PipedAsyncCommand.objects] at hlive hnd
  simp only at hread hproc hwrite
  obtain ⟨-, hnd', hrest⟩ := List.nodup_append.1 hnd
  obtain ⟨-, -, hrest'⟩ := List.nodup_append.1 hnd'
  -- an object is still there when its turn comes
  have hkeep : ∀ {v : World Handle} {ptr : Option Addr} {p : Addr}, (v.heap p).isSome →
      (∀ q ∈ ptr.toList, q ≠ p) → ((v.destroyPtr ptr).heap p).isSome := by
    intro v ptr p hp hne
    cases ptr with
    | none => exact hp
    | some q =>
      rw [World.destroyPtr, World.destroy_heap, if_neg (Ne.symm (hne q (by simp)))]
      exact hp
  let s₁ := s.setPtr .readEnd none
  let s₂ := s₁.setPtr .processWait none
  let s₃ := s₂.setPtr .writeEnd none
  have h₁ : s.runs sid fresh (goes rd ++ (goes pw ++ (goes wr ++ [.go]))) w =
      s₁.runs sid fresh (goes pw ++ (goes wr ++ [.go])) (w.destroyPtr rd) :=
    Session.runs_goes hpc rd hread (fun p e => hlive p (by simp [e]))
      (fun p e => Session.cleanup_readEnd e)
  have h₂ : s₁.runs sid fresh (goes pw ++ (goes wr ++ [.go])) (w.destroyPtr rd) =
      s₂.runs sid fresh (goes wr ++ [.go]) ((w.destroyPtr rd).destroyPtr pw) :=
    Session.runs_goes (s := s₁) hpc pw (by simpa [s₁, Session.setPtr] using hproc)
      (fun p e => hkeep (hlive p (by simp [e])) fun q hq => hrest q hq p (by simp [e]))
      (fun p e => Session.cleanup_processWait rfl e)
  have h₃ : s₂.runs sid fresh (goes wr ++ [.go]) ((w.destroyPtr rd).destroyPtr pw) =
      s₃.runs sid fresh [.go] (((w.destroyPtr rd).destroyPtr pw).destroyPtr wr) :=
    Session.runs_goes (s := s₂) hpc wr (by simpa [s₁, s₂, Session.setPtr] using hwrite)
      (fun p e => hkeep (hkeep (hlive p (by simp [e])) fun q hq => hrest q hq p (by simp [e]))
        fun q hq => hrest' q hq p (by simp [e]))
      (fun p e => Session.cleanup_writeEnd rfl rfl e)
  have h₄ : s₃.step (((w.destroyPtr rd).destroyPtr pw).destroyPtr wr) sid fresh .go =
      some ⟨[], .none, .running { s₃ with pc := .done t }⟩ := by
    have hpc₃ : s₃.pc = .cleanup t := hpc
    unfold Session.step
    rw [hpc₃]
    simp [Session.cleanup, s₁, s₂, s₃, Session.setPtr]
  refine ⟨{ s₃ with pc := .done t }, ?_, rfl⟩
  rw [PipedAsyncCommand.choices, h₁, h₂, h₃, Session.runs_cons h₄ rfl]
  rfl

/-- A failed construction: the object is destroyed, and `echo_loop` ends. -/
theorem Session.Reaches.of_cleanup {t : Bool} {cmd : PipedAsyncCommand} {r : InitResult}
    (hpc : s.pc = .cleanup t) (hr : r = if t then .thrown else .error)
    (hread : s.ptr .readEnd = cmd.asyncReadEndFd)
    (hproc : s.ptr .processWait = cmd.asyncProcessWaitFd)
    (hwrite : s.ptr .writeEnd = cmd.asyncWriteEndFd)
    (hlive : ∀ p ∈ cmd.objects, (w.heap p).isSome) (hnd : cmd.objects.Nodup) :
    s.Reaches sid fresh cmd.choices w (w, cmd, r) := by
  obtain ⟨s', hrun, hpc'⟩ := Session.runs_destroy hpc hread hproc hwrite hlive hnd
  subst hr
  refine ⟨s', ?_, ?_⟩
  · rw [hrun]
    cases t <;> rfl
  · rw [hpc']
    cases t <;> rfl

end Runs

/-! ### The construction -/

section Construction

variable {sid fresh : ℕ} {w v : World Handle} {o : Outcomes} {W R : Fd × Fd} {s : Session}

theorem World.Holds.applyAll_pipe {l : Set Fd} {objs : Set (Addr × Fd)} (h : w.Holds v l objs)
    (n : ℕ) (h1 : W.1 ∉ l) (h2 : W.2 ∉ insert W.1 l) (hW1 : 0 ≤ W.1 ∧ w.table W.1 = none)
    (hW2 : 0 ≤ W.2 ∧ w.table W.2 = none) :
    Call.applyAll [.openFd W.1 (.pipeEnd n .read), .openFd W.2 (.pipeEnd n .write)] v =
      some (v.openPipe n W) := by
  have ht1 : v.table W.1 = none := by rw [h.table _ h1, hW1.2]
  have ht2 : (v.openFd W.1 (.pipeEnd n .read)).table W.2 = none := by
    rw [(h.openFd h1 hW1 _).table _ h2, hW2.2]
  simp [Call.applyAll_cons, Call.enabled, Call.apply, ht1, ht2, hW1.1, hW2.1, World.openPipe]

theorem applyAll_attachReadonly {p : Addr} (hp : v.heap p = none) (fd : Fd) (ok : Bool) :
    Call.applyAll [.create p fd, .attachReadonly p ok] v =
      some ((v.create p fd).attachReadonly p ok) := by
  simp [Call.applyAll_cons, Call.enabled, Call.apply, hp, World.create]

theorem applyAll_attachWriteOnly {p : Addr} (hp : v.heap p = none) (fd : Fd) (ok : Bool) :
    Call.applyAll [.create p fd, .attachWriteOnly p ok] v =
      some ((v.create p fd).attachWriteOnly p ok) := by
  simp [Call.applyAll_cons, Call.enabled, Call.apply, hp, World.create]

/-- The pointers of the session are those of the object under construction. -/
structure Session.Builds (s : Session) (W R : Fd × Fd) (cmd : PipedAsyncCommand) : Prop where
  mFdW : s.mFdW = W
  mFdR : s.mFdR = R
  read : s.ptr .readEnd = cmd.asyncReadEndFd
  process : s.ptr .processWait = cmd.asyncProcessWaitFd
  write : s.ptr .writeEnd = cmd.asyncWriteEndFd

theorem Session.Builds.cleanup {t : Bool} {cmd : PipedAsyncCommand} {r : InitResult}
    (h : s.Builds W R cmd) (hpc : s.pc = .cleanup t) (hr : r = if t then .thrown else .error)
    (hlive : ∀ p ∈ cmd.objects, (v.heap p).isSome) (hnd : cmd.objects.Nodup) :
    s.Reaches sid fresh cmd.choices v (v, cmd, r) :=
  Session.Reaches.of_cleanup hpc hr h.read h.process h.write hlive hnd

theorem World.Holds.isSome {l : Set Fd} {objs : Set (Addr × Fd)} (h : w.Holds v l objs) {p : Addr}
    {fd : Fd} (hp : (p, fd) ∈ objs) : (v.heap p).isSome := by
  obtain ⟨-, -, a, ha, -⟩ := h.object p fd hp
  rw [ha]
  rfl

/-- The last step of a construction that succeeds. -/
theorem closeEnds_reaches (hpc : s.pc = .closeEnds) (hW : s.mFdW = W) (hR : s.mFdR = R)
    (cmd : PipedAsyncCommand) :
    s.Reaches sid fresh [.go] v ((v.closeFd W.1).closeFd R.2, cmd, .success) := by
  have hstep : s.step v sid fresh .go = some ⟨[.closeFd W.1, .closeFd R.2], .none,
      .running { s with pc := .call .writepipe }⟩ := by
    unfold Session.step
    rw [hpc, hW, hR]
  exact Session.Reaches.cons hstep rfl ⟨_, rfl, rfl⟩

/-- From the return of `pidfd_open` on. -/
theorem pidfd_reaches {l : Set Fd} {objs : Set (Addr × Fd)} {fd : Fd} (hs : w.Sound)
    (hv : w.Holds v l objs) (hfree : w.heap o.processWait = none)
    (hnew : ∀ x, (o.processWait, x) ∉ objs) (hfd : fd ∈ l) (hobj : ∀ q, (q, fd) ∉ objs)
    (hrw : o.readEnd ≠ o.writeEnd) (hrp : o.readEnd ≠ o.processWait)
    (hwp : o.writeEnd ≠ o.processWait)
    (hread : ∃ x, (o.readEnd, x) ∈ objs) (hwrite : ∃ x, (o.writeEnd, x) ∈ objs)
    (hpc : s.pc = .attachPw fd) (h : s.Builds W R ⟨some o.readEnd, some o.writeEnd, none⟩) :
    s.Reaches sid fresh (.object o.processWait o.addProcess :: if o.addProcess then [.go]
        else PipedAsyncCommand.choices ⟨some o.readEnd, some o.writeEnd, some o.processWait⟩) v
      (if o.addProcess then
        ((((v.create o.processWait fd).attachReadonly o.processWait o.addProcess).closeFd
          W.1).closeFd R.2, ⟨some o.readEnd, some o.writeEnd, some o.processWait⟩, .success)
      else ((v.create o.processWait fd).attachReadonly o.processWait o.addProcess,
        ⟨some o.readEnd, some o.writeEnd, some o.processWait⟩, .thrown)) := by
  obtain ⟨-, hv'⟩ := hv.attachReadonly hs hfree hnew hfd hobj o.addProcess
  have hstep : s.step v sid fresh (.object o.processWait o.addProcess) =
      some ⟨[.create o.processWait fd, .attachReadonly o.processWait o.addProcess], .none,
        .running { s.setPtr .processWait (some o.processWait) with
          pc := if o.addProcess then .closeEnds else .cleanup true }⟩ := by
    unfold Session.step
    rw [hpc]
    dsimp only
    rw [hv.addSucceeds hs hfd hobj]
  refine Session.Reaches.cons hstep (applyAll_attachReadonly (hv.free hfree hnew) fd _) ?_
  cases hproc : o.addProcess with
  | true =>
    exact closeEnds_reaches
      (s := { s.setPtr .processWait (some o.processWait) with pc := .closeEnds })
      rfl h.mFdW h.mFdR _
  | false =>
    rw [hproc] at hv'
    refine Session.Builds.cleanup ⟨h.mFdW, h.mFdR, ?_, ?_, ?_⟩ rfl rfl ?_ ?_
    · simp [Session.setPtr, h.read]
    · simp [Session.setPtr]
    · simp [Session.setPtr, h.write]
    · obtain ⟨x, hx⟩ := hread
      obtain ⟨y, hy⟩ := hwrite
      have hp := hv'.isSome (Set.mem_insert (o.processWait, fd) objs)
      have hr := hv'.isSome (Set.mem_insert_of_mem _ hx)
      have hw := hv'.isSome (Set.mem_insert_of_mem _ hy)
      simp [PipedAsyncCommand.objects, hp, hw, hr]
    · simp [PipedAsyncCommand.objects, hrw, hrp, Ne.symm hwp]

/-- From the call of `pidfd_open` on. -/
theorem process_reaches {v₀ : World Handle} {pid : Pid} (hb : BothPipes w o W R v₀) (hs : w.Sound)
    (hv : w.Holds v {R.2, R.1, W.2, W.1} {(o.writeEnd, W.2), (o.readEnd, R.1)})
    (hpc : s.pc = .pidfdOpen) (hpid : s.forkedProcesId = pid)
    (h : s.Builds W R ⟨some o.readEnd, some o.writeEnd, none⟩) :
    s.Reaches sid fresh o.processChoices v (initProcess o W R pid v) := by
  have hrw := hb.read_ne_write
  have hrp := hb.read_ne_process
  have hwp := hb.write_ne_process
  cases hpidfd : o.pidfdOpen with
  | none =>
    have hstep : s.step v sid fresh .failed =
        some ⟨[], .none, .running { s with pc := .cleanup false }⟩ := by
      unfold Session.step
      rw [hpc]
    simp only [Outcomes.processChoices, initProcess, hpidfd]
    refine Session.Reaches.cons hstep rfl (Session.Builds.cleanup
      ⟨h.mFdW, h.mFdR, h.read, h.process, h.write⟩ rfl rfl ?_ ?_)
    · have hw := hv.isSome (by simp : (o.writeEnd, W.2) ∈ _)
      have hr := hv.isSome (by simp : (o.readEnd, R.1) ∈ _)
      simp [PipedAsyncCommand.objects, hw, hr]
    · simp [PipedAsyncCommand.objects, hrw]
  | some fd =>
    obtain ⟨⟨hap, hbp, hcp, hdp⟩, hfd⟩ := hb.pidfd fd hpidfd
    have hl : fd ∉ ({R.2, R.1, W.2, W.1} : Set Fd) := by
      simp [Ne.symm hap, Ne.symm hbp, Ne.symm hcp, Ne.symm hdp]
    have h₁ := hv.openFd hl hfd (.pidfd pid)
    have hnew : ∀ x, (o.processWait, x) ∉
        ({(o.writeEnd, W.2), (o.readEnd, R.1)} : Set (Addr × Fd)) := by
      simp [Ne.symm hrp, Ne.symm hwp]
    have hobj : ∀ q, (q, fd) ∉ ({(o.writeEnd, W.2), (o.readEnd, R.1)} : Set (Addr × Fd)) := by
      simp [Ne.symm hbp, Ne.symm hcp]
    have hstep : s.step v sid fresh (.opened fd) =
        some ⟨[.openFd fd (.pidfd pid)], .none, .running { s with pc := .attachPw fd }⟩ := by
      unfold Session.step
      rw [hpc, hpid]
    have hcalls : Call.applyAll [.openFd fd (.pidfd pid)] v = some (v.openFd fd (.pidfd pid)) := by
      have ht : v.table fd = none := by rw [hv.table _ hl, hfd.2]
      simp [Call.applyAll_cons, Call.enabled, Call.apply, ht, hfd.1]
    obtain ⟨hret, -⟩ := h₁.attachReadonly hs hb.process_free hnew
      (Set.mem_insert _ _) hobj o.addProcess
    simp only [Outcomes.processChoices, initProcess, hpidfd, hret]
    exact Session.Reaches.cons hstep hcalls (pidfd_reaches hs h₁ hb.process_free hnew
      (Set.mem_insert _ _) hobj hrw hrp hwp ⟨R.1, by simp⟩ ⟨W.2, by simp⟩ rfl
      ⟨h.mFdW, h.mFdR, h.read, h.process, h.write⟩)

/-- From `fork` on. -/
theorem fork_reaches {v₀ : World Handle} (hb : BothPipes w o W R v₀) (hs : w.Sound)
    (hv : w.Holds v {R.2, R.1, W.2, W.1} {(o.writeEnd, W.2), (o.readEnd, R.1)})
    (hpc : s.pc = .fork) (h : s.Builds W R ⟨some o.readEnd, some o.writeEnd, none⟩) :
    s.Reaches sid fresh
      (match o.fork with
        | none => .failed :: PipedAsyncCommand.choices ⟨some o.readEnd, some o.writeEnd, none⟩
        | some pid => .forked pid :: o.processChoices) v
      (match o.fork with
        | none => ((((v.closeFd W.1).closeFd R.2).destroy o.readEnd).destroy o.writeEnd, {}, .error)
        | some pid => initProcess o W R pid v) := by
  cases o.fork with
  | none =>
    have hstep : s.step v sid fresh .failed = some ⟨[.closeFd W.1, .closeFd R.2], .none,
        .running { s with pc := .cleanup false }⟩ := by
      unfold Session.step
      rw [hpc, h.mFdW, h.mFdR]
    have hclean : ({ s with pc := .cleanup false } : Session).Reaches sid fresh
        (PipedAsyncCommand.choices ⟨some o.readEnd, some o.writeEnd, none⟩)
        ((v.closeFd W.1).closeFd R.2)
        ((v.closeFd W.1).closeFd R.2, ⟨some o.readEnd, some o.writeEnd, none⟩, .error) := by
      refine Session.Builds.cleanup ⟨h.mFdW, h.mFdR, h.read, h.process, h.write⟩ rfl rfl ?_ ?_
      · have hw := hv.isSome (by simp : (o.writeEnd, W.2) ∈ _)
        have hr := hv.isSome (by simp : (o.readEnd, R.1) ∈ _)
        simp [PipedAsyncCommand.objects, World.closeFd, hw, hr]
      · simp [PipedAsyncCommand.objects, hb.read_ne_write]
    -- `init` has reset both pointers itself: the same two objects are destroyed, in the same order
    exact Session.Reaches.cons hstep rfl hclean
  | some pid =>
    have hstep : s.step v sid fresh (.forked pid) = some ⟨[], .forked pid,
        .running { s with forkedProcesId := pid, pc := .pidfdOpen }⟩ := by
      unfold Session.step
      rw [hpc]
    exact Session.Reaches.cons hstep rfl (process_reaches hb hs hv rfl rfl
      ⟨h.mFdW, h.mFdR, h.read, h.process, h.write⟩)

/-- From the construction of the first object on. -/
theorem ends_reaches (hb : BothPipes w o W R v) (hs : w.Sound) (hpc : s.pc = .attachRd)
    (h : s.Builds W R {}) : s.Reaches sid fresh o.endsChoices v (initEnds o W R v) := by
  have hmem : R.1 ∈ ({R.2, R.1, W.2, W.1} : Set Fd) := by simp
  have hmem' : W.2 ∈ ({R.2, R.1, W.2, W.1} : Set Fd) := by simp
  have hobj : ∀ q, (q, R.1) ∉ (∅ : Set (Addr × Fd)) := fun _ => Set.notMem_empty _
  obtain ⟨hret, hv⟩ := hb.holds.attachReadonly hs hb.read_free (fun _ => Set.notMem_empty _) hmem
    hobj o.addRead
  have hstep : s.step v sid fresh (.object o.readEnd o.addRead) =
      some ⟨[.create o.readEnd R.1, .attachReadonly o.readEnd o.addRead], .none,
        .running { s.setPtr .readEnd (some o.readEnd) with
          pc := if o.addRead then .attachWr else .cleanup true }⟩ := by
    unfold Session.step
    rw [hpc]
    dsimp only
    rw [h.mFdR, hb.holds.addSucceeds hs hmem hobj]
  have hcalls := applyAll_attachReadonly (v := v) (hb.holds.free hb.read_free
    fun _ => Set.notMem_empty _) R.1 o.addRead
  simp only [Outcomes.endsChoices, initEnds, hret]
  refine Session.Reaches.cons hstep hcalls ?_
  cases hadd : o.addRead with
  | false =>
    rw [hadd] at hv
    refine Session.Builds.cleanup ⟨h.mFdW, h.mFdR, ?_, ?_, ?_⟩ rfl rfl ?_ ?_
    · simp [Session.setPtr]
    · simp [Session.setPtr, h.process]
    · simp [Session.setPtr, h.write]
    · have hr := hv.isSome (Set.mem_insert (o.readEnd, R.1) ∅)
      simp [PipedAsyncCommand.objects, hr]
    · simp [PipedAsyncCommand.objects]
  | true =>
    rw [hadd] at hv
    have hnew : ∀ x, (o.writeEnd, x) ∉ insert (o.readEnd, R.1) (∅ : Set (Addr × Fd)) := by
      simp [Ne.symm hb.read_ne_write]
    obtain ⟨-, -, -, hbc, -⟩ := hb.ends
    have hv' := hv.attachWriteOnly hb.write_free hnew hmem' (by simp [hbc]) o.addWrite
    have hstep' : ({ s.setPtr .readEnd (some o.readEnd) with pc := .attachWr } : Session).step
        ((v.create o.readEnd R.1).attachReadonly o.readEnd true) sid fresh
        (.object o.writeEnd o.addWrite) =
        some ⟨[.create o.writeEnd W.2, .attachWriteOnly o.writeEnd o.addWrite], .none,
          .running { ({ s.setPtr .readEnd (some o.readEnd) with pc := .attachWr } :
            Session).setPtr .writeEnd (some o.writeEnd) with pc := .fork }⟩ := by
      unfold Session.step
      rw [← h.mFdW]
      rfl
    have hcalls' := applyAll_attachWriteOnly (hv.free hb.write_free hnew) W.2 o.addWrite
    refine Session.Reaches.cons hstep' hcalls' ?_
    refine fork_reaches hb hs (by simpa using hv') rfl ⟨h.mFdW, h.mFdR, ?_, ?_, ?_⟩
    · simp [Session.setPtr]
    · simp [Session.setPtr, h.process]
    · simp [Session.setPtr]

/-- From the first `pipe` on. -/
theorem pipes_reaches (hs : w.Sound) (ho : o.Possible w) (hpc : s.pc = .pipeW)
    (hptr : ∀ r, r ≠ .socket → s.ptr r = none) :
    s.Reaches sid fresh o.choices w (init s.frame o w) := by
  cases hW : o.pipeW with
  | none =>
    have hstep : s.step w sid fresh .failed =
        some ⟨[], .none, .running { s with pc := .done false }⟩ := by
      unfold Session.step
      rw [hpc]
    simp only [Outcomes.choices, init, hW]
    exact Session.Reaches.cons hstep rfl ⟨_, rfl, rfl⟩
  | some W =>
    obtain ⟨hab, hW1, hW2⟩ := ho.first hW
    have hstep : s.step w sid fresh (.pipe W.1 W.2) =
        some ⟨[.openFd W.1 (.pipeEnd (wPipe s.frame) .read),
          .openFd W.2 (.pipeEnd (wPipe s.frame) .write)], .none,
          .running { s with mFdW := W, pc := .pipeR }⟩ := by
      unfold Session.step
      rw [hpc]
    have hl : W.2 ∉ insert W.1 (∅ : Set Fd) := by simpa using Ne.symm hab
    have hcalls := (World.Holds.refl w).applyAll_pipe (wPipe s.frame)
      (Set.notMem_empty _) hl hW1 hW2
    have hv := (World.Holds.refl w).openPipe (wPipe s.frame) (Set.notMem_empty _) hl hW1 hW2
    cases hR : o.pipeR with
    | none =>
      simp only [Outcomes.choices, init, hW, hR]
      exact Session.Reaches.cons hstep hcalls (Session.Reaches.cons rfl rfl ⟨_, rfl, rfl⟩)
    | some R =>
      have hb := ho.bothPipes hW hR s.frame
      obtain ⟨-, hac, had, hbc, hbd, hcd⟩ := hb.ends
      have hstep' : ({ s with mFdW := W, pc := .pipeR } : Session).step
          (w.openPipe (wPipe s.frame) W) sid fresh (.pipe R.1 R.2) =
          some ⟨[.openFd R.1 (.pipeEnd (rPipe s.frame) .read),
            .openFd R.2 (.pipeEnd (rPipe s.frame) .write)], .none,
            .running { s with mFdW := W, mFdR := R, pc := .attachRd }⟩ := rfl
      have hcalls' := hv.applyAll_pipe (W := R) (rPipe s.frame)
        (by simp [Ne.symm hac, Ne.symm hbc]) (by simp [Ne.symm had, Ne.symm hbd, Ne.symm hcd])
        (ho.free _ (by simp [Outcomes.fds, hW, hR])) (ho.free _ (by simp [Outcomes.fds, hW, hR]))
      simp only [Outcomes.choices, init, hW, hR]
      exact Session.Reaches.cons hstep hcalls (Session.Reaches.cons hstep' hcalls'
        (ends_reaches hb hs rfl ⟨rfl, rfl, hptr _ (by decide), hptr _ (by decide),
          hptr _ (by decide)⟩))

/-- **A session constructs its `PipedAsyncCommand` as `factory` does.** -/
theorem session_factory (hs : w.Sound) (ho : o.Possible w) (hpc : s.pc = .pipeW)
    (hptr : ∀ r, r ≠ .socket → s.ptr r = none) :
    ∃ s', s.runs sid fresh o.choices w = some ((factory s.frame o w).1, s') ∧
      s'.pc = (factory s.frame o w).2.2.pc := by
  have hreach : s.Reaches sid fresh o.choices w (init s.frame o w) :=
    pipes_reaches hs ho hpc hptr
  obtain ⟨s', hrun, hpc'⟩ := hreach
  refine ⟨s', hrun, ?_⟩
  rw [hpc', factory, discard]
  split_ifs <;> rfl

end Construction

/-- The states of the server satisfy what `factory_restores_iff` asks of them. -/
theorem sound_reach {S : State} (h : Lts.Reach State.step (fun _ _ => True) State.start S) :
    S.w.Sound :=
  ⟨(objectsOk_reach h).kernel, (objectsOk_reach h).owned.managed_live, fun p hp =>
    (objectsOk_reach h).owned.managed_live p ((objectsOk_reach h).owned.processed_managed p hp)⟩

end EpollCoroutine
