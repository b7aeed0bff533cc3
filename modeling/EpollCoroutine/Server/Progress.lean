import EpollCoroutine.Server.Resumes
import EpollCoroutine.Server.Pipes

/-!
# The server is never stuck

A step of the model that would use a destroyed or a null object, or resume a handle that is not
suspended, is not possible, and a run is cut there. This module shows that, as long as the defects
of the two resumption loops are not met, no run is cut: whatever the system calls answer, the next
step is possible.

* `Pc.needs`, `Session.Equipped`: the objects that a session has at each place.
* `Coros.Active`: a coroutine that has the thread is not suspended.
* `World.Bounded`: finitely many objects and descriptors exist, so there is room for others.
* `State.Offers`: what the environment may answer to the running coroutine.
* `never_stuck`: the theorem.
-/

namespace EpollCoroutine

/-! ### The objects of a session -/

/-- The objects that a session has at `pc`, while its `PipedAsyncCommand` is not destroyed. -/
def Pc.needs : Pc → Role → Bool
  | .cleanup _, r => r = .socket
  | pc, r => pc.holds r

/-- A session has the objects that its place needs. -/
def Session.Equipped (s : Session) : Prop := ∀ r, s.pc.needs r → (s.ptr r).isSome

theorem Session.Equipped.of_le {s s' : Session} (h : s.Equipped) (hptr : s'.ptr = s.ptr)
    (hle : ∀ r, s'.pc.needs r → s.pc.needs r) : s'.Equipped := by
  intro r hr
  rw [hptr]
  exact h r (hle r hr)

theorem Session.equipped_start (frame : ℕ) (p : Addr) : (Session.start frame p).Equipped := by
  intro r hr
  cases r with
  | socket => simp [Session.start]
  | _ => cases hr

section Steps

variable {w : World Handle} {sid fresh : ℕ} {s s' : Session} {c : Choice} {act : Act}

/-- The places after an operation need no more than the operation does. -/
theorem Session.Equipped.complete (h : s.Equipped) {o : Op} (hpc : s.pc = .call o ∨ s.pc = .retry o)
    (r : Sys) (d : Bool) : (s.complete o r d).Equipped := by
  refine h.of_le (Session.complete_rest s o r d).1 fun q hq => ?_
  have hneeds : s.pc.needs q = o.holds q := by
    rcases hpc with e | e <;> rw [e] <;> rfl
  rw [hneeds]
  rcases s.complete_pc o r d with ⟨rfl, e | e⟩ | ⟨rfl, e⟩ | ⟨rfl, e | e | e⟩ | ⟨rfl, e | e⟩ |
    ⟨rfl, e⟩ <;> rw [e] at hq <;> cases q <;> first | rfl | cases hq

theorem Session.Equipped.step (h : s.Equipped) (hact : Session.StepCase w sid fresh s c act)
    (hs' : act.after.next s = some s') : s'.Equipped := by
  -- an object of the role `q` is new, or is dropped
  have hset : ∀ {t : Session} {q : Role} {p : Option Addr},
      t.ptr = Function.update s.ptr q p → (t.pc.needs q → p.isSome) →
      (∀ r, r ≠ q → t.pc.needs r → s.pc.needs r) → t.Equipped := by
    intro t q p hptr hq hle r hr
    rw [hptr, Function.update_apply]
    split_ifs with e
    · exact hq (e ▸ hr)
    · exact h r (hle r e hr)
  cases hact with
  | value hpc => cases hs'; exact h.complete (Or.inl hpc) _ _
  | retry hpc => cases hs'; exact h.complete (Or.inr hpc) _ _
  | block hpc =>
    cases hs'
    refine h.of_le rfl fun r hr => ?_
    rw [hpc]
    exact hr
  | error => cases hs'; exact h
  | pipeW hpc | pipeWFail hpc | pipeR hpc | pipeRFail hpc | fork hpc | forkFail hpc
  | pidfdOpen hpc | pidfdFail hpc | closeEnds hpc | cleaned hpc | again hpc =>
    cases hs'
    refine h.of_le rfl fun r hr => ?_
    rw [hpc]
    cases r <;> first | rfl | cases hr
  | attachRd hpc =>
    cases hs'
    refine hset (q := .readEnd) rfl (fun _ => rfl) fun r hne hr => ?_
    rw [hpc]
    dsimp only at hr
    split_ifs at hr <;> cases r <;> first | rfl | exact absurd rfl hne | cases hr
  | attachWr hpc =>
    cases hs'
    refine hset (q := .writeEnd) rfl (fun _ => rfl) fun r hne hr => ?_
    rw [hpc]
    cases r <;> first | rfl | exact absurd rfl hne | cases hr
  | attachPw hpc =>
    cases hs'
    refine hset (q := .processWait) rfl (fun _ => rfl) fun r hne hr => ?_
    rw [hpc]
    dsimp only at hr
    split_ifs at hr <;> cases r <;> first | rfl | exact absurd rfl hne
  | finishwriting hpc =>
    cases hs'
    refine hset (q := .writeEnd) rfl (by simp [Pc.needs, Pc.holds, Op.holds]) fun r hne hr => ?_
    rw [hpc]
    cases r <;> rfl
  | finishReading hpc =>
    cases hs'
    have hhead := Session.sendHead_pc
      { s.setPtr .readEnd none with vars := s.vars.stripFirstLine }
    refine hset (q := .readEnd) rfl ?_ fun r hne hr => ?_
    · rcases hhead with e | e <;> rw [e] <;> simp [Pc.needs, Pc.holds, Op.holds]
    · rw [hpc]
      rcases hhead with e | e <;> rw [e] at hr <;> cases r <;> first | rfl | cases hr
  | @cleanup t q p hpc hr hp =>
    cases hs'
    refine hset (q := q) rfl (fun hq => ?_) fun r _ hr' => hr'
    rw [Session.setPtr, hpc] at hq
    exact absurd (of_decide_eq_true hq) hr
  | close => cases hs'

end Steps

/-- All sessions have what their places need. -/
def Coros.Equipped (co : Coros) : Prop := ∀ sid s, co.sessions sid = some s → s.Equipped

theorem Coros.Equipped.update {co co' : Coros} (h : co.Equipped) {sid : ℕ} {t : Option Session}
    (hs : co'.sessions = Function.update co.sessions sid t) (ht : ∀ s, t = some s → s.Equipped) :
    co'.Equipped := by
  intro sid' s hsid'
  rw [hs, Function.update_apply] at hsid'
  split_ifs at hsid' with e
  · exact ht s hsid'
  · exact h sid' s hsid'

theorem Coros.Equipped.step {w : World Handle} {co co' : Coros} {l : Label Choice}
    (h : co.Equipped) (he : co.Evolves w co' l) : co'.Equipped := by
  cases he with
  | stays hs | child hs => exact fun sid s hsid => h sid s (hs ▸ hsid)
  | starts hs =>
    refine h.update hs ?_
    rintro s ⟨⟩
    exact Session.equipped_start _ _
  | @resumes _ sid s o hsid hpc hs =>
    refine h.update hs ?_
    rintro t ⟨⟩
    refine (h sid s hsid).of_le rfl fun r hr => ?_
    rw [hpc]
    exact hr
  | moves _ hsid hact hs => exact h.update hs fun t ht => (h _ _ hsid).step hact ht

/-! ### The running coroutine -/

/-- The coroutine that has the thread exists, and is not suspended. -/
def Coros.Active (co : Coros) : Prop :=
  match co.running with
  | .idle => False
  | .acceptor => ∀ n, co.acceptor ≠ .susp n
  | .session sid _ => ∃ s, co.sessions sid = some s ∧ ∀ o, s.pc ≠ .susp o

theorem Coros.active_resume {co co' : Coros} {x : Handle} (h : co.resume x = some co') :
    co'.Active := by
  rcases resume_cases h with ⟨n, -, -, rfl⟩ | ⟨sid, s, o, -, hs, hpc, rfl⟩
  · simp [Active]
  · simp [Active, setSession]

/-- A session that goes on is not suspended. -/
theorem Session.StepCase.awake {w : World Handle} {sid fresh : ℕ} {s s' : Session} {c : Choice}
    {act : Act} (h : Session.StepCase w sid fresh s c act)
    (ha : act.after = .running s' ∨ act.after = .again s') (o : Op) : s'.pc ≠ .susp o := by
  have hcomplete : ∀ o' r d, (s.complete o' r d).pc ≠ .susp o := by
    intro o' r d
    rcases s.complete_pc o' r d with ⟨-, e | e⟩ | ⟨-, e⟩ | ⟨-, e | e | e⟩ | ⟨-, e | e⟩ | ⟨-, e⟩ <;>
      rw [e] <;> simp
  cases h with
  | value | retry =>
    rcases ha with e | e <;> cases e
    exact hcomplete _ _ _
  | block | error | close => rcases ha with e | e <;> cases e
  | attachRd | attachPw =>
    rcases ha with e | e <;> cases e
    dsimp only
    split_ifs <;> simp
  | finishReading =>
    rcases ha with e | e <;> cases e
    rcases Session.sendHead_pc { s.setPtr .readEnd none with vars := s.vars.stripFirstLine } with
      e | e <;> rw [e] <;> simp
  | cleanup hpc =>
    rcases ha with e | e <;> cases e
    simp [Session.setPtr, hpc]
  | _ =>
    rcases ha with e | e <;> cases e
    simp

theorem Coros.active_step {w : World Handle} {co : Coros} {c : Choice} {m : Move Handle Coros}
    (h : Coros.StepCase w co c m) (hwt : Waiting co) {k : Cont}
    (hctl : m.status.control k = .coro k) : m.next.Active := by
  cases h with
  | boot hrun | acceptOk hrun | retryOk hrun | retryFail hrun => simp [Active, hrun]
  | bootFail | acceptFail => cases hctl
  | acceptBlock => cases k <;> cases hctl
  | made => simp [Active, setSession, Session.start]
  | @session sid via s _ act pr hrun hs hact hpr =>
    have hawake : ∀ s', act.after = .running s' ∨ act.after = .again s' →
        ∀ o, s'.pc ≠ .susp o := fun s' => hact.awake
    cases hafter : act.after with
    | running s' | again s' =>
      have hpc := hawake s' (by simp [hafter])
      simp only [Active, settle, setSession, hrun]
      exact ⟨s', Function.update_self _ _ _, hpc⟩
    | suspended s' | ended =>
      rw [hafter] at hctl
      cases via with
      | false => cases k <;> cases hctl
      | true =>
        have hcall := hwt.via sid hrun
        simp [Active, settle, setSession, back, hcall]
    | exited =>
      rw [hafter] at hctl
      cases hctl

/-! ### Room -/

/-- Finitely many objects and descriptors exist. -/
structure World.Bounded (w : World Handle) : Prop where
  heap : {p | (w.heap p).isSome}.Finite
  table : {fd | (w.table fd).isSome}.Finite

namespace World

variable {w w' : World Handle}

theorem Bounded.mono (h : w.Bounded) {p : Addr} {d : Fd}
    (hheap : ∀ q, q ≠ p → (w'.heap q).isSome → (w.heap q).isSome)
    (htable : ∀ f, f ≠ d → (w'.table f).isSome → (w.table f).isSome) : w'.Bounded where
  heap := (h.heap.insert p).subset fun q hq => by
    by_cases e : q = p
    · exact Or.inl e
    · exact Or.inr (hheap q e hq)
  table := (h.table.insert d).subset fun f hf => by
    by_cases e : f = d
    · exact Or.inl e
    · exact Or.inr (htable f e hf)

theorem modifyAt_isSome (p q : Addr) (f : AsyncFd Handle → AsyncFd Handle) :
    ((w.modifyAt p f).heap q).isSome = (w.heap q).isSome := by
  rw [modifyAt_heap]
  split_ifs with e
  · rw [e, Option.isSome_map]
  · rfl

theorem attachLogged_isSome (m : Mask) (p q : Addr) (ok : Bool) :
    ((w.attachLogged m p ok).heap q).isSome = (w.heap q).isSome := by
  unfold attachLogged
  split
  · rfl
  · exact (modifyAt_isSome p q _).trans (by rw [epollAdd_heap])

theorem Bounded.apply (h : w.Bounded) (c : Call Handle) : (c.apply w).Bounded := by
  cases c with
  | create p fd =>
    refine h.mono (p := p) (d := 0) (fun q hq hs => ?_) fun f _ hf => hf
    simpa [Call.apply, create, Function.update_of_ne hq] using hs
  | attach p ok | attachWriteOnly p ok =>
    refine h.mono (p := 0) (d := 0) (fun q _ hs => ?_) fun f _ hf => ?_
    · exact attachLogged_isSome _ _ q _ ▸ hs
    · exact attachLogged_table (w := w) _ p ok ▸ hf
  | attachReadonly p ok =>
    simp only [Call.apply, attachReadonly]
    split_ifs
    · refine h.mono (p := 0) (d := 0) (fun q _ hs => ?_) fun f _ hf => ?_
      · exact attachLogged_isSome _ _ q _ ▸ hs
      · exact attachLogged_table (w := w) _ p ok ▸ hf
    · exact h
  | watch d p | unwatch d p | suspend d p x =>
    exact h.mono (p := 0) (d := 0) (fun q _ hs => modifyAt_isSome p q _ ▸ hs) fun f _ hf => hf
  | destroy p =>
    refine h.mono (p := p) (d := 0) (fun q hq hs => ?_) fun f _ hf => ?_
    · simp only [Call.apply] at hs
      rwa [destroy_heap, if_neg hq] at hs
    · simp only [Call.apply, destroy] at hf
      split at hf
      · exact hf
      · split_ifs at hf
        · exact hf
        · simp only [free, closeFd, detach, Function.update_apply] at hf
          split_ifs at hf
          · cases hf
          · exact hf
  | openFd fd f =>
    refine h.mono (p := 0) (d := fd) (fun q _ hs => hs) fun f' hf' hs => ?_
    simpa [Call.apply, openFd, Function.update_of_ne hf'] using hs
  | closeFd fd =>
    refine h.mono (p := 0) (d := fd) (fun q _ hs => hs) fun f' hf' hs => ?_
    simpa [Call.apply, closeFd, Function.update_of_ne hf'] using hs

theorem Bounded.free_addr (h : w.Bounded) : ∃ p, w.heap p = none := by
  obtain ⟨p, hp⟩ := h.heap.exists_notMem
  exact ⟨p, by simpa using hp⟩

/-- The number `fd` can be given to a file. -/
def FreeFd (w : World Handle) (fd : Fd) : Prop := w.table fd = none ∧ 0 ≤ fd

theorem Bounded.free_fd (h : w.Bounded) : ∃ fd, w.FreeFd fd := by
  obtain ⟨n, hn⟩ := (h.table.preimage (f := fun n : ℕ => (n : ℤ))
    fun _ _ _ _ e => Int.ofNat.inj e).exists_notMem
  exact ⟨n, by simpa using hn, Int.natCast_nonneg n⟩

end World

/-- In every state of every run there is room for more. -/
theorem bounded_reach {ok : State → Label Choice → Prop} {S : State}
    (h : Lts.Reach State.step ok State.start S) : S.w.Bounded := by
  refine h.inv (I := fun S => S.w.Bounded) ?_ fun S l S' hb _ hst => ?_
  · exact ⟨by simp [State.start, Server.start, World.initial],
      by simp [State.start, Server.start, World.initial]⟩
  · have hmodify : ∀ p f, (S.w.modifyAt p f).Bounded := fun p f =>
      hb.mono (p := 0) (d := 0) (fun q _ hs => World.modifyAt_isSome p q f ▸ hs) fun f _ hf => hf
    have hnote : ∀ e, (S.w.noteHangup e).Bounded := by
      intro e
      unfold World.noteHangup
      split_ifs
      · exact hmodify _ _
      · exact hb
    cases Server.step_cases hst with
    | wait _ _ hS | batchEnd _ hS | unmanaged _ _ hS | noIn _ _ _ hS | noOut _ _ hS
    | sendNull _ _ _ _ hS | send _ _ _ _ _ hS | flushEnd _ hS | env _ hS =>
      subst hS
      exact hb
    | recvNull _ _ _ _ _ hS | recv _ _ _ _ _ _ hS =>
      subst hS
      exact hnote _
    | @flush p todo a ok _ _ hS =>
      subst hS
      unfold World.flushOne
      split_ifs
      · exact hb
      · have := hmodify p fun a => { a with ioState := a.ioNewState }
        exact ⟨this.heap, this.table⟩
      · have := hmodify p fun a => { a with ioState := a.ioNewState }
        exact ⟨this.heap, this.table⟩
    | co _ _ hw hS =>
      subst hS
      exact Call.applyAll_inv (I := World.Bounded) (fun c _ w _ hw => hw.apply c) hw hb

/-! ### The answers of the environment -/

/-- What the environment hands out is free. -/
def Choice.Free (w : World Handle) (pr : Procs) : Choice → Prop
  | .boot p fd _ _ => w.heap p = none ∧ w.FreeFd fd
  | .opened fd => w.FreeFd fd
  | .pipe r wr => w.FreeFd r ∧ w.FreeFd wr ∧ r ≠ wr
  | .object p _ => w.heap p = none
  | .forked pid => 0 < pid ∧ pr.children pid = none
  | _ => True

/-- The answers to the `accept` coroutine. -/
def AcceptPc.expects : AcceptPc → Choice → Bool
  | .boot, .boot _ _ _ _ => true
  | .call, .opened _ | .call, .sys .wouldBlock | .call, .sys .failed => true
  | .retry, .opened _ | .retry, .sys _ => true
  | .made _, .object _ _ => true
  | _, _ => false

/-- The answers to a session. The result of an operation is one that its system call can have; of a
null pointer nothing is said. -/
def Session.expects (w : World Handle) (s : Session) (c : Choice) : Bool :=
  match s.pc, c with
  | .call o, .sys r | .retry o, .sys r => (s.ptr o.role).all fun p => allows w o p r
  | .pipeW, .pipe _ _ | .pipeW, .failed | .pipeR, .pipe _ _ | .pipeR, .failed => true
  | .attachRd, .object _ _ | .attachWr, .object _ _ | .attachPw _, .object _ _ => true
  | .fork, .forked _ | .fork, .failed | .pidfdOpen, .opened _ | .pidfdOpen, .failed => true
  | .closeEnds, .go | .finishwriting, .go | .finishReading, .go | .cleanup _, .go => true
  | .done false, .go | .done true, .result _ => true
  | _, _ => false

/-- The environment may answer `c` to the running coroutine. -/
def State.Offers (S : State) (c : Choice) : Prop :=
  c.Free S.w S.co.procs ∧
    match S.co.running with
    | .idle => False
    | .acceptor => S.co.acceptor.expects c
    | .session sid _ => ∀ s, S.co.sessions sid = some s → s.expects S.w c

/-! ### The steps of a coroutine -/

section Enabled

variable {w : World Handle} {co : Coros} {pr : Procs} {sid fresh : ℕ} {s : Session} {c : Choice}
  {p : Addr}

/-- The call is one of an operation on the object at `p`. -/
def Call.Uses (p : Addr) (c : Call Handle) : Prop :=
  ∃ d, c = .watch d p ∨ c = .unwatch d p ∨ ∃ x, c = .suspend d p x

/-- Calls on one live object are possible. -/
theorem Call.applyAll_live {l : List (Call Handle)} (hp : (w.heap p).isSome)
    (hcs : ∀ c ∈ l, c.Uses p) :
    ∃ w', Call.applyAll l w = some w' ∧ (w'.heap p).isSome ∧ w'.table = w.table := by
  induction l generalizing w with
  | nil => exact ⟨w, rfl, hp, rfl⟩
  | cons c cs ih =>
    obtain ⟨d, hc⟩ := hcs c List.mem_cons_self
    have hstep : c.enabled w = true ∧ ((c.apply w).heap p).isSome ∧
        (c.apply w).table = w.table := by
      rcases hc with rfl | rfl | ⟨x, rfl⟩ <;>
        exact ⟨hp, (World.modifyAt_isSome p p _).trans hp, rfl⟩
    obtain ⟨w', hw', hp', ht'⟩ := ih hstep.2.1 fun c' hc' => hcs c' (List.mem_cons_of_mem _ hc')
    exact ⟨w', by rw [Call.applyAll_cons, if_pos hstep.1, hw'], hp', ht'.trans hstep.2.2⟩

theorem Call.applyAll_append (cs ds : List (Call Handle)) (w : World Handle) :
    Call.applyAll (cs ++ ds) w = (Call.applyAll cs w).bind (Call.applyAll ds) := by
  induction cs generalizing w with
  | nil => rfl
  | cons c cs ih =>
    rw [List.cons_append, Call.applyAll_cons, Call.applyAll_cons]
    split_ifs
    · exact ih _
    · rfl

theorem Call.attach_isSome {cs : Call Handle} {q : Addr} (ok : Bool)
    (hc : cs = .attach q ok ∨ cs = .attachReadonly q ok ∨ cs = .attachWriteOnly q ok) :
    ((cs.apply w).heap p).isSome = (w.heap p).isSome := by
  rcases hc with rfl | rfl | rfl
  · exact World.attachLogged_isSome _ _ _ _
  · simp only [Call.apply, World.attachReadonly]
    split_ifs
    · exact World.attachLogged_isSome _ _ _ _
    · rfl
  · exact World.attachLogged_isSome _ _ _ _

/-- A new object is constructed and attached. -/
theorem Call.applyAll_new (hp : w.heap p = none) (fd : Fd) {cs : Call Handle} {b : Bool}
    (hc : cs = .attach p b ∨ cs = .attachReadonly p b ∨ cs = .attachWriteOnly p b) :
    ∃ w', Call.applyAll [.create p fd, cs] w = some w' ∧ (w'.heap p).isSome := by
  have hlive : (((Call.create p fd).apply w).heap p).isSome := by simp [Call.apply, World.create]
  have hc' : cs.enabled ((Call.create p fd).apply w) = true := by
    rcases hc with rfl | rfl | rfl <;> exact hlive
  have h0 : (Call.create p fd : Call Handle).enabled w = true := by simp [Call.enabled, hp]
  exact ⟨_, by rw [Call.applyAll_cons, if_pos h0, Call.applyAll_cons, if_pos hc']; rfl,
    (Call.attach_isSome b hc).trans hlive⟩

/-- An object is destroyed after its last `unwatch`. -/
theorem Call.applyAll_finish (hp : (w.heap p).isSome) (d : Dir) :
    (Call.applyAll [.unwatch d p, .destroy p] w).isSome := by
  obtain ⟨w', hw', hp', -⟩ := Call.applyAll_live (l := [.unwatch d p]) hp (by simp [Call.Uses])
  have hd : (Call.destroy p : Call Handle).enabled w' = true := hp'
  rw [show [Call.unwatch d p, .destroy p] = [.unwatch d p] ++ [.destroy p] from rfl,
    Call.applyAll_append, hw', Option.bind_some, Call.applyAll_cons, if_pos hd]
  rfl

theorem Call.applyAll_destroy (hp : (w.heap p).isSome) :
    (Call.applyAll [.destroy p] w).isSome := by
  have hd : (Call.destroy p : Call Handle).enabled w = true := hp
  rw [Call.applyAll_cons, if_pos hd]
  rfl

theorem Call.applyAll_open {fd : Fd} (hfd : w.FreeFd fd) (f : File) :
    (Call.applyAll [.openFd fd f] w).isSome := by
  have h : (Call.openFd fd f : Call Handle).enabled w = true := by
    simp [Call.enabled, hfd.1, hfd.2]
  rw [Call.applyAll_cons, if_pos h]
  rfl

/-- The two ends of a pipe. -/
theorem Call.applyAll_pipe {r wr : Fd} (hr : w.FreeFd r) (hwr : w.FreeFd wr) (hne : r ≠ wr)
    (f g : File) : (Call.applyAll [.openFd r f, .openFd wr g] w).isSome := by
  have h1 : (Call.openFd r f : Call Handle).enabled w = true := by simp [Call.enabled, hr.1, hr.2]
  have h2 : (Call.openFd wr g : Call Handle).enabled ((Call.openFd r f).apply w) = true := by
    simp [Call.enabled, Call.apply, World.openFd, Function.update_of_ne hne.symm, hwr.1, hwr.2]
  rw [Call.applyAll_cons, if_pos h1, Call.applyAll_cons, if_pos h2]
  rfl

/-- A session with its objects is never stuck. -/
theorem Session.step_possible (heq : s.Equipped)
    (hlive : ∀ r p, s.ptr r = some p → (w.heap p).isSome) (hexp : s.expects w c)
    (hfree : c.Free w pr) :
    ∃ act, s.step w sid fresh c = some act ∧ (Call.applyAll act.calls w).isSome := by
  have hptr : ∀ r, s.pc.needs r → ∃ p, s.ptr r = some p ∧ (w.heap p).isSome := by
    intro r hr
    obtain ⟨p, hp⟩ := Option.isSome_iff_exists.1 (heq r hr)
    exact ⟨p, hp, hlive r p hp⟩
  unfold Session.expects at hexp
  split at hexp
  case h_1 o r hpc =>
    obtain ⟨p, hp, hpl⟩ := hptr o.role (by rw [hpc]; cases o <;> rfl)
    have ha : allows w o p r := by simpa [hp] using hexp
    refine ⟨s.await sid o p r (s.doneReading w), by simp [Session.step, hpc, hp, ha], ?_⟩
    have hcalls : ∀ c ∈ (s.await sid o p r (s.doneReading w)).calls, c.Uses p := by
      unfold Session.await watchCalls
      split_ifs <;> simp [Call.Uses]
    obtain ⟨w', hw', -⟩ := Call.applyAll_live hpl hcalls
    rw [hw']
    rfl
  case h_2 o r hpc =>
    obtain ⟨p, hp, hpl⟩ := hptr o.role (by rw [hpc]; cases o <;> rfl)
    have ha : allows w o p r := by simpa [hp] using hexp
    refine ⟨_, by simp only [Session.step, hpc, hp, Option.bind_some, ha, if_true]; rfl, ?_⟩
    obtain ⟨w', hw', -⟩ := Call.applyAll_live (l := [.unwatch o.dir p]) hpl (by simp [Call.Uses])
    rw [hw']
    rfl
  case h_3 hpc | h_5 hpc =>
    refine ⟨_, by simp only [Session.step, hpc]; rfl, ?_⟩
    exact Call.applyAll_pipe hfree.1 hfree.2.1 hfree.2.2 _ _
  case h_4 hpc | h_6 hpc | h_10 hpc | h_11 hpc | h_13 hpc | h_14 hpc =>
    exact ⟨_, by simp only [Session.step, hpc]; rfl, rfl⟩
  case h_7 p ok hpc | h_9 p ok hpc =>
    obtain ⟨w', hw', -⟩ := Call.applyAll_new hfree _ (Or.inr (Or.inl rfl))
    exact ⟨_, by simp only [Session.step, hpc]; rfl, Option.isSome_of_eq_some hw'⟩
  case h_8 hpc =>
    obtain ⟨w', hw', -⟩ := Call.applyAll_new hfree _ (Or.inr (Or.inr rfl))
    exact ⟨_, by simp only [Session.step, hpc]; rfl, Option.isSome_of_eq_some hw'⟩
  case h_12 hpc =>
    exact ⟨_, by simp only [Session.step, hpc]; rfl, Call.applyAll_open hfree _⟩
  case h_15 hpc =>
    obtain ⟨p, hp, hpl⟩ := hptr .writeEnd (by rw [hpc]; rfl)
    exact ⟨_, by simp only [Session.step, hpc, hp]; rfl, Call.applyAll_finish hpl .write⟩
  case h_16 hpc =>
    obtain ⟨p, hp, hpl⟩ := hptr .readEnd (by rw [hpc]; rfl)
    exact ⟨_, by simp only [Session.step, hpc, hp]; rfl, Call.applyAll_finish hpl .read⟩
  case h_17 t hpc =>
    refine ⟨s.cleanup t, by simp only [Session.step, hpc], ?_⟩
    unfold Session.cleanup
    split
    · rename_i p h1
      exact Call.applyAll_destroy (hlive _ p h1)
    · rename_i p h1 h2
      exact Call.applyAll_destroy (hlive _ p h2)
    · rename_i p h1 h2 h3
      exact Call.applyAll_destroy (hlive _ p h3)
    · rfl
  case h_18 hpc =>
    obtain ⟨p, hp, hpl⟩ := hptr .socket (by rw [hpc]; rfl)
    exact ⟨_, by simp only [Session.step, hpc, Session.close, hp]; rfl, Call.applyAll_destroy hpl⟩
  case h_19 run hpc =>
    cases run with
    | false =>
      obtain ⟨p, hp, hpl⟩ := hptr .socket (by rw [hpc]; rfl)
      exact ⟨_, by simp only [Session.step, hpc, Session.close, hp]; rfl, Call.applyAll_destroy hpl⟩
    | true => exact ⟨_, by simp only [Session.step, hpc]; rfl, rfl⟩
  case h_20 => cases hexp

/-- The processes follow the step of a session that is not waiting in vain. -/
theorem Session.apply_possible (hforked : s.pc.forked → (pr.children s.forkedProcesId).isSome)
    (hfree : c.Free w pr) {act : Act} (hact : s.step w sid fresh c = some act) :
    (pr.apply s w.table act.effect).isSome := by
  have hcase := Session.step_cases hact
  rcases hcase.effect with e | ⟨-, e⟩ | ⟨pid, hpc, e⟩ | ⟨hpc, e | e⟩
  · rw [e]
    rfl
  · rw [e]
    rfl
  · have hc : c = .forked pid := by
      cases hcase with
      | fork => cases e; rfl
      | value hpc' | block hpc' | retry hpc' => rw [hpc] at hpc'; cases hpc'
      | _ => cases e
    subst hc
    obtain ⟨hpos, hnone⟩ := hfree
    simp [e, Procs.apply, hpos, hnone]
  · have hsome := hforked (by rcases hpc with h | h <;> rw [h] <;> rfl)
    simp [e, Procs.apply, hsome]
  · rw [e]
    rfl

/-- The `accept` coroutine is never stuck. -/
theorem Coros.accept_possible (hlisten : co.acceptor ≠ .boot → (w.heap co.listen).isSome)
    (hexp : co.acceptor.expects c) (hfree : c.Free w pr) :
    ∃ m, co.acceptStep c = some m ∧ (Call.applyAll m.calls w).isSome := by
  -- the descriptor is opened after the operation on the listening `Socket`
  have hopen : ∀ {l : List (Call Handle)} {fd : Fd}, (w.heap co.listen).isSome → w.FreeFd fd →
      (∀ c ∈ l, c.Uses co.listen) →
      (Call.applyAll (l ++ [.openFd fd .connection]) w).isSome := by
    intro l fd hl hfd hcs
    obtain ⟨w', hw', -, ht⟩ := Call.applyAll_live hl hcs
    rw [Call.applyAll_append, hw', Option.bind_some]
    exact Call.applyAll_open ⟨ht ▸ hfd.1, hfd.2⟩ _
  have hlive : ∀ {l : List (Call Handle)}, (w.heap co.listen).isSome →
      (∀ c ∈ l, c.Uses co.listen) → (Call.applyAll l w).isSome := by
    intro l hl hcs
    obtain ⟨w', hw', -⟩ := Call.applyAll_live hl hcs
    exact Option.isSome_of_eq_some hw'
  unfold AcceptPc.expects at hexp
  split at hexp
  case h_1 p fd bound ok hpc =>
    obtain ⟨hp, hfd⟩ := hfree
    have h0 : (Call.openFd fd .listening : Call Handle).enabled w = true := by
      simp [Call.enabled, hfd.1, hfd.2]
    cases bound with
    | false =>
      refine ⟨_, by simp only [acceptStep, hpc]; rfl, ?_⟩
      have h1 : (Call.create p fd : Call Handle).enabled (w.openFd fd .listening) = true := by
        simp [Call.enabled, World.openFd, hp]
      simp [Call.applyAll_cons, h0, Call.apply, h1]
    | true =>
      refine ⟨_, by simp only [acceptStep, hpc]; rfl, ?_⟩
      have hp' : (w.openFd fd .listening).heap p = none := hp
      obtain ⟨w₁, hw₁, hlive₁⟩ := Call.applyAll_new (b := ok) hp' fd (Or.inl rfl)
      obtain ⟨w₂, hw₂, -⟩ := Call.applyAll_live (l := [.watch .read p]) hlive₁
        (by simp [Call.Uses])
      have hsplit : ([.openFd fd .listening, .create p fd, .attach p ok, .watch .read p] :
          List (Call Handle)) =
          [.openFd fd .listening] ++ ([.create p fd, .attach p ok] ++ [.watch .read p]) := rfl
      rw [hsplit, Call.applyAll_append, Call.applyAll_cons, if_pos h0, Call.applyAll_nil,
        Option.bind_some, Call.applyAll_append, Call.apply, hw₁, Option.bind_some, hw₂]
      rfl
  case h_2 fd hpc =>
    have hl := hlisten (by simp [hpc])
    refine ⟨_, by simp only [acceptStep, hpc]; rfl, ?_⟩
    exact hopen (l := [.watch .read _, .unwatch .read _]) hl hfree (by simp [Call.Uses])
  case h_3 hpc | h_4 hpc =>
    have hl := hlisten (by simp [hpc])
    exact ⟨_, by simp only [acceptStep, hpc]; rfl, hlive hl (by simp [Call.Uses])⟩
  case h_5 fd hpc =>
    have hl := hlisten (by simp [hpc])
    refine ⟨_, by simp only [acceptStep, hpc]; rfl, ?_⟩
    exact hopen (l := [.unwatch .read _]) hl hfree (by simp [Call.Uses])
  case h_6 hpc =>
    have hl := hlisten (by simp [hpc])
    refine ⟨_, by simp only [acceptStep, hpc]; rfl, ?_⟩
    exact hlive (l := [.unwatch .read _]) hl (by simp [Call.Uses])
  case h_7 fd p ok hpc =>
    obtain ⟨w', hw', -⟩ := Call.applyAll_new (b := ok) hfree fd (Or.inl rfl)
    exact ⟨_, by simp only [acceptStep, hpc]; rfl, Option.isSome_of_eq_some hw'⟩
  case h_8 => cases hexp

end Enabled

/-! ### The server -/

/-- The guard: every `epoll_ctl` succeeds, no `send` begins on a `Socket` with a handle in
`coroRecv_` that is registered for reading, and a coroutine that is resumed by the `EPOLLIN` of an
event with both bits does not destroy the object of the event. -/
def Sound (S : State) (l : Label Choice) : Prop :=
  EpollOk l ∧ S.sendsOverRecv l = false ∧ KeepsOwn server S l

/-- What is needed for the next step. -/
structure Ready (S : State) : Prop where
  resumes : ResumesOk S
  forked : Forked S.co
  equipped : S.co.Equipped
  active : ∀ k, S.ctl = .coro k → S.co.Active
  bounded : S.w.Bounded
  secondHalf : ∀ e, S.ctl.secondHalf = some e → e.events.has EPOLLOUT → e.ptr ∈ S.w.managedFd

theorem equipped_reach {ok : State → Label Choice → Prop} {S : State}
    (h : Lts.Reach State.step ok State.start S) : S.co.Equipped :=
  h.inv (I := fun S => S.co.Equipped) (fun sid s hs => by cases hs)
    fun _ _ _ hi _ hst => hi.step (State.evolves hst)

theorem active_reach {ok : State → Label Choice → Prop} {S : State}
    (h : Lts.Reach State.step ok State.start S) : ∀ k, S.ctl = .coro k → S.co.Active := by
  refine h.inv_of (J := ThreadsOk) (I := fun S => ∀ k, S.ctl = .coro k → S.co.Active)
    (fun _ ht => threadsOk_reach ht) ?_ ?_
  · intro k _
    simp [State.start, Server.start, Coros.start, Coros.Active]
  · intro S l S' hth _ hi _ hst k hctl'
    cases Server.step_cases hst with
    | wait _ _ hS | batchEnd _ hS | unmanaged _ _ hS | noIn _ _ _ hS | recvNull _ _ _ _ _ hS
    | noOut _ _ hS | sendNull _ _ _ _ hS | flushEnd _ hS | flush _ _ hS =>
      subst hS
      cases hctl'
    | recv _ _ _ _ _ hco hS | send _ _ _ _ hco hS =>
      subst hS
      exact Coros.active_resume hco
    | @co k' c m w' hctl hm _ hS =>
      subst hS
      have hk : k' = k := by
        have hctl' : m.status.control k' = .coro k := hctl'
        cases hst' : m.status <;> rw [hst'] at hctl' <;> cases k' <;> cases hctl' <;> rfl
      exact Coros.active_step (Coros.step_cases hm) hth.waiting (hk ▸ hctl')
    | env hco hS =>
      subst hS
      obtain ⟨pid, pr, -, -, rfl⟩ := Coros.env_cases hco
      exact hi k hctl'

theorem ready_reach {S : State} (h : Lts.Reach State.step Sound State.start S)
    (hlive : S.ctl ≠ .exited) : Ready S where
  resumes := by
    refine h.inv (I := fun S => S.ctl ≠ .exited → ResumesOk S) (fun _ => .start_holds) ?_ hlive
    intro S l S' hS hl hst hlive
    exact (hS fun e => hlive (State.exited_step e hst)).step hl.1 hl.2.1 hst hlive
  forked := forked_reach h
  equipped := equipped_reach h
  active := active_reach h
  bounded := bounded_reach h
  secondHalf := secondHalf_reach (fun _ _ hl => hl.2.2) h

namespace Ready

variable {S : State}

/-- A handle that `run` finds for an event can be resumed. -/
theorem resume_possible (h : Ready S) (hin : S.ctl.inRun) {d : Dir} {p : Addr}
    (hP : S.ctl.Pending d p) {a : AsyncFd Handle} (ha : S.w.heap p = some a) {x : Handle}
    (hx : a.coro d = some x) : (S.co.resume x).isSome := by
  have hsusp := h.resumes.suspended hin hP ha hx
  cases x with
  | accept n => simp [Coros.resume, hsusp.1]
  | echo sid f =>
    obtain ⟨s, o, hs, hf, hpc, -⟩ := hsusp
    simp [Coros.resume, hs, hpc, hf]

/-- The step of `run` over an event and its handle. -/
theorem resumed_possible (h : Ready S) (hin : S.ctl.inRun) {d : Dir} {p : Addr}
    (hP : S.ctl.Pending d p) {a : AsyncFd Handle} (ha : S.w.heap p = some a) (w : World Handle)
    (k : Cont) : (Server.resume server { S with w := w } (a.coro d) k).isSome := by
  cases hx : a.coro d with
  | none => rfl
  | some x =>
    obtain ⟨co, hco⟩ := Option.isSome_iff_exists.1 (h.resume_possible hin hP ha hx)
    have hco : server.resume x S.co = some co := hco
    simp [Server.resume, hco]

theorem managed_live (h : Ready S) {p : Addr} (hp : p ∈ S.w.managedFd) :
    ∃ a, S.w.heap p = some a :=
  h.resumes.synced.threads.objects.owned.managed_live p hp

/-- `epoll_wait` may report what is registered. -/
theorem wait_possible {l : List (Fd × Mask)} (hctl : S.ctl = .epollWait)
    (hnodup : (l.map Prod.fst).Nodup) (hlen : l.length ≤ maxEvents)
    (hl : ∀ x ∈ l, ∃ i, S.w.interest x.1 = some i ∧ Reportable i.events x.2) :
    (S.step (.epollWait l)).isSome := by
  have hcollect : ∀ l : List (Fd × Mask),
      (∀ x ∈ l, ∃ i, S.w.interest x.1 = some i ∧ Reportable i.events x.2) →
      (S.w.collectEvents l).isSome := by
    intro l hl
    induction l with
    | nil => rfl
    | cons x l ih =>
      obtain ⟨i, hi, hrep⟩ := hl x List.mem_cons_self
      have hrest := ih fun y hy => hl y (List.mem_cons_of_mem _ hy)
      simp only [World.collectEvents, hi, if_pos hrep, Option.isSome_map, hrest]
  unfold State.step
  simp only [Server.step, hctl, World.collect, Option.isSome_map, if_pos (And.intro hnodup hlen)]
  exact hcollect l hl

theorem dispatch_possible (h : Ready S) {todo : List Event} (hctl : S.ctl = .dispatch todo) :
    (S.step .next).isSome := by
  have hin : S.ctl.inRun := by rw [hctl]; rfl
  unfold State.step
  simp only [Server.step, Server.next, hctl]
  cases todo with
  | nil => rfl
  | cons e todo =>
    dsimp only
    split_ifs with hm hbit
    · obtain ⟨a, ha⟩ := h.managed_live hm
      rw [ha, Option.bind_some]
      refine h.resumed_possible (d := .read) hin ?_ ha _ _
      exact ⟨e, by rw [hctl]; exact List.mem_cons_self, rfl, hbit⟩
    · rfl
    · rfl

theorem out_possible (h : Ready S) {e : Event} {todo : List Event} (hctl : S.ctl = .out e todo) :
    (S.step .next).isSome := by
  have hin : S.ctl.inRun := by rw [hctl]; rfl
  unfold State.step
  simp only [Server.step, Server.next, hctl]
  split_ifs with hbit
  · obtain ⟨a, ha⟩ := h.managed_live (h.secondHalf e (by rw [hctl]; rfl) hbit)
    rw [ha, Option.bind_some]
    refine h.resumed_possible (d := .write) hin ?_ ha _ _
    exact ⟨e, by rw [hctl]; exact List.mem_cons_self, rfl, hbit⟩
  · rfl

theorem flush_possible (h : Ready S) {p : Addr} {todo : List Addr}
    (hctl : S.ctl = .flush (p :: todo)) (ok : Bool) : (S.step (.modify ok)).isSome := by
  have hsync := h.resumes.synced
  have hp := (hsync.flush _ hctl).1 p List.mem_cons_self
  obtain ⟨a, ha⟩ := h.managed_live (hsync.threads.objects.owned.processed_managed p hp)
  unfold State.step
  simp [Server.step, hctl, ha]

/-- Whatever the environment answers, the running coroutine goes on. -/
theorem co_possible (h : Ready S) {k : Cont} (hctl : S.ctl = .coro k) {c : Choice}
    (hc : S.Offers c) : (S.step (.co c)).isSome := by
  have hob := h.resumes.synced.threads.objects
  obtain ⟨hfree, hc⟩ := hc
  have hstep : ∃ m, S.co.step c S.w = some m ∧ (Call.applyAll m.calls S.w).isSome := by
    cases hrun : S.co.running with
    | idle => rw [hrun] at hc; exact hc.elim
    | acceptor =>
      rw [hrun] at hc
      obtain ⟨m, hm, hw⟩ := Coros.accept_possible (fun hb => by
        obtain ⟨a, ha, -⟩ := hob.listen hb
        exact Option.isSome_of_eq_some ha) hc hfree
      exact ⟨m, by simpa [Coros.step, hrun] using hm, hw⟩
    | session sid via =>
      rw [hrun] at hc
      have hactive := h.active k hctl
      simp only [Coros.Active, hrun] at hactive
      obtain ⟨s, hs, -⟩ := hactive
      have hpossible : ∃ act, s.step S.w sid S.co.nextFrame c = some act ∧
          (Call.applyAll act.calls S.w).isSome := by
        refine Session.step_possible (h.equipped sid s hs) (fun r p hp => ?_) (hc s hs) hfree
        obtain ⟨a, ha⟩ := hob.owned.live (.session sid r) p ⟨s, hs, hp⟩
        exact Option.isSome_of_eq_some ha
      obtain ⟨act, hact, hw⟩ := hpossible
      obtain ⟨pr, hpr⟩ := Option.isSome_iff_exists.1 (Session.apply_possible (fun hf => by
        obtain ⟨child, hchild, -⟩ := h.forked sid s hs hf
        exact Option.isSome_of_eq_some hchild) hfree hact)
      refine ⟨⟨act.calls, { S.co.settle sid via act.after with procs := pr },
        Coros.status via act.after⟩, ?_, hw⟩
      simp only [Coros.step, hrun, Coros.sessionStep, hs, Option.bind_some, hact, hpr,
        Option.map_some]
  obtain ⟨m, hm, hw⟩ := hstep
  obtain ⟨w', hw'⟩ := Option.isSome_iff_exists.1 hw
  have hm' : server.step c S.w S.co = some m := hm
  unfold State.step
  simp only [Server.step, hctl, Server.coStep, hm', Option.bind_some, hw', Option.map_some]
  rfl

/-- The environment has an answer. -/
theorem exists_offer (h : Ready S) {k : Cont} (hctl : S.ctl = .coro k) : ∃ c, S.Offers c := by
  have hactive := h.active k hctl
  obtain ⟨p, hp⟩ := h.bounded.free_addr
  obtain ⟨fd, hfd⟩ := h.bounded.free_fd
  unfold State.Offers
  cases hrun : S.co.running with
  | idle => simp [Coros.Active, hrun] at hactive
  | acceptor =>
    simp only [Coros.Active, hrun] at hactive
    cases hpc : S.co.acceptor with
    | boot => exact ⟨.boot p fd true true, ⟨hp, hfd⟩, rfl⟩
    | call | retry => exact ⟨.sys .failed, trivial, rfl⟩
    | susp n => exact absurd hpc (hactive n)
    | made fd => exact ⟨.object p true, hp, rfl⟩
  | session sid via =>
    simp only [Coros.Active, hrun] at hactive
    obtain ⟨s, hs, hpc⟩ := hactive
    have hoffer : ∀ c, c.Free S.w S.co.procs → s.expects S.w c → ∃ c, c.Free S.w S.co.procs ∧
        ∀ t, S.co.sessions sid = some t → t.expects S.w c := by
      intro c hfree hexp
      refine ⟨c, hfree, fun t ht => ?_⟩
      rw [hs] at ht
      cases ht
      exact hexp
    -- every system call may fail
    have hfails : ∀ o, s.pc = .call o ∨ s.pc = .retry o → ∃ r, s.expects S.w (.sys r) := by
      intro o ho
      refine ⟨if o = .whaitforprocesstodie then .alive else .failed, ?_⟩
      have hall : (s.ptr o.role).all (fun p => Session.allows S.w o p
          (if o = .whaitforprocesstodie then .alive else .failed)) = true := by
        cases s.ptr o.role <;> cases o <;> simp [Session.allows, Op.accepts]
      rcases ho with e | e <;> simpa [Session.expects, e] using hall
    cases e : s.pc with
    | call o =>
      obtain ⟨r, hr⟩ := hfails o (Or.inl e)
      exact hoffer (.sys r) trivial hr
    | retry o =>
      obtain ⟨r, hr⟩ := hfails o (Or.inr e)
      exact hoffer (.sys r) trivial hr
    | susp o => exact absurd e (hpc o)
    | pipeW | pipeR | fork | pidfdOpen =>
      exact hoffer .failed trivial (by simp [Session.expects, e])
    | attachRd | attachWr | attachPw fd =>
      exact hoffer (.object p true) hp (by simp [Session.expects, e])
    | closeEnds | finishwriting | finishReading | cleanup t =>
      exact hoffer .go trivial (by simp [Session.expects, e])
    | done t =>
      cases t with
      | false => exact hoffer .go trivial (by simp [Session.expects, e])
      | true => exact hoffer (.result false) trivial (by simp [Session.expects, e])

end Ready

/-- **The server is never stuck.** In every run that stays clear of the defects of `Sound`, and in
every state of it: `run` can make its next step, whatever `epoll_ctl` answers, and a coroutine that
has the thread can make its next step, whatever the environment answers; and the environment has an
answer. So no object is used after its destruction or through a null pointer, and no handle is
resumed that is not suspended. -/
theorem never_stuck {S : State} (h : Lts.Reach State.step Sound State.start S) :
    match S.ctl with
    | .epollWait => ∀ l : List (Fd × Mask), (l.map Prod.fst).Nodup → l.length ≤ maxEvents →
        (∀ x ∈ l, ∃ i, S.w.interest x.1 = some i ∧ Reportable i.events x.2) →
        (S.step (.epollWait l)).isSome
    | .dispatch _ | .out _ _ | .flush [] => (S.step .next).isSome
    | .flush (_ :: _) => ∀ ok, (S.step (.modify ok)).isSome
    | .coro _ => (∀ c, S.Offers c → (S.step (.co c)).isSome) ∧ ∃ c, S.Offers c
    | .exited => True := by
  have hready := fun hlive => ready_reach h hlive
  split
  case h_1 hctl => exact fun l hnodup hlen hl => Ready.wait_possible hctl hnodup hlen hl
  case h_2 todo hctl => exact (hready (by simp [hctl])).dispatch_possible hctl
  case h_3 e todo hctl => exact (hready (by simp [hctl])).out_possible hctl
  case h_4 hctl =>
    unfold State.step
    simp [Server.step, Server.next, hctl]
  case h_5 p todo hctl => exact (hready (by simp [hctl])).flush_possible hctl
  case h_6 k hctl =>
    have hr := hready (by simp [hctl])
    exact ⟨fun c => hr.co_possible hctl, hr.exists_offer hctl⟩
  case h_7 => trivial

/-- A guard that can be computed: no event with both bits is in progress. -/
def State.keepsClear (S : State) (l : Label Choice) : Bool :=
  EpollOk l && !S.sendsOverRecv l &&
    match S.ctl with
    | .coro (.out e _) => !e.events.has EPOLLOUT
    | _ => true

theorem sound_of_keepsClear {S : State} {l : Label Choice} (h : S.keepsClear l) : Sound S l := by
  simp only [State.keepsClear, Bool.and_eq_true, Bool.not_eq_true'] at h
  refine ⟨h.1.1, h.1.2, ?_⟩
  cases l with
  | co c =>
    intro e todo hctl hout
    have h2 := h.2
    rw [hctl] at h2
    simp [hout] at h2
  | _ => trivial

/-- The session that waits for its child's output has been resumed, and goes on. -/
theorem never_stuck_reader : ∃ S : State, S.ctl = .coro (.out ⟨3, EPOLLIN, some 2⟩ []) ∧
    (∀ c, S.Offers c → (S.step (.co c)).isSome) ∧ ∃ c, S.Offers c := by
  obtain ⟨S, h, hp⟩ := Lts.exists_reach State.step Sound State.start
    (readRun ++ [.epollWait [(7, EPOLLIN)], .next]) State.keepsClear
    (fun S l hl => sound_of_keepsClear hl)
    (fun S => decide (S.ctl = .coro (.out ⟨3, EPOLLIN, some 2⟩ []))) (by decide)
  have hctl : S.ctl = .coro (.out ⟨3, EPOLLIN, some 2⟩ []) := of_decide_eq_true hp
  have hgo := never_stuck h
  rw [hctl] at hgo
  exact ⟨S, hctl, hgo⟩

end EpollCoroutine
