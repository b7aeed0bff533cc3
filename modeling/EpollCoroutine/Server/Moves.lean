import EpollCoroutine.Epoll.Registered
import EpollCoroutine.Server.Cases

/-!
# What the steps of the coroutines do to the objects

The many steps fall into a few kinds: an operation completes or suspends on an object of its
coroutine, an object is attached or dropped, or no object changes.

* `Session.Shape`: which objects and descriptors a session has at each place.
* `Session.Moves`, `Session.moves`: the kinds of steps of a session.
* `Coros.AcceptMoves`, `Coros.acceptMoves`: those of the `accept` coroutine.
-/

namespace EpollCoroutine

/-! ### Shape -/

/-- The object after the constructor of an operation. -/
def AsyncFd.begun (a : AsyncFd Handle) (o : Op) : AsyncFd Handle :=
  if o.watches then { a with ioNewState := a.ioState ||| o.dir.bit } else a

@[simp] theorem AsyncFd.begun_fd (a : AsyncFd Handle) (o : Op) : (a.begun o).fd = a.fd := by
  unfold AsyncFd.begun; split_ifs <;> rfl

@[simp] theorem AsyncFd.begun_ioState (a : AsyncFd Handle) (o : Op) :
    (a.begun o).ioState = a.ioState := by
  unfold AsyncFd.begun; split_ifs <;> rfl

@[simp] theorem AsyncFd.begun_coro (a : AsyncFd Handle) (o : Op) (d : Dir) :
    (a.begun o).coro d = a.coro d := by
  unfold AsyncFd.begun; split_ifs <;> cases d <;> rfl

/-- The mask with which the object of a role is attached. -/
def Role.mask : Role → Mask
  | .writeEnd => EPOLLOUT ||| EPOLLET
  | _ => EPOLLIN ||| EPOLLET

/-- The descriptors of the `PipedAsyncCommand` that may exist during an operation. -/
def Op.holds : Op → Role → Bool
  | _, .socket => true
  | .writepipe, _ => true
  | .readpipe, .readEnd | .readpipe, .processWait => true
  | .send, .processWait | .whaitforprocesstodie, .processWait => true
  | _, _ => false

/-- The objects that a session may have at `pc`. -/
def Pc.holds : Pc → Role → Bool
  | .call o, r | .susp o, r | .retry o, r => o.holds r
  | _, .socket => true
  | .attachWr, .readEnd => true
  | .fork, .readEnd | .fork, .writeEnd => true
  | .pidfdOpen, .readEnd | .pidfdOpen, .writeEnd => true
  | .attachPw _, .readEnd | .attachPw _, .writeEnd => true
  | .closeEnds, _ | .finishwriting, _ | .cleanup _, _ => true
  | .finishReading, .readEnd | .finishReading, .processWait => true
  | _, _ => false

namespace Session

/-- The descriptors that a session has opened and not yet given to an object or closed. -/
def rawFds (s : Session) : List Fd :=
  match s.pc with
  | .pipeR => [s.mFdW.2, s.mFdW.1]
  | .attachRd => [s.mFdR.2, s.mFdR.1, s.mFdW.2, s.mFdW.1]
  | .attachWr => [s.mFdR.2, s.mFdW.2, s.mFdW.1]
  | .fork | .pidfdOpen | .closeEnds => [s.mFdR.2, s.mFdW.1]
  | .attachPw fd => [fd, s.mFdR.2, s.mFdW.1]
  | _ => []

/-- The objects and descriptors of a session fit its place. -/
structure Shape (s : Session) : Prop where
  holds : ∀ r p, s.ptr r = some p → s.pc.holds r
  wValid : s.pc = .pipeR ∨ s.pc = .attachRd ∨ s.pc = .attachWr → 0 ≤ s.mFdW.2
  rValid : s.pc = .attachRd → 0 ≤ s.mFdR.1
  pidfdValid : ∀ fd, s.pc = .attachPw fd → 0 ≤ fd

variable {s : Session}

/-- A session whose place has no descriptor of its own in use has a shape as soon as its objects
fit. -/
theorem Shape.of_holds (h : ∀ r p, s.ptr r = some p → s.pc.holds r)
    (hpc : s.pc ≠ .pipeR ∧ s.pc ≠ .attachRd ∧ s.pc ≠ .attachWr ∧ ∀ fd, s.pc ≠ .attachPw fd) :
    s.Shape where
  holds := h
  wValid := by
    rintro (h | h | h)
    · exact absurd h hpc.1
    · exact absurd h hpc.2.1
    · exact absurd h hpc.2.2.1
  rValid h := absurd h hpc.2.1
  pidfdValid fd h := absurd h (hpc.2.2.2 fd)

/-- A session does not have what its place does not hold. -/
theorem Shape.ptr_none (hs : s.Shape) {r : Role} (h : s.pc.holds r = false) : s.ptr r = none := by
  by_contra hne
  obtain ⟨p, hp⟩ := Option.ne_none_iff_exists'.1 hne
  rw [hs.holds r p hp] at h
  cases h

/-- The objects of a session fit a place that holds as much. -/
theorem Shape.holds_mono (hs : s.Shape) {pc : Pc} (hle : ∀ r, s.pc.holds r → pc.holds r) :
    ∀ r p, s.ptr r = some p → pc.holds r :=
  fun r p hp => hle r (hs.holds r p hp)

theorem sendHead_pc (s : Session) :
    s.sendHead.pc = .call .send ∨ s.sendHead.pc = .call .whaitforprocesstodie := by
  unfold sendHead
  dsimp only
  split_ifs <;> simp

/-- The places that an operation can lead to. -/
theorem complete_pc (s : Session) (o : Op) (r : Sys) (dr : Bool) :
    (o = .recv ∧ ((s.complete o r dr).pc = .pipeW ∨ (s.complete o r dr).pc = .done false)) ∨
    (o = .writepipe ∧ (s.complete o r dr).pc = .finishwriting) ∨
    (o = .readpipe ∧ ((s.complete o r dr).pc = .call .readpipe ∨
      (s.complete o r dr).pc = .finishReading ∨ (s.complete o r dr).pc = .cleanup true)) ∨
    (o = .send ∧ ((s.complete o r dr).pc = .call .send ∨
      (s.complete o r dr).pc = .call .whaitforprocesstodie)) ∨
    (o = .whaitforprocesstodie ∧ (s.complete o r dr).pc = .cleanup false) := by
  have hread : ∀ r after, (s.afterRead r after dr).pc = .call .readpipe ∨
      (s.afterRead r after dr).pc = .finishReading ∨
      (s.afterRead r after dr).pc = .cleanup true := by
    intro r after
    unfold afterRead
    split
    · simp
    · dsimp only
      split_ifs <;> simp
  cases o with
  | recv =>
    refine Or.inl ⟨rfl, ?_⟩
    cases r <;> simp [complete]
  | writepipe => simp [complete]
  | readpipe =>
    refine Or.inr (Or.inr (Or.inl ⟨rfl, ?_⟩))
    cases r <;> simp only [complete] <;> exact hread _ _
  | send =>
    refine Or.inr (Or.inr (Or.inr (Or.inl ⟨rfl, ?_⟩)))
    cases r <;> simp only [complete] <;> exact sendHead_pc _
  | whaitforprocesstodie => simp [complete]

/-- `complete` changes the place and the local variables only. -/
theorem complete_rest (s : Session) (o : Op) (r : Sys) (dr : Bool) :
    (s.complete o r dr).ptr = s.ptr ∧ (s.complete o r dr).frame = s.frame ∧
      (s.complete o r dr).opNo = s.opNo ∧
      (s.complete o r dr).forkedProcesId = s.forkedProcesId ∧
      (s.complete o r dr).mFdW = s.mFdW ∧ (s.complete o r dr).mFdR = s.mFdR := by
  have hread : ∀ r after, (s.afterRead r after dr).ptr = s.ptr ∧
      (s.afterRead r after dr).frame = s.frame ∧ (s.afterRead r after dr).opNo = s.opNo ∧
      (s.afterRead r after dr).forkedProcesId = s.forkedProcesId ∧
      (s.afterRead r after dr).mFdW = s.mFdW ∧ (s.afterRead r after dr).mFdR = s.mFdR := by
    intro r after
    unfold afterRead
    split <;> simp
  cases o with
  | readpipe => cases r <;> simp only [complete] <;> exact hread _ _
  | recv => cases r <;> simp [complete]
  | send => cases r <;> simp [complete, sendHead]
  | writepipe | whaitforprocesstodie => simp [complete]

/-! ### Kinds of steps -/

/-- What a step does to the objects. -/
inductive Moves (w w' : World Handle) (sid fresh : ℕ) (s : Session) (c : Choice) : After → Prop
  | raw {s' : Session} (hw : w.Same w') (hptr : s'.ptr = s.ptr) (hframe : s'.frame = s.frame)
      (hop : s'.opNo = s.opNo) (hstart : ∀ o, s.pc ≠ .call o ∧ s.pc ≠ .retry o)
      (hsusp : ∀ o, s'.pc ≠ .susp o ∧ s'.pc ≠ .retry o)
      (hrecv : s'.pc ≠ .call .recv)
      (hclean : ∀ t, s.pc = .cleanup t → ∀ r, r ≠ .socket → s.ptr r = none) (hshape : s'.Shape)
      (hint : w.Raw s.rawFds → w'.interest = w.interest) : Moves w w' sid fresh s c (.running s')
  | again (hw : w.Same w') (hpc : s.pc = .done true)
      (hshape : { s with frame := fresh, pc := .call .recv, vars := {} : Session }.Shape)
      (hint : w'.interest = w.interest) :
      Moves w w' sid fresh s c (.again { s with frame := fresh, pc := .call .recv, vars := {} })
  | completes {o : Op} {p : Addr} {a : AsyncFd Handle} {r : Sys} {dr : Bool}
      (hpc : s.pc = .call o ∨ s.pc = .retry o) (hp : s.ptr o.role = some p) (ha : w.heap p = some a)
      (hfd : s.pc = .call .recv → a.fd ≠ -1)
      (hw : w.Puts w' p { a with ioNewState := a.ioState &&& ~~~o.dir.bit } true)
      (hshape : (s.complete o r dr).Shape) : Moves w w' sid fresh s c (.running (s.complete o r dr))
  | suspends {o : Op} {p : Addr} {a : AsyncFd Handle} (hpc : s.pc = .call o)
      (hp : s.ptr o.role = some p) (ha : w.heap p = some a)
      (hfd : o = .whaitforprocesstodie ∨ a.fd ≠ -1)
      (hw : w.Puts w' p ((a.begun o).setCoro o.dir (.echo sid s.frame)) o.watches)
      (hshape : { s with pc := .susp o, opNo := s.opNo + 1 : Session }.Shape) :
      Moves w w' sid fresh s c (.suspended { s with pc := .susp o, opNo := s.opNo + 1 })
  | attaches {r : Role} {p : Addr} {fd : Fd} {b b' : Bool} {oid : ℕ} {s' : Session}
      (hr : r ≠ .socket) (hnone : s.ptr r = none) (hfd : 0 ≤ fd)
      (hw : w.Adds w' p { oid := oid, fd := fd, ioState := if b then r.mask else 0#32 } b b')
      (hptr : s'.ptr = Function.update s.ptr r (some p)) (hframe : s'.frame = s.frame)
      (hop : s'.opNo = s.opNo) (hstart : ∀ o, s.pc ≠ .call o ∧ s.pc ≠ .retry o)
      (hsusp : ∀ o, s'.pc ≠ .susp o ∧ s'.pc ≠ .retry o)
      (hrecv : s'.pc ≠ .call .recv) (hpc : ∀ t, s.pc ≠ .cleanup t)
      (hclean : b = false → s'.pc = .cleanup true) (hshape : s'.Shape) (hraw : fd ∈ s.rawFds)
      (hadd : ∃ ok, c = .object p ok ∧ b' = w.addSucceeds fd ok) (hb : b = false → b' = false) :
      Moves w w' sid fresh s c (.running s')
  | drops {r : Role} {p : Addr} {a : AsyncFd Handle} {s' : Session} (hr : r ≠ .socket)
      (hp : s.ptr r = some p) (hw : w.Drops w' p a) (hptr : s'.ptr = Function.update s.ptr r none)
      (hframe : s'.frame = s.frame) (hop : s'.opNo = s.opNo)
      (hstart : ∀ o, s.pc ≠ .call o ∧ s.pc ≠ .retry o)
      (hsusp : ∀ o, s'.pc ≠ .susp o ∧ s'.pc ≠ .retry o) (hrecv : s'.pc ≠ .call .recv)
      (hclean : ∀ t, s.pc = .cleanup t → s'.pc = .cleanup t)
      (hshape : s'.Shape) : Moves w w' sid fresh s c (.running s')
  | closes {p : Addr} {a : AsyncFd Handle} {t : Bool} (hpc : s.pc = .done t)
      (hp : s.ptr .socket = some p) (hw : w.Drops w' p a) : Moves w w' sid fresh s c .ended
  | exits {o : Op} {p : Addr} {a : AsyncFd Handle} (hpc : s.pc = .call o)
      (hp : s.ptr o.role = some p) (ha : w.heap p = some a)
      (hw : w.Puts w' p (a.begun o) o.watches) :
      Moves w w' sid fresh s c .exited

variable {w w' : World Handle} {sid fresh : ℕ}

theorem watchCalls_unwatch {o : Op} {p : Addr}
    (h : Call.applyAll (watchCalls o p ++ [.unwatch o.dir p]) w = some w') :
    ∃ a, w.heap p = some a ∧
      w.Puts w' p { a with ioNewState := a.ioState &&& ~~~o.dir.bit } true := by
  unfold watchCalls at h
  split_ifs at h
  · simp only [List.singleton_append, Call.applyAll_cons_iff, Call.applyAll_nil,
      Option.some.injEq] at h
    obtain ⟨h1, -, rfl⟩ := h
    obtain ⟨a, ha⟩ := Option.isSome_iff_exists.1 h1
    have hput := World.watch_puts ha o.dir
    have hput' := World.unwatch_puts (w := w.watch o.dir p) (p := p)
      (a := { a with ioNewState := a.ioState ||| o.dir.bit }) (by rw [hput.heap]; simp) o.dir
    exact ⟨a, ha, hput.trans hput'⟩
  · simp only [List.nil_append, Call.applyAll_cons_iff, Call.applyAll_nil, Option.some.injEq] at h
    obtain ⟨h1, rfl⟩ := h
    obtain ⟨a, ha⟩ := Option.isSome_iff_exists.1 h1
    exact ⟨a, ha, World.unwatch_puts ha o.dir⟩

theorem watchCalls_suspend {o : Op} {p : Addr} {h : Handle}
    (hw : Call.applyAll (watchCalls o p ++ [.suspend o.dir p h]) w = some w') :
    ∃ a, w.heap p = some a ∧ w.Puts w' p ((a.begun o).setCoro o.dir h) o.watches := by
  unfold watchCalls at hw
  unfold AsyncFd.begun
  split_ifs at hw with ho
  · simp only [List.singleton_append, Call.applyAll_cons_iff, Call.applyAll_nil,
      Option.some.injEq] at hw
    obtain ⟨h1, -, rfl⟩ := hw
    obtain ⟨a, ha⟩ := Option.isSome_iff_exists.1 h1
    have hput := World.watch_puts ha o.dir
    have hput' := World.suspend_puts (w := w.watch o.dir p) (p := p)
      (a := { a with ioNewState := a.ioState ||| o.dir.bit }) (by rw [hput.heap]; simp) o.dir h
    refine ⟨a, ha, ?_⟩
    rw [if_pos ho, ho]
    exact hput.trans hput'
  · simp only [List.nil_append, Call.applyAll_cons_iff, Call.applyAll_nil, Option.some.injEq] at hw
    obtain ⟨h1, rfl⟩ := hw
    obtain ⟨a, ha⟩ := Option.isSome_iff_exists.1 h1
    refine ⟨a, ha, ?_⟩
    rw [if_neg ho, Bool.eq_false_iff.2 ho]
    exact World.suspend_puts ha o.dir h

theorem watchCalls_alone {o : Op} {p : Addr} (ho : o.watches)
    (h : Call.applyAll (watchCalls o p) w = some w') :
    ∃ a, w.heap p = some a ∧ w.Puts w' p (a.begun o) o.watches := by
  unfold watchCalls at h
  unfold AsyncFd.begun
  rw [if_pos ho] at h
  simp only [Call.applyAll_cons_iff, Call.applyAll_nil, Option.some.injEq] at h
  obtain ⟨h1, rfl⟩ := h
  obtain ⟨a, ha⟩ := Option.isSome_iff_exists.1 h1
  refine ⟨a, ha, ?_⟩
  rw [if_pos ho, ho]
  exact World.watch_puts ha o.dir

/-- The shape of the session after an operation. -/
theorem Shape.complete (hs : s.Shape) {o : Op} (hpc : s.pc = .call o ∨ s.pc = .retry o) (r : Sys)
    (dr : Bool) : (s.complete o r dr).Shape := by
  have hholds : ∀ r' p, s.ptr r' = some p → o.holds r' := by
    intro r' p hp
    have h := hs.holds r' p hp
    rcases hpc with hpc | hpc <;> simpa [hpc, Pc.holds] using h
  have hpcs := complete_pc s o r dr
  refine .of_holds (fun r' p hp => ?_) ?_
  · rw [(complete_rest s o r dr).1] at hp
    have h := hholds r' p hp
    rcases hpcs with ⟨rfl, e | e⟩ | ⟨rfl, e⟩ | ⟨rfl, e | e | e⟩ | ⟨rfl, e | e⟩ | ⟨rfl, e⟩ <;>
      rw [e] <;> cases r' <;> simp_all [Op.holds, Pc.holds]
  · rcases hpcs with ⟨-, e | e⟩ | ⟨-, e⟩ | ⟨-, e | e | e⟩ | ⟨-, e | e⟩ | ⟨-, e⟩ <;> rw [e] <;> simp

/-- A call that may suspend was made on a valid descriptor. -/
theorem fd_of_allows {o : Op} {p : Addr} {r : Sys} {a : AsyncFd Handle} (h : allows w o p r)
    (hb : o.blocks r) (ha : w.heap p = some a) : o = .whaitforprocesstodie ∨ a.fd ≠ -1 := by
  by_cases ho : o = .whaitforprocesstodie
  · exact Or.inl ho
  · right
    have hr : r = .wouldBlock := by cases o <;> simp_all [Op.blocks]
    subst hr
    simp [allows, ha, ho] at h
    exact h.2

/-- A `recv` that has returned bytes was made on a valid descriptor. -/
theorem fd_of_completes {p : Addr} {r : Sys} {a : AsyncFd Handle} (h : allows w .recv p r)
    (hr : r.completes) (ha : w.heap p = some a) : a.fd ≠ -1 := by
  have hne : r ≠ .failed := by
    rintro rfl
    simp [Sys.completes] at hr
  simp [allows, ha, hne] at h
  exact h.2

theorem drops_of_destroy {p : Addr} {a : AsyncFd Handle} (ha : w.heap p = some a) (hfd : a.fd ≠ -1)
    (h : Call.applyAll [.destroy p] w = some w') : w.Drops w' p a := by
  simp only [Call.applyAll_cons_iff, Call.applyAll_nil, Option.some.injEq] at h
  obtain ⟨-, rfl⟩ := h
  exact World.destroy_drops ha hfd

/-- `finishwriting` and `finishReading`. -/
theorem drops_of_finish {d : Dir} {p : Addr} {a : AsyncFd Handle} (ha : w.heap p = some a)
    (hfd : a.fd ≠ -1) (h : Call.applyAll [.unwatch d p, .destroy p] w = some w') :
    w.Drops w' p a := by
  simp only [Call.applyAll_cons_iff, Call.applyAll_nil, Option.some.injEq] at h
  obtain ⟨-, -, rfl⟩ := h
  have hput := World.unwatch_puts ha d
  refine hput.drops ha rfl (World.destroy_drops ?_ hfd)
  rw [hput.heap]
  simp

theorem live_of_calls {d : Dir} {p : Addr}
    (h : Call.applyAll [.destroy p] w = some w' ∨
      Call.applyAll [.unwatch d p, .destroy p] w = some w') : ∃ a, w.heap p = some a := by
  rcases h with h | h
  · exact Option.isSome_iff_exists.1 (Call.applyAll_cons_iff.1 h).1
  · exact Option.isSome_iff_exists.1 (Call.applyAll_cons_iff.1 h).1

/-- What the calls of a step do, if the objects of the session fit its place and have valid
descriptors. -/
theorem moves {c : Choice} {act : Act} (h : StepCase w sid fresh s c act)
    (hw : Call.applyAll act.calls w = some w') (hs : s.Shape)
    (hvalid : ∀ r p a, s.ptr r = some p → w.heap p = some a → a.fd = -1 → s.pc = .call .recv) :
    Moves w w' sid fresh s c act.after := by
  -- the destruction of an object of the session, anywhere but at the first `recv`
  have hdrop : ∀ {d : Dir} {r : Role} {p : Addr}, s.pc ≠ .call .recv → s.ptr r = some p →
      (Call.applyAll [.destroy p] w = some w' ∨
        Call.applyAll [.unwatch d p, .destroy p] w = some w') → ∃ a, w.Drops w' p a := by
    intro d r p hpc hp hcalls
    obtain ⟨a, ha⟩ := live_of_calls hcalls
    have hfd : a.fd ≠ -1 := fun e => hpc (hvalid r p a hp ha e)
    rcases hcalls with hc | hc
    · exact ⟨a, drops_of_destroy ha hfd hc⟩
    · exact ⟨a, drops_of_finish ha hfd hc⟩
  -- only descriptors of the session itself are closed
  have hkeep : (∀ c ∈ act.calls, c.isRaw) → (∀ fd, .closeFd fd ∈ act.calls → fd ∈ s.rawFds) →
      w.Raw s.rawFds → w'.interest = w.interest := fun h1 h2 hr =>
    Call.applyAll_raw_interest h1 (fun fd hfd => hr.interest fd (h2 fd hfd)) hw
  cases h with
  | value hpc hp hall hr =>
    obtain ⟨a, ha, hput⟩ := watchCalls_unwatch hw
    refine .completes (Or.inl hpc) hp ha (fun e => ?_) hput (hs.complete (Or.inl hpc) _ _)
    rw [e] at hpc
    cases hpc
    exact fd_of_completes hall hr ha
  | block hpc hp hall _ hb =>
    obtain ⟨a, ha, hput⟩ := watchCalls_suspend hw
    refine .suspends hpc hp ha (fd_of_allows hall hb ha) hput (.of_holds (fun r p hp => ?_) ?_)
    · simpa [hpc, Pc.holds] using hs.holds r p hp
    · simp
  | error hpc hp ho =>
    obtain ⟨a, ha, hput⟩ := watchCalls_alone ho hw
    exact .exits hpc hp ha hput
  | retry hpc hp _ =>
    simp only [Call.applyAll_cons_iff, Call.applyAll_nil, Option.some.injEq] at hw
    obtain ⟨h1, rfl⟩ := hw
    obtain ⟨a, ha⟩ := Option.isSome_iff_exists.1 h1
    exact .completes (Or.inr hpc) hp ha (by simp [hpc]) (World.unwatch_puts ha _)
      (hs.complete (Or.inr hpc) _ _)
  | pipeW hpc =>
    have hfd := (Call.applyAll_cons_iff.1 (Call.applyAll_cons_iff.1 hw).2).1
    simp only [Call.enabled, Bool.and_eq_true, decide_eq_true_eq] at hfd
    exact .raw (Call.applyAll_raw (by simp [Call.isRaw]) hw) rfl rfl rfl (by simp [hpc])
      (by simp) (by simp)
      (by simp [hpc]) ⟨hs.holds_mono (by rw [hpc]; rintro ⟨⟩ <;> simp [Pc.holds]), fun _ => hfd.2,
        by simp, by simp⟩
      (hkeep (by simp [Call.isRaw]) (by simp [rawFds, hpc]))
  | pipeWFail hpc =>
    exact .raw (Call.applyAll_raw (by simp) hw) rfl rfl rfl (by simp [hpc]) (by simp) (by simp)
      (by simp [hpc])
      (.of_holds (hs.holds_mono (by rw [hpc]; rintro ⟨⟩ <;> simp [Pc.holds])) (by simp))
      (hkeep (by simp) (by simp))
  | pipeR hpc =>
    have hfd := (Call.applyAll_cons_iff.1 hw).1
    simp only [Call.enabled, Bool.and_eq_true, decide_eq_true_eq] at hfd
    exact .raw (Call.applyAll_raw (by simp [Call.isRaw]) hw) rfl rfl rfl (by simp [hpc])
      (by simp) (by simp)
      (by simp [hpc]) ⟨hs.holds_mono (by rw [hpc]; rintro ⟨⟩ <;> simp [Pc.holds]),
        fun _ => hs.wValid (Or.inl hpc), fun _ => hfd.2, by simp⟩
      (hkeep (by simp [Call.isRaw]) (by simp [rawFds, hpc]))
  | pipeRFail hpc =>
    exact .raw (Call.applyAll_raw (by simp [Call.isRaw]) hw) rfl rfl rfl (by simp [hpc])
      (by simp) (by simp)
      (by simp [hpc])
      (.of_holds (hs.holds_mono (by rw [hpc]; rintro ⟨⟩ <;> simp [Pc.holds])) (by simp))
      (hkeep (by simp [Call.isRaw]) (by simp [rawFds, hpc]))
  | @attachRd p ok hpc =>
    simp only [Call.applyAll_cons_iff, Call.applyAll_nil, Option.some.injEq] at hw
    obtain ⟨hfree, -, rfl⟩ := hw
    refine .attaches (r := .readEnd) (by simp) (hs.ptr_none (by rw [hpc]; rfl)) (hs.rValid hpc)
      (World.attachReadonly_adds (by simpa [Call.enabled] using hfree) _ _) rfl rfl rfl (by simp [hpc])
      (fun o => ?_) ?_ (by simp [hpc]) (fun hb => ?_) ⟨fun r q hq => ?_, ?_, ?_, fun fd => ?_⟩
      (by simp [rawFds, hpc]) ⟨ok, rfl, rfl⟩ id
    · dsimp only; split_ifs <;> simp
    · dsimp only; split_ifs <;> simp
    · simp [hb]
    · have hr : r = .readEnd ∨ r = .socket := by
        by_contra hne
        rw [not_or] at hne
        have hq : s.ptr r = some q := by simpa [setPtr, Function.update_of_ne hne.1] using hq
        have := hs.holds r q hq
        rw [hpc] at this
        cases r <;> simp_all [Pc.holds]
      dsimp only
      rcases hr with rfl | rfl <;> split_ifs <;> rfl
    · exact fun _ => hs.wValid (Or.inr (Or.inl hpc))
    · dsimp only; split_ifs <;> simp
    · dsimp only; split_ifs <;> simp
  | @attachWr p ok hpc =>
    simp only [Call.applyAll_cons_iff, Call.applyAll_nil, Option.some.injEq] at hw
    obtain ⟨hfree, -, rfl⟩ := hw
    refine .attaches (r := .writeEnd) (b := true) (by simp) (hs.ptr_none (by rw [hpc]; rfl))
      (hs.wValid (Or.inr (Or.inr hpc)))
      (World.attachLogged_adds (by simpa [Call.enabled] using hfree) _ _ _) rfl rfl rfl (by simp [hpc])
      (by simp) (by simp) (by simp [hpc]) (by simp) (.of_holds (fun r q hq => ?_) (by simp))
      (by simp [rawFds, hpc]) ⟨ok, rfl, rfl⟩ (by simp)
    by_cases hr : r = .writeEnd
    · subst hr; rfl
    · have hq : s.ptr r = some q := by simpa [setPtr, Function.update_of_ne hr] using hq
      have := hs.holds r q hq
      rw [hpc] at this
      cases r <;> simp_all [Pc.holds]
  | fork hpc =>
    exact .raw (Call.applyAll_raw (by simp) hw) rfl rfl rfl (by simp [hpc]) (by simp) (by simp)
      (by simp [hpc])
      (.of_holds (hs.holds_mono (by rw [hpc]; rintro ⟨⟩ <;> simp [Pc.holds])) (by simp))
      (hkeep (by simp) (by simp))
  | forkFail hpc =>
    exact .raw (Call.applyAll_raw (by simp [Call.isRaw]) hw) rfl rfl rfl (by simp [hpc])
      (by simp) (by simp)
      (by simp [hpc]) (.of_holds (hs.holds_mono (by rintro ⟨⟩ <;> simp [Pc.holds])) (by simp))
      (hkeep (by simp [Call.isRaw]) (by simp [rawFds, hpc]))
  | pidfdOpen hpc =>
    have hfd := (Call.applyAll_cons_iff.1 hw).1
    simp only [Call.enabled, Bool.and_eq_true, decide_eq_true_eq] at hfd
    exact .raw (Call.applyAll_raw (by simp [Call.isRaw]) hw) rfl rfl rfl (by simp [hpc])
      (by simp) (by simp)
      (by simp [hpc]) ⟨hs.holds_mono (by rw [hpc]; rintro ⟨⟩ <;> simp [Pc.holds]), by simp, by simp,
        by simpa using hfd.2⟩
      (hkeep (by simp [Call.isRaw]) (by simp [rawFds, hpc]))
  | pidfdFail hpc =>
    exact .raw (Call.applyAll_raw (by simp) hw) rfl rfl rfl (by simp [hpc]) (by simp) (by simp)
      (by simp [hpc]) (.of_holds (hs.holds_mono (by rintro ⟨⟩ <;> simp [Pc.holds])) (by simp))
      (hkeep (by simp) (by simp))
  | @attachPw fd p ok hpc =>
    simp only [Call.applyAll_cons_iff, Call.applyAll_nil, Option.some.injEq] at hw
    obtain ⟨hfree, -, rfl⟩ := hw
    refine .attaches (r := .processWait) (by simp) (hs.ptr_none (by rw [hpc]; rfl))
      (hs.pidfdValid fd hpc) (World.attachReadonly_adds (by simpa [Call.enabled] using hfree) _ _) rfl rfl rfl (by simp [hpc])
      (fun o => ?_) ?_ (by simp [hpc]) (fun hb => ?_) (.of_holds (fun r q hq => ?_) ?_)
      (by simp [rawFds, hpc]) ⟨ok, rfl, rfl⟩ id
    · dsimp only; split_ifs <;> simp
    · dsimp only; split_ifs <;> simp
    · simp [hb]
    · dsimp only; split_ifs <;> cases r <;> rfl
    · dsimp only; split_ifs <;> simp
  | closeEnds hpc =>
    exact .raw (Call.applyAll_raw (by simp [Call.isRaw]) hw) rfl rfl rfl (by simp [hpc])
      (by simp) (by simp)
      (by simp [hpc]) (.of_holds (hs.holds_mono (by rintro ⟨⟩ <;> simp [Pc.holds, Op.holds])) (by simp))
      (hkeep (by simp [Call.isRaw]) (by simp [rawFds, hpc]))
  | finishwriting hpc hp =>
    obtain ⟨a, hd⟩ := hdrop (by simp [hpc]) hp (Or.inr hw)
    refine .drops (r := .writeEnd) (by simp) hp hd rfl rfl rfl (by simp [hpc]) (by simp) (by simp)
      (by simp [hpc])
      (.of_holds (fun r q hq => ?_) (by simp))
    cases r with
    | writeEnd => simp [setPtr] at hq
    | socket | readEnd | processWait => rfl
  | finishReading hpc hp =>
    obtain ⟨a, hd⟩ := hdrop (by simp [hpc]) hp (Or.inr hw)
    have hpc' := sendHead_pc { s.setPtr .readEnd none with vars := s.vars.stripFirstLine }
    refine .drops (r := .readEnd) (by simp) hp hd rfl rfl rfl (by simp [hpc]) (fun o => ?_) ?_
      (by simp [hpc])
      (.of_holds (fun r q hq => ?_) ?_)
    · rcases hpc' with e | e <;> rw [e] <;> simp
    · rcases hpc' with e | e <;> rw [e] <;> simp
    · have hr : r = .socket ∨ r = .processWait := by
        by_cases hr : r = .readEnd
        · subst hr
          simp [setPtr, sendHead] at hq
        · have hq : s.ptr r = some q := by
            simpa [setPtr, sendHead, Function.update_of_ne hr] using hq
          have := hs.holds r q hq
          rw [hpc] at this
          cases r <;> simp_all [Pc.holds]
      rcases hpc' with e | e <;> rw [e] <;> rcases hr with rfl | rfl <;> rfl
    · rcases hpc' with e | e <;> rw [e] <;> simp
  | @cleanup thrown r p hpc hr hp =>
    obtain ⟨a, hd⟩ := hdrop (d := .read) (by simp [hpc]) hp (Or.inl hw)
    refine .drops hr hp hd rfl rfl rfl (by simp [hpc]) ?_ ?_ ?_ (.of_holds (fun r q hq => ?_) ?_)
    · simp [setPtr, hpc]
    · simp [setPtr, hpc]
    · simp [setPtr, hpc]
    · simp only [setPtr, hpc]
      cases r <;> rfl
    · simp [setPtr, hpc]
  | cleaned hpc hp =>
    refine .raw (Call.applyAll_raw (by simp) hw) rfl rfl rfl (by simp [hpc]) (by simp) (by simp)
      (fun _ _ => hp)
      (.of_holds (fun r q hq => ?_) (by simp)) (hkeep (by simp) (by simp))
    by_cases hr : r = .socket
    · subst hr; rfl
    · have hq : s.ptr r = some q := hq
      rw [hp r hr] at hq
      cases hq
  | close hpc hp =>
    obtain ⟨a, hd⟩ := hdrop (d := .read) (by simp [hpc]) hp (Or.inl hw)
    exact .closes hpc hp hd
  | again hpc =>
    exact .again (Call.applyAll_raw (by simp) hw) hpc
      (.of_holds (hs.holds_mono (by rw [hpc]; rintro ⟨⟩ <;> simp [Pc.holds, Op.holds])) (by simp))
      (Call.applyAll_raw_interest (by simp) (by simp) hw)

end Session

/-- An object of somebody else stays as it is. -/
theorem Session.Moves.frame {w w' : World Handle} {sid fresh : ℕ} {s : Session} {c : Choice}
    {after : After} (h : Session.Moves w w' sid fresh s c after) {q : Addr} {a : AsyncFd Handle}
    (hq : w.heap q = some a) (hne : ∀ r, s.ptr r ≠ some q) :
    w'.heap q = some a ∧ (q ∈ w'.managedFd ↔ q ∈ w.managedFd) ∧
      (q ∈ w'.processedSockets ↔ q ∈ w.processedSockets) := by
  have hp : ∀ {r p}, s.ptr r = some p → q ≠ p := by
    rintro r p hp rfl
    exact hne r hp
  cases h with
  | raw hw | again hw => rw [hw.heap, hw.managed, hw.processed]; exact ⟨hq, Iff.rfl, Iff.rfl⟩
  | completes _ hp' _ _ hw | suspends _ hp' _ _ hw | exits _ hp' _ hw =>
    exact hw.frame (hp hp') hq
  | attaches _ _ _ hw => exact hw.frame hq
  | drops _ hp' hw | closes _ hp' hw => exact hw.frame (hp hp') hq

/-! ### The `accept` coroutine -/

/-- What a step of the `accept` coroutine does to the objects. -/
inductive Coros.AcceptMoves (w w' : World Handle) (co : Coros) (c : Choice) : Coros → Prop
  | boots {p : Addr} {fd : Fd} {oid : ℕ} {b : Bool} {w₁ w₂ : World Handle}
      (hpc : co.acceptor = .boot) (hfd : 0 ≤ fd) (hw₁ : w.Same w₁)
      (hw₂ : w₁.Adds w₂ p { oid := oid, fd := fd, ioState := EPOLLIN ||| EPOLLET } true b)
      (hw' : w₂.Puts w' p
        { oid := oid, fd := fd, ioState := EPOLLIN ||| EPOLLET,
          ioNewState := (EPOLLIN ||| EPOLLET) ||| EPOLLIN } true)
      (hint : w₁.interest = w.interest) (hfree : w.table fd = none)
      (hadd : ∃ ok, c = .boot p fd true ok ∧ (w.KernelOk → b = ok)) :
      AcceptMoves w w' co c { co with listen := p, acceptor := .call }
  | bootFails {p : Addr} {fd : Fd} {w₁ : World Handle} (hpc : co.acceptor = .boot) (hw₁ : w.Same w₁)
      (hp : w₁.heap p = none) (hw' : w' = w₁.create p fd) (hc : ∃ ok, c = .boot p fd false ok) :
      AcceptMoves w w' co c co
  | completes {fd : Fd} {a : AsyncFd Handle} {w₁ : World Handle}
      (hpc : co.acceptor = .call ∨ co.acceptor = .retry) (ha : w.heap co.listen = some a)
      (hw₁ : w.Puts w₁ co.listen { a with ioNewState := a.ioState &&& ~~~EPOLLIN } true)
      (hw' : w' = w₁ ∧ fd = -1 ∨ w₁.table fd = none ∧ 0 ≤ fd ∧ w' = w₁.openFd fd .connection)
      (hsame : w₁.Same w') :
      AcceptMoves w w' co c { co with acceptor := .made fd }
  | suspends {a : AsyncFd Handle} (hpc : co.acceptor = .call) (ha : w.heap co.listen = some a)
      (hw' : w.Puts w' co.listen
        ((a.begun .recv).setCoro .read (.accept co.acceptNo)) true) :
      AcceptMoves w w' co c
        { co with acceptor := .susp co.acceptNo, acceptNo := co.acceptNo + 1, running := .idle }
  | exits {a : AsyncFd Handle} (hpc : co.acceptor = .call) (ha : w.heap co.listen = some a)
      (hw' : w.Puts w' co.listen (a.begun .recv) true) : AcceptMoves w w' co c co
  | makes {fd : Fd} {p : Addr} {oid : ℕ} {b : Bool} (hpc : co.acceptor = .made fd)
      (hw' : w.Adds w' p { oid := oid, fd := fd, ioState := EPOLLIN ||| EPOLLET } true b)
      (hadd : ∃ ok, c = .object p ok ∧ b = w.addSucceeds fd ok) :
      AcceptMoves w w' co c
        { co.setSession co.nextFrame (some (.start co.nextFrame p)) with
          acceptor := .call
          nextFrame := co.nextFrame + 1
          running := .session co.nextFrame true }

/-- A session was there before, or it has just been started with a new `Socket`. -/
theorem Coros.AcceptMoves.session_cases {w w' : World Handle} {co co' : Coros} {c : Choice}
    (h : Coros.AcceptMoves w w' co c co') {sid : ℕ} {t : Session} (ht : co'.sessions sid = some t) :
    co.sessions sid = some t ∨ ∃ p oid fd, t = .start co.nextFrame p ∧
      w'.heap p = some { oid := oid, fd := fd, ioState := EPOLLIN ||| EPOLLET } := by
  cases h with
  | boots | bootFails | completes | suspends | exits => exact Or.inl ht
  | @makes fd p oid b _ hw' =>
    simp only [Coros.setSession, Function.update_apply] at ht
    split_ifs at ht with e
    · exact Or.inr ⟨p, oid, fd, (Option.some.inj ht).symm, by rw [hw'.heap, Function.update_self]⟩
    · exact Or.inl ht

/-- An object of a session stays as it is. -/
theorem Coros.AcceptMoves.frame {w w' : World Handle} {co co' : Coros} {c : Choice}
    (h : Coros.AcceptMoves w w' co c co') {q : Addr} {a : AsyncFd Handle} (hq : w.heap q = some a)
    (hne : co.acceptor ≠ .boot → q ≠ co.listen) :
    w'.heap q = some a ∧ (q ∈ w'.managedFd ↔ q ∈ w.managedFd) ∧
      (q ∈ w'.processedSockets ↔ q ∈ w.processedSockets) := by
  cases h with
  | boots hpc _ hw₁ hw₂ hw' =>
    have h₁ : _ = some a := (congrFun hw₁.heap q).trans hq
    have h₂ := hw₂.frame h₁
    have hqp : q ≠ _ := hw₂.ne_of_live h₁
    obtain ⟨h3, h4, h5⟩ := hw'.frame hqp h₂.1
    exact ⟨h3, h4.trans (h₂.2.1.trans (by rw [hw₁.managed])),
      h5.trans (h₂.2.2.trans (by rw [hw₁.processed]))⟩
  | @bootFails p fd w₁ hpc hw₁ hp hw' =>
    have h₁ : w₁.heap q = some a := (congrFun hw₁.heap q).trans hq
    have hqp : q ≠ p := by
      rintro rfl
      rw [hp] at h₁
      cases h₁
    subst hw'
    refine ⟨?_, by rw [← hw₁.managed]; rfl, by rw [← hw₁.processed]; rfl⟩
    simpa [World.create, Function.update_of_ne hqp] using h₁
  | completes hpc _ hw₁ _ hsame =>
    exact (hw₁.toSets.same hsame).frame (hne (by rcases hpc with e | e <;> simp [e])) hq
  | suspends hpc _ hw' | exits hpc _ hw' => exact hw'.frame (hne (by simp [hpc])) hq
  | makes _ hw' => exact hw'.frame hq

namespace Coros

variable {w w' : World Handle} {co : Coros}

/-- A step of the running coroutine is one of the `accept` coroutine or of a session. -/
theorem StepCase.acceptor_or_session {c : Choice} {m : Move Handle Coros} (h : StepCase w co c m)
    (hw : Call.applyAll m.calls w = some w') :
    (co.running = .acceptor ∧ AcceptMoves w w' co c m.next) ∨
    ∃ sid via s act pr, co.running = .session sid via ∧ co.sessions sid = some s ∧
      Session.StepCase w sid co.nextFrame s c act ∧
      co.procs.apply s w.table act.effect = some pr ∧
      m = ⟨act.calls, { co.settle sid via act.after with procs := pr }, status via act.after⟩ := by
  cases h with
  | @boot p fd ok hrun hpc =>
    refine Or.inl ⟨hrun, ?_⟩
    simp only [Call.applyAll_cons_iff, Call.applyAll_nil, Option.some.injEq] at hw
    obtain ⟨hfd, hfree, -, -, rfl⟩ := hw
    have hfree' : (w.openFd fd .listening).heap p = none := by
      simpa [Call.enabled, Call.apply] using hfree
    have hadd := World.attachLogged_adds hfree' fd (EPOLLIN ||| EPOLLET) ok
    have hput := World.watch_puts (w := ((w.openFd fd .listening).create p fd).attach p ok) (p := p)
      (by rw [World.attach, hadd.heap, Function.update_self]) .read
    simp only [Call.enabled, Bool.and_eq_true, decide_eq_true_eq, Option.isNone_iff_eq_none] at hfd
    have hsame : w.Same (w.openFd fd .listening) := ⟨rfl, rfl, rfl⟩
    refine .boots hpc hfd.2 hsame hadd hput rfl hfd.1 ⟨ok, rfl, fun hk => ?_⟩
    exact (World.Raw.nil.openFd hk hfd.1 _).addSucceeds List.mem_cons_self ok
  | @bootFail p fd ok hrun hpc =>
    refine Or.inl ⟨hrun, ?_⟩
    simp only [Call.applyAll_cons_iff, Call.applyAll_nil, Option.some.injEq] at hw
    obtain ⟨-, hfree, rfl⟩ := hw
    have hsame : w.Same (w.openFd fd .listening) := ⟨rfl, rfl, rfl⟩
    exact .bootFails hpc hsame (by simpa [Call.enabled, Call.apply] using hfree) rfl ⟨ok, rfl⟩
  | @acceptOk fd hrun hpc =>
    refine Or.inl ⟨hrun, ?_⟩
    have hw : Call.applyAll ((Session.watchCalls .recv co.listen ++ [.unwatch .read co.listen]) ++
      [.openFd fd .connection]) w = some w' := hw
    obtain ⟨w₁, h₁, h₂⟩ := Call.applyAll_append_iff.1 hw
    obtain ⟨a, ha, hput⟩ := Session.watchCalls_unwatch h₁
    simp only [Call.applyAll_cons_iff, Call.applyAll_nil, Option.some.injEq, Call.enabled,
      Bool.and_eq_true, decide_eq_true_eq, Option.isNone_iff_eq_none] at h₂
    exact .completes (Or.inl hpc) ha hput (Or.inr ⟨h₂.1.1, h₂.1.2, h₂.2.symm⟩)
      (h₂.2 ▸ ⟨rfl, rfl, rfl⟩)
  | acceptBlock hrun hpc =>
    refine Or.inl ⟨hrun, ?_⟩
    obtain ⟨a, ha, hput⟩ := Session.watchCalls_suspend (o := .recv) hw
    exact .suspends hpc ha hput
  | acceptFail hrun hpc =>
    refine Or.inl ⟨hrun, ?_⟩
    obtain ⟨a, ha, hput⟩ := Session.watchCalls_alone (o := .recv) rfl hw
    exact .exits hpc ha hput
  | @retryOk fd hrun hpc =>
    refine Or.inl ⟨hrun, ?_⟩
    simp only [Call.applyAll_cons_iff, Call.applyAll_nil, Option.some.injEq] at hw
    obtain ⟨h₁, h₂, rfl⟩ := hw
    obtain ⟨a, ha⟩ := Option.isSome_iff_exists.1 h₁
    simp only [Call.enabled, Bool.and_eq_true, decide_eq_true_eq, Option.isNone_iff_eq_none] at h₂
    exact .completes (Or.inr hpc) ha (World.unwatch_puts ha .read) (Or.inr ⟨h₂.1, h₂.2, rfl⟩)
      ⟨rfl, rfl, rfl⟩
  | retryFail hrun hpc =>
    refine Or.inl ⟨hrun, ?_⟩
    simp only [Call.applyAll_cons_iff, Call.applyAll_nil, Option.some.injEq] at hw
    obtain ⟨h₁, rfl⟩ := hw
    obtain ⟨a, ha⟩ := Option.isSome_iff_exists.1 h₁
    exact .completes (Or.inr hpc) ha (World.unwatch_puts ha .read) (Or.inl ⟨rfl, rfl⟩)
      ⟨rfl, rfl, rfl⟩
  | @made fd p ok hrun hpc =>
    refine Or.inl ⟨hrun, ?_⟩
    simp only [Call.applyAll_cons_iff, Call.applyAll_nil, Option.some.injEq] at hw
    obtain ⟨hfree, -, rfl⟩ := hw
    exact .makes hpc (World.attachLogged_adds (by simpa [Call.enabled] using hfree) _ _ _)
      ⟨ok, rfl, rfl⟩
  | session hrun hs hact hpr => exact Or.inr ⟨_, _, _, _, _, hrun, hs, hact, hpr, rfl⟩

end Coros

end EpollCoroutine
