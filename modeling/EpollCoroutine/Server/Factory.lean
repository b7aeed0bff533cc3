import EpollCoroutine.Epoll.Holds
import EpollCoroutine.Server.Session

/-!
# `PipedAsyncCommand::factory`

The construction of a `PipedAsyncCommand` as one function of the outcomes of the calls that
`PipedAsyncCommand::init` makes in the parent, with the destruction of the object when the
construction has failed. `Session.step` takes the same calls one at a time (`session_factory`).

* `Outcomes`: what the calls return, and where `std::make_shared` places the three objects.
  `Outcomes.Possible` is what the kernel and the allocator promise: new numbers, free storage.
* `init`, `factory`, and `PipedAsyncCommand.destroy`, the destructor.
* `Outcomes.Leaks`: the outcomes after which descriptors stay open. `factory_restores_iff`: these
  are the only failures that leave anything behind.
-/

namespace EpollCoroutine

/-- The outcomes of the calls of `PipedAsyncCommand::init`, in their order; `none` and `false` are
failures. A call that is not made has no outcome that matters. -/
structure Outcomes where
  pipeW : Option (Fd × Fd)
  pipeR : Option (Fd × Fd)
  readEnd : Addr
  addRead : Bool
  writeEnd : Addr
  addWrite : Bool
  fork : Option Pid
  pidfdOpen : Option Fd
  processWait : Addr
  addProcess : Bool

/-- The shared pointers of a `PipedAsyncCommand`. -/
structure PipedAsyncCommand where
  asyncReadEndFd : Option Addr := none
  asyncWriteEndFd : Option Addr := none
  asyncProcessWaitFd : Option Addr := none
  deriving DecidableEq

/-- How `init` ends: it returns success or an error condition, or `attachReadonly` has thrown. -/
inductive InitResult
  | success
  | error
  | thrown
  deriving DecidableEq

section Code

variable {H : Type}

/-- `pipe(fds)`. -/
def World.openPipe (w : World H) (n : ℕ) (fds : Fd × Fd) : World H :=
  (w.openFd fds.1 (.pipeEnd n .read)).openFd fds.2 (.pipeEnd n .write)

/-- `init` in the parent, after `fork` has returned `pid`. -/
def initProcess (o : Outcomes) (mFdW mFdR : Fd × Fd) (pid : Pid) (w : World H) :
    World H × PipedAsyncCommand × InitResult :=
  match o.pidfdOpen with
  | none => (w, ⟨some o.readEnd, some o.writeEnd, none⟩, .error)
  | some pidFd =>
    let w₁ := (w.openFd pidFd (.pidfd pid)).create o.processWait pidFd
    let w₂ := w₁.attachReadonly o.processWait o.addProcess
    let c : PipedAsyncCommand := ⟨some o.readEnd, some o.writeEnd, some o.processWait⟩
    if w₁.attachReadonlyReturns o.processWait o.addProcess then
      ((w₂.closeFd mFdW.1).closeFd mFdR.2, c, .success)
    else (w₂, c, .thrown)

/-- `init` after both calls of `pipe`. A failing `fork` closes the ends of the child and resets both
pointers. -/
def initEnds (o : Outcomes) (mFdW mFdR : Fd × Fd) (w : World H) :
    World H × PipedAsyncCommand × InitResult :=
  let w₁ := w.create o.readEnd mFdR.1
  let w₂ := w₁.attachReadonly o.readEnd o.addRead
  if w₁.attachReadonlyReturns o.readEnd o.addRead then
    let w₃ := (w₂.create o.writeEnd mFdW.2).attachWriteOnly o.writeEnd o.addWrite
    match o.fork with
    | none =>
      ((((w₃.closeFd mFdW.1).closeFd mFdR.2).destroy o.readEnd).destroy o.writeEnd, {}, .error)
    | some pid => initProcess o mFdW mFdR pid w₃
  else (w₂, ⟨some o.readEnd, none, none⟩, .thrown)

/-- `PipedAsyncCommand::init` in the parent, in the call `frame` of `echo_loop`. -/
def init (frame : ℕ) (o : Outcomes) (w : World H) : World H × PipedAsyncCommand × InitResult :=
  match o.pipeW with
  | none => (w, {}, .error)
  | some mFdW =>
    let w₁ := w.openPipe (wPipe frame) mFdW
    match o.pipeR with
    | none => ((w₁.closeFd mFdW.2).closeFd mFdW.1, {}, .error)
    | some mFdR => initEnds o mFdW mFdR (w₁.openPipe (rPipe frame) mFdR)

/-- A `std::shared_ptr` that is the only one to its object goes away. -/
def World.destroyPtr (w : World H) : Option Addr → World H
  | none => w
  | some p => w.destroy p

/-- `~PipedAsyncCommand`: two pointers are reset, and the members are destroyed. -/
def PipedAsyncCommand.destroy (c : PipedAsyncCommand) (w : World H) : World H :=
  ((w.destroyPtr c.asyncReadEndFd).destroyPtr c.asyncProcessWaitFd).destroyPtr c.asyncWriteEndFd

/-- The end of `factory`: an object whose `init` has not succeeded is destroyed. -/
def discard (x : World H × PipedAsyncCommand × InitResult) :
    World H × PipedAsyncCommand × InitResult :=
  if x.2.2 = .success then x else (x.2.1.destroy x.1, {}, x.2.2)

/-- `PipedAsyncCommand::factory`. -/
def factory (frame : ℕ) (o : Outcomes) (w : World H) : World H × PipedAsyncCommand × InitResult :=
  discard (init frame o w)

end Code

namespace Outcomes

variable (o : Outcomes)

/-- The descriptor numbers that the calls return. -/
def fds : List Fd :=
  (o.pipeW.toList ++ o.pipeR.toList).flatMap (fun x => [x.1, x.2]) ++ o.pidfdOpen.toList

/-- The addresses of the three objects. -/
def places : List Addr := [o.readEnd, o.writeEnd, o.processWait]

/-- The kernel gives out different numbers that are free, the allocator different places that are.
-/
structure Possible {H : Type} (w : World H) : Prop where
  distinct : o.fds.Nodup
  free : ∀ fd ∈ o.fds, 0 ≤ fd ∧ w.table fd = none
  apart : o.places.Nodup
  storage : ∀ p ∈ o.places, w.heap p = none

/-- Both pipes are there, and then the read end is refused by the kernel; or the child is there, and
then `pidfd_open` fails or its descriptor is refused. -/
def Leaks : Prop :=
  o.pipeW.isSome ∧ o.pipeR.isSome ∧
    (o.addRead = false ∨ (o.fork.isSome ∧ (o.pidfdOpen = none ∨ o.addProcess = false)))

instance : Decidable o.Leaks := inferInstanceAs (Decidable (_ ∧ _ ∧ (_ ∨ (_ ∧ (_ ∨ _)))))

end Outcomes

/-! ### The account of a construction -/

section Account

variable {H : Type} {w v : World H} {o : Outcomes} {W R : Fd × Fd} {frame : ℕ}

theorem World.Holds.openPipe {l : Set Fd} {objs : Set (Addr × Fd)} (h : w.Holds v l objs)
    (n : ℕ) (h1 : W.1 ∉ l) (h2 : W.2 ∉ insert W.1 l) (hW1 : 0 ≤ W.1 ∧ w.table W.1 = none)
    (hW2 : 0 ≤ W.2 ∧ w.table W.2 = none) :
    w.Holds (v.openPipe n W) (insert W.2 (insert W.1 l)) objs :=
  (h.openFd h1 hW1 _).openFd h2 hW2 _

/-- Both pipes have been created, and nothing else has happened. -/
structure BothPipes (w : World H) (o : Outcomes) (W R : Fd × Fd) (v : World H) : Prop where
  holds : w.Holds v {R.2, R.1, W.2, W.1} ∅
  ends : W.1 ≠ W.2 ∧ W.1 ≠ R.1 ∧ W.1 ≠ R.2 ∧ W.2 ≠ R.1 ∧ W.2 ≠ R.2 ∧ R.1 ≠ R.2
  pidfd : ∀ fd, o.pidfdOpen = some fd →
    (W.1 ≠ fd ∧ W.2 ≠ fd ∧ R.1 ≠ fd ∧ R.2 ≠ fd) ∧ 0 ≤ fd ∧ w.table fd = none
  read_ne_write : o.readEnd ≠ o.writeEnd
  read_ne_process : o.readEnd ≠ o.processWait
  write_ne_process : o.writeEnd ≠ o.processWait
  read_free : w.heap o.readEnd = none
  write_free : w.heap o.writeEnd = none
  process_free : w.heap o.processWait = none

theorem Outcomes.Possible.bothPipes (ho : o.Possible w) (hW : o.pipeW = some W)
    (hR : o.pipeR = some R) (frame : ℕ) :
    BothPipes w o W R ((w.openPipe (wPipe frame) W).openPipe (rPipe frame) R) := by
  have hfds : o.fds = W.1 :: W.2 :: R.1 :: R.2 :: o.pidfdOpen.toList := by
    simp [Outcomes.fds, hW, hR]
  have hnd := ho.distinct
  have hfree := ho.free
  rw [hfds] at hnd hfree
  simp only [List.nodup_cons, List.mem_cons, Option.mem_toList, not_or] at hnd
  obtain ⟨⟨hab, hac, had, hap⟩, ⟨hbc, hbd, hbp⟩, ⟨hcd, hcp⟩, hdp, -⟩ := hnd
  obtain ⟨⟨hrw, hrp⟩, hwp⟩ : (o.readEnd ≠ o.writeEnd ∧ o.readEnd ≠ o.processWait) ∧
      o.writeEnd ≠ o.processWait := by
    simpa [Outcomes.places] using ho.apart
  refine ⟨?_, ⟨hab, hac, had, hbc, hbd, hcd⟩, fun fd hfd => ?_, hrw, hrp, hwp,
    ho.storage _ (by simp [Outcomes.places]), ho.storage _ (by simp [Outcomes.places]),
    ho.storage _ (by simp [Outcomes.places])⟩
  · have h1 := (World.Holds.refl w).openPipe (wPipe frame) (W := W) (Set.notMem_empty _)
      (by simpa using Ne.symm hab) (hfree _ (by simp)) (hfree _ (by simp))
    have h2 := h1.openPipe (rPipe frame) (W := R) (by simp [Ne.symm hbc, Ne.symm hac])
      (by simp [Ne.symm hcd, Ne.symm hbd, Ne.symm had]) (hfree _ (by simp)) (hfree _ (by simp))
    simpa using h2
  · refine ⟨⟨?_, ?_, ?_, ?_⟩, hfree fd (by simp [hfd])⟩
    · rintro rfl; exact hap hfd
    · rintro rfl; exact hbp hfd
    · rintro rfl; exact hcp hfd
    · rintro rfl; exact hdp hfd

/-- The read end is refused: `attachReadonly` throws, and only the read end is closed. -/
theorem BothPipes.read_refused (h : BothPipes w o W R v) (hs : w.Sound) (hadd : o.addRead = false) :
    ∃ v', initEnds o W R v = (v', ⟨some o.readEnd, none, none⟩, .thrown) ∧
      w.Holds (v'.destroy o.readEnd) ({R.2, R.1, W.2, W.1} \ {R.1}) ∅ := by
  have hmem : R.1 ∈ ({R.2, R.1, W.2, W.1} : Set Fd) := by simp
  obtain ⟨hret, hv⟩ := h.holds.attachReadonly hs h.read_free (fun _ => Set.notMem_empty _) hmem
    (fun _ => Set.notMem_empty _) o.addRead
  refine ⟨(v.create o.readEnd R.1).attachReadonly o.readEnd o.addRead, ?_, ?_⟩
  · exact if_neg (by rw [hret, hadd]; decide)
  · simpa using hv.destroy hs (Set.mem_insert _ _)

/-- The read end is accepted; the write end is recorded in any case. -/
theorem BothPipes.attached (h : BothPipes w o W R v) (hs : w.Sound) (hadd : o.addRead = true) :
    ∃ v', w.Holds v' {R.2, R.1, W.2, W.1} {(o.writeEnd, W.2), (o.readEnd, R.1)} ∧
      initEnds o W R v = match o.fork with
        | none =>
          ((((v'.closeFd W.1).closeFd R.2).destroy o.readEnd).destroy o.writeEnd, {}, .error)
        | some pid => initProcess o W R pid v' := by
  have hmem : R.1 ∈ ({R.2, R.1, W.2, W.1} : Set Fd) := by simp
  have hmem' : W.2 ∈ ({R.2, R.1, W.2, W.1} : Set Fd) := by simp
  obtain ⟨hret, hv⟩ := h.holds.attachReadonly hs h.read_free (fun _ => Set.notMem_empty _) hmem
    (fun _ => Set.notMem_empty _) o.addRead
  obtain ⟨-, -, -, hbc, -⟩ := h.ends
  have hv' := hv.attachWriteOnly h.write_free (by simp [Ne.symm h.read_ne_write]) hmem'
    (by simp [hbc]) o.addWrite
  refine ⟨_, by simpa using hv', ?_⟩
  exact if_pos (by rw [hret, hadd])

/-- `fork` fails: everything is closed by hand or with its object. -/
theorem BothPipes.fork_failed (h : BothPipes w o W R v) (hs : w.Sound) (hadd : o.addRead = true)
    (hfork : o.fork = none) :
    ∃ v', initEnds o W R v = (v', {}, .error) ∧ w.Holds v' ∅ ∅ := by
  obtain ⟨v₁, hv, hinit⟩ := h.attached hs hadd
  obtain ⟨hab, hac, had, hbc, hbd, hcd⟩ := h.ends
  rw [hfork] at hinit
  refine ⟨_, hinit, ?_⟩
  have h1 := hv.closeFd hs.kernel (by simp) (by simp [hab, hac] : ∀ p, (p, W.1) ∉ _)
  have h2 := h1.closeFd hs.kernel (by simp [Ne.symm had])
    (by simp [Ne.symm hbd, Ne.symm hcd] : ∀ p, (p, R.2) ∉ _)
  have h3 := h2.destroy hs (by simp : (o.readEnd, R.1) ∈ _)
  have h4 := h3.destroy hs (by simp [Ne.symm h.read_ne_write] : (o.writeEnd, W.2) ∈ _)
  convert h4 using 1
  · ext x
    simp only [Set.mem_sdiff, Set.mem_insert_iff, Set.mem_singleton_iff, Set.mem_empty_iff_false]
    tauto
  · ext x
    simp only [Set.mem_sdiff, Set.mem_insert_iff, Set.mem_singleton_iff, Set.mem_empty_iff_false]
    tauto

/-- `pidfd_open` fails: the ends of the child stay open. -/
theorem BothPipes.pidfd_failed (h : BothPipes w o W R v) (hs : w.Sound) (hadd : o.addRead = true)
    {pid : Pid} (hfork : o.fork = some pid) (hpidfd : o.pidfdOpen = none) :
    ∃ v', initEnds o W R v = (v', ⟨some o.readEnd, some o.writeEnd, none⟩, .error) ∧
      w.Holds ((v'.destroy o.readEnd).destroy o.writeEnd)
        (({R.2, R.1, W.2, W.1} \ {R.1}) \ {W.2}) ∅ := by
  obtain ⟨v₁, hv, hinit⟩ := h.attached hs hadd
  rw [hfork] at hinit
  refine ⟨v₁, by simpa only [initProcess, hpidfd] using hinit, ?_⟩
  have h1 := hv.destroy hs (by simp : (o.readEnd, R.1) ∈ _)
  have h2 := h1.destroy hs (by simp [Ne.symm h.read_ne_write] : (o.writeEnd, W.2) ∈ _)
  convert h2 using 1
  ext x
  simp only [Set.mem_sdiff, Set.mem_insert_iff, Set.mem_singleton_iff, Set.mem_empty_iff_false]
  tauto

/-- `pidfd_open` succeeds, and the third object is handed to `attachReadonly`. -/
theorem BothPipes.pidfd_opened (h : BothPipes w o W R v) (hs : w.Sound) (hadd : o.addRead = true)
    {pid : Pid} (hfork : o.fork = some pid) {fd : Fd} (hpidfd : o.pidfdOpen = some fd) :
    ∃ v', w.Holds v' {fd, R.2, R.1, W.2, W.1}
        {(o.processWait, fd), (o.writeEnd, W.2), (o.readEnd, R.1)} ∧
      initEnds o W R v =
        if o.addProcess then ((v'.closeFd W.1).closeFd R.2,
          ⟨some o.readEnd, some o.writeEnd, some o.processWait⟩, .success)
        else (v', ⟨some o.readEnd, some o.writeEnd, some o.processWait⟩, .thrown) := by
  obtain ⟨v₁, hv, hinit⟩ := h.attached hs hadd
  obtain ⟨⟨hap, hbp, hcp, hdp⟩, hfd⟩ := h.pidfd fd hpidfd
  rw [hfork] at hinit
  have h1 := hv.openFd (by simp [Ne.symm hap, Ne.symm hbp, Ne.symm hcp, Ne.symm hdp]) hfd
    (.pidfd pid)
  obtain ⟨hret, h2⟩ := h1.attachReadonly hs h.process_free
    (by simp [Ne.symm h.read_ne_process, Ne.symm h.write_ne_process]) (Set.mem_insert _ _)
    (by simp [Ne.symm hbp, Ne.symm hcp]) o.addProcess
  refine ⟨_, h2, ?_⟩
  rw [hinit]
  simp only [initProcess, hpidfd, hret]

/-- Its descriptor is refused: `attachReadonly` throws, and the ends of the child stay open. -/
theorem BothPipes.pidfd_refused (h : BothPipes w o W R v) (hs : w.Sound) (hadd : o.addRead = true)
    {pid : Pid} (hfork : o.fork = some pid) {fd : Fd} (hpidfd : o.pidfdOpen = some fd)
    (hproc : o.addProcess = false) :
    ∃ v', initEnds o W R v =
        (v', ⟨some o.readEnd, some o.writeEnd, some o.processWait⟩, .thrown) ∧
      w.Holds (((v'.destroy o.readEnd).destroy o.processWait).destroy o.writeEnd)
        ((({fd, R.2, R.1, W.2, W.1} \ {R.1}) \ {fd}) \ {W.2}) ∅ := by
  obtain ⟨v₁, hv, hinit⟩ := h.pidfd_opened hs hadd hfork hpidfd
  rw [hproc] at hinit
  refine ⟨v₁, hinit, ?_⟩
  have h1 := hv.destroy hs (by simp : (o.readEnd, R.1) ∈ _)
  have h2 := h1.destroy hs (by simp [Ne.symm h.read_ne_process] : (o.processWait, fd) ∈ _)
  have h3 := h2.destroy hs (by simp [Ne.symm h.read_ne_write, h.write_ne_process] : (o.writeEnd, W.2) ∈ _)
  convert h3 using 1
  ext x
  simp only [Set.mem_sdiff, Set.mem_insert_iff, Set.mem_singleton_iff, Set.mem_empty_iff_false]
  tauto

/-- The first `pipe` succeeds. -/
theorem Outcomes.Possible.first (ho : o.Possible w) (hW : o.pipeW = some W) :
    W.1 ≠ W.2 ∧ (0 ≤ W.1 ∧ w.table W.1 = none) ∧ 0 ≤ W.2 ∧ w.table W.2 = none := by
  have hfds : o.fds = W.1 :: W.2 :: (o.pipeR.toList.flatMap (fun x => [x.1, x.2]) ++
      o.pidfdOpen.toList) := by
    simp [Outcomes.fds, hW]
  have hnd := ho.distinct
  have hfree := ho.free
  rw [hfds] at hnd hfree
  refine ⟨fun e => (List.nodup_cons.1 hnd).1 ?_, hfree _ (by simp), hfree _ (by simp)⟩
  rw [e]
  exact List.mem_cons_self

/-- The second `pipe` fails: the first is closed by hand. -/
theorem Outcomes.Possible.pipeR_failed (ho : o.Possible w) (hs : w.Sound) (hW : o.pipeW = some W)
    (n : ℕ) : w.Holds (((w.openPipe n W).closeFd W.2).closeFd W.1) ∅ ∅ := by
  obtain ⟨hab, hW1, hW2⟩ := ho.first hW
  have h1 := (World.Holds.refl w).openPipe n (Set.notMem_empty _)
    (by simpa using Ne.symm hab) hW1 hW2
  have h2 := h1.closeFd hs.kernel (Set.mem_insert _ _) (fun _ => Set.notMem_empty _)
  have h3 := h2.closeFd hs.kernel (by simp [hab] : W.1 ∈ _) (fun _ => Set.notMem_empty _)
  convert h3 using 1
  ext x
  simp

/-- How `factory` ends, and what is left of it when it has failed. -/
def Accounted (w : World H) (o : Outcomes) (x : World H × PipedAsyncCommand × InitResult) : Prop :=
  (x.2.2 = .success ∧ ¬ o.Leaks) ∨
    (x.2.2 ≠ .success ∧ ∃ l, w.Holds x.1 l ∅ ∧ (o.Leaks ↔ l.Nonempty))

theorem accounted_of_failure {c : PipedAsyncCommand} {r : InitResult} {l : Set Fd}
    (h : init frame o w = (v, c, r)) (hr : r ≠ .success) (hv : w.Holds (c.destroy v) l ∅)
    (hl : o.Leaks ↔ l.Nonempty) : Accounted w o (factory frame o w) := by
  have hfac : factory frame o w = (c.destroy v, {}, r) := by simp [factory, discard, h, hr]
  rw [hfac]
  exact Or.inr ⟨hr, l, hv, hl⟩

theorem BothPipes.accounted (h : BothPipes w o W R v) (hs : w.Sound)
    (hinit : init frame o w = initEnds o W R v) (hW : o.pipeW = some W) (hR : o.pipeR = some R) :
    Accounted w o (factory frame o w) := by
  obtain ⟨hab, hac, had, -⟩ := h.ends
  cases hadd : o.addRead with
  | false =>
    obtain ⟨v', hends, hv⟩ := h.read_refused hs hadd
    refine accounted_of_failure (hinit.trans hends) (by decide) hv (iff_of_true ?_ ⟨W.1, ?_⟩)
    · simp [Outcomes.Leaks, hW, hR, hadd]
    · simp [hac]
  | true =>
    cases hfork : o.fork with
    | none =>
      obtain ⟨v', hends, hv⟩ := h.fork_failed hs hadd hfork
      refine accounted_of_failure (hinit.trans hends) (by decide) hv (iff_of_false ?_ ?_)
      · simp [Outcomes.Leaks, hadd, hfork]
      · exact Set.not_nonempty_empty
    | some pid =>
      cases hpidfd : o.pidfdOpen with
      | none =>
        obtain ⟨v', hends, hv⟩ := h.pidfd_failed hs hadd hfork hpidfd
        refine accounted_of_failure (hinit.trans hends) (by decide) hv (iff_of_true ?_ ⟨W.1, ?_⟩)
        · simp [Outcomes.Leaks, hW, hR, hfork, hpidfd]
        · simp [hac, hab]
      | some fd =>
        have hap := (h.pidfd fd hpidfd).1.1
        cases hproc : o.addProcess with
        | false =>
          obtain ⟨v', hends, hv⟩ := h.pidfd_refused hs hadd hfork hpidfd hproc
          refine accounted_of_failure (hinit.trans hends) (by decide) hv (iff_of_true ?_ ⟨W.1, ?_⟩)
          · simp [Outcomes.Leaks, hW, hR, hfork, hproc]
          · simp [hac, hab, hap]
        | true =>
          obtain ⟨v', -, hends⟩ := h.pidfd_opened hs hadd hfork hpidfd
          rw [hends, hproc] at hinit
          refine Or.inl ⟨by simp [factory, discard, hinit], ?_⟩
          simp [Outcomes.Leaks, hadd, hpidfd, hproc]

theorem factory_accounted (frame : ℕ) (hs : w.Sound) (ho : o.Possible w) :
    Accounted w o (factory frame o w) := by
  cases hW : o.pipeW with
  | none =>
    have hinit : init frame o w = (w, {}, .error) := by simp only [init, hW]
    refine accounted_of_failure hinit (by decide) (World.Holds.refl w) (iff_of_false ?_ ?_)
    · simp [Outcomes.Leaks, hW]
    · exact Set.not_nonempty_empty
  | some W =>
    cases hR : o.pipeR with
    | none =>
      have hinit : init frame o w =
          (((w.openPipe (wPipe frame) W).closeFd W.2).closeFd W.1, {}, .error) := by
        simp only [init, hW, hR]
      refine accounted_of_failure hinit (by decide) (ho.pipeR_failed hs hW _) (iff_of_false ?_ ?_)
      · simp [Outcomes.Leaks, hR]
      · exact Set.not_nonempty_empty
    | some R =>
      refine (ho.bothPipes hW hR frame).accounted hs ?_ hW hR
      simp only [init, hW, hR]

end Account

/-- **A failed construction leaves nothing behind, except after two kinds of failures.** When the
read end is refused by the kernel, or when the child has been created and cannot be waited for, ends
of the pipes stay open that no object closes. -/
theorem factory_restores_iff {H : Type} (frame : ℕ) (o : Outcomes) (w : World H) (hs : w.Sound)
    (ho : o.Possible w) :
    ((factory frame o w).2.2 ≠ .success → w.Restored (factory frame o w).1) ↔ ¬ o.Leaks := by
  rcases factory_accounted frame hs ho with ⟨hok, hl⟩ | ⟨hne, l, hv, hl⟩
  · exact iff_of_true (fun h => absurd hok h) hl
  · constructor
    · intro hres hleak
      obtain ⟨fd, hfd⟩ := hl.1 hleak
      exact hv.not_restored hfd (hres hne)
    · intro hleak _
      rw [hl, Set.not_nonempty_iff_eq_empty] at hleak
      rw [hleak] at hv
      exact hv.restored

/-- A server with its listening `Socket` at address 1 and a connection at address 2. -/
def connectedWorld : World Handle :=
  (((((World.initial.openFd 3 .listening).create 1 3).attach 1 true).openFd 4 .connection).create 2
    4).attach 2 true

theorem connectedWorld_sound : connectedWorld.Sound where
  kernel := (((((World.KernelOk.initial.apply (c := .openFd 3 .listening) (by decide)).apply
    (c := .create 1 3) (by decide)).apply (c := .attach 1 true) (by decide)).apply
    (c := .openFd 4 .connection) (by decide)).apply (c := .create 2 4) (by decide)).apply
    (c := .attach 2 true) (by decide)
  managed_live := by
    have h : ∀ p ∈ connectedWorld.managedFd.elems, (connectedWorld.heap p).isSome := by decide
    exact fun p hp => Option.isSome_iff_exists.1 (h p hp)
  processed_live p hp := absurd hp (OrdSet.not_mem_empty p)

/-- Everything goes well until `fork` fails. -/
def forkFails : Outcomes where
  pipeW := some (5, 6)
  pipeR := some (7, 8)
  readEnd := 3
  addRead := true
  writeEnd := 4
  addWrite := true
  fork := none
  pidfdOpen := none
  processWait := 5
  addProcess := true

theorem forkFails_possible : forkFails.Possible connectedWorld where
  distinct := by decide
  free := by decide
  apart := by decide
  storage := by
    have h : ∀ p ∈ forkFails.places, (connectedWorld.heap p).isNone := by decide
    exact fun p hp => Option.isNone_iff_eq_none.1 (h p hp)

theorem factory_restores_fork :
    connectedWorld.Sound ∧ forkFails.Possible connectedWorld ∧
      (factory 0 forkFails connectedWorld).2.2 = .error ∧
      connectedWorld.Restored (factory 0 forkFails connectedWorld).1 := by
  have herr : (factory 0 forkFails connectedWorld).2.2 = .error := by decide
  refine ⟨connectedWorld_sound, forkFails_possible, herr, ?_⟩
  refine (factory_restores_iff 0 forkFails connectedWorld connectedWorld_sound
    forkFails_possible).2 (by decide) ?_
  rw [herr]
  decide

/-- The kernel refuses the read end. -/
def readRefused : Outcomes := { forkFails with addRead := false }

/-- Both ends of the first pipe and the write end of the second stay open. -/
theorem factory_leaks_ends :
    readRefused.Possible connectedWorld ∧
      (factory 0 readRefused connectedWorld).2.2 = .thrown ∧
      (∀ fd ∈ [5, 6, 8], ((factory 0 readRefused connectedWorld).1.table fd).isSome) ∧
      ¬ connectedWorld.Restored (factory 0 readRefused connectedWorld).1 := by
  have hopen : ∀ fd ∈ [5, 6, 8],
      ((factory 0 readRefused connectedWorld).1.table fd).isSome := by
    decide
  refine ⟨?_, by decide, hopen, fun hr => ?_⟩
  · exact ⟨forkFails_possible.distinct, forkFails_possible.free, forkFails_possible.apart,
      forkFails_possible.storage⟩
  · have h5 := hopen 5 (by decide)
    rw [hr.table] at h5
    revert h5
    decide

end EpollCoroutine
