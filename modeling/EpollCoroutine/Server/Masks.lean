import EpollCoroutine.Server.Sync

/-!
# Subscriptions

`watchRead` and `watchWrite` take effect at the next flush only, and the first `epoll_wait` has no
flush before it. If no `send` suspends before it, every suspended operation is registered with its
bit at every `epoll_wait` (`subscription_installed`); a `send` that does is not
(`send_not_subscribed`).

* `State.sendsEarly`: a `send` suspends before the first `epoll_wait`.
* `MasksOk`: the effective mask of an object contains the bit of the operation suspended on it.
-/

namespace EpollCoroutine

/-- A `send` would block before `run` has been called. -/
def State.sendsEarly (S : State) : Label Choice → Bool
  | .co (.sys .wouldBlock) => decide (S.ctl = .coro .start ∧ S.co.runningPc = some (.call .send))
  | _ => false

/-- The object on which an operation other than `send` works is attached with the bit that the
operation needs. -/
theorem Op.attached_bit {o : Op} (ho : o ≠ .send) : o.role.mask.has o.dir.bit := by
  cases o with
  | send => exact absurd rfl ho
  | recv | writepipe | readpipe | whaitforprocesstodie => decide

/-- The effective mask of an object contains the bit of the operation suspended on it. -/
def BitsKept (w : World Handle) (co : Coros) : Prop :=
  ∀ x d p a, co.SuspendedOn x d p → w.heap p = some a → (w.eff p a).has d.bit

/-- The process wait does not watch; until it has returned, its object has the mask with which it
was attached. -/
def ProcessWaits (w : World Handle) (co : Coros) : Prop :=
  ∀ sid s p a, co.sessions sid = some s → (∀ t, s.pc ≠ .cleanup t) →
    s.ptr .processWait = some p → w.heap p = some a →
    p ∉ w.processedSockets ∧ a.ioState.has EPOLLIN

/-- The bits of the suspended operations. -/
structure MasksOk (S : State) : Prop where
  synced : Synced S
  kept : BitsKept S.w S.co
  processWait : ProcessWaits S.w S.co
  early : S.ctl = .coro .start → ∀ sid s, S.co.sessions sid = some s → s.pc ≠ .susp .send
  installed : S.ctl = .epollWait → ∀ x d p a, S.co.SuspendedOn x d p → S.w.heap p = some a →
    a.ioState.has d.bit

/-! ### Steps of the coroutines -/

section Steps

variable {w w' : World Handle} {co co' : Coros} {sid : ℕ} {s : Session} {x : Handle} {d : Dir}
  {p : Addr} {c : Choice} {after : After}

/-- Who owns the object of a suspended operation. -/
theorem Coros.SuspendedOn.owns (h : co.SuspendedOn x d p) :
    (∃ n, x = .accept n ∧ co.Owns .acceptor p) ∨
    ∃ sid s o, x = .echo sid s.frame ∧ co.sessions sid = some s ∧ s.pc = .susp o ∧ o.dir = d ∧
      s.ptr o.role = some p := by
  cases x with
  | accept n =>
    obtain ⟨hn, rfl, rfl⟩ := h
    exact Or.inl ⟨n, rfl, by simp [hn], rfl⟩
  | echo sid f =>
    obtain ⟨s, o, hs, rfl, hrest⟩ := h
    exact Or.inr ⟨sid, s, o, rfl, hs, hrest⟩

/-- A resumption suspends nobody. -/
theorem Coros.SuspendedOn.of_resume {y : Handle} (hr : co.resume y = some co')
    (h : co'.SuspendedOn x d p) : co.SuspendedOn x d p := by
  rcases resume_cases hr with ⟨n, -, -, rfl⟩ | ⟨sid, s, o, -, hs, hpc, rfl⟩
  · cases x with
    | accept m => exact absurd h.1 (by simp)
    | echo sid f => exact h
  · cases x with
    | accept m => exact h
    | echo sid' f =>
      obtain ⟨t, o', ht, hf, hpc', hrest⟩ := h
      simp only [setSession, Function.update_apply] at ht
      split_ifs at ht with e
      · cases ht
        cases hpc'
      · exact ⟨t, o', ht, hf, hpc', hrest⟩

/-- The effective masks after a step of a session. -/
theorem BitsKept.moves (h : BitsKept w co) (hpw : ProcessWaits w co) (hob : ObjectsOk w co)
    (hs : co.sessions sid = some s) (hm : Session.Moves w w' sid co.nextFrame s c after)
    (via : Bool) : BitsKept w' (co.settle sid via after) := by
  intro x d p a hx ha
  -- what belongs to somebody else stays as it is
  have hother : ∀ {o}, co.SuspendedOn x d p → co.Owns o p → (∀ r, o ≠ .session sid r) →
      (w'.eff p a).has d.bit := by
    intro o hx ho hne
    obtain ⟨hheap, -, hproc⟩ := hob.frame hs hm ho hne
    rw [World.eff_congr hproc]
    exact h x d p a hx (hheap ▸ ha)
  rcases hx.owns with ⟨n, rfl, ho⟩ | ⟨sid', t, o, rfl, ht, hpc, rfl, hp⟩
  · have hx' : co.SuspendedOn (.accept n) d p := by simpa [Coros.SuspendedOn] using hx
    exact hother hx' (o := .acceptor) (by simpa [Coros.Owns] using ho) (by simp)
  · rw [Coros.settle_sessions hs, Function.update_apply] at ht
    split_ifs at ht with e
    · subst e
      have hafter := hm.eq_suspended ht hpc
      subst hafter
      cases hm with
      | @suspends o' q b hpc' hq hb _ hw =>
        cases hpc
        rw [show s.ptr o.role = some p from hp] at hq
        cases hq
        rw [hw.heap, Function.update_self] at ha
        cases ha
        rw [hw.toSets.eff_suspends]
        split_ifs with ho
        · exact (Mask.has_or _ _ _).2 (Or.inl rfl)
        · -- only the wait for the process does not watch
          have ho : o = .whaitforprocesstodie := by cases o <;> simp_all [Op.watches]
          subst ho
          obtain ⟨hnot, hin⟩ := hpw sid' s p b hs (by simp [hpc']) hp hb
          simpa [World.eff, hnot, Op.dir, Dir.bit] using hin
    · exact hother (o := .session sid' o.role) ⟨t, o, ht, rfl, hpc, rfl, hp⟩ ⟨t, ht, hp⟩
        (by simp [e])

/-- The effective masks after a step of the `accept` coroutine. -/
theorem BitsKept.accept (h : BitsKept w co) (hob : ObjectsOk w co)
    (hm : Coros.AcceptMoves w w' co c co') : BitsKept w' co' := by
  intro x d p a hx ha
  cases x with
  | accept n =>
    obtain ⟨hn, rfl, rfl⟩ := hx
    cases hm with
    | suspends _ _ hw' =>
      rcases hw'.toSets.heap_cases ha with ⟨-, rfl⟩ | ⟨hne, -⟩
      · have heff := World.Sets.eff_suspends (o := .recv) hw'.toSets
        exact heff ▸ (Mask.has_or _ .read .read).2 (Or.inl rfl)
      · exact absurd rfl hne
    | boots | completes | makes => cases hn
    | bootFails hpc | exits hpc => rw [hpc] at hn; cases hn
  | echo sid f =>
    obtain ⟨t, o, ht, hf, hpc, hd, hp⟩ := hx
    have ht' : co.sessions sid = some t := by
      rcases hm.session_cases ht with ht' | ⟨q, oid, fd, rfl, -⟩
      · exact ht'
      · cases hpc
    obtain ⟨hheap, -, hproc⟩ := hob.frame_accept hm ⟨t, ht', hp⟩
    rw [World.eff_congr hproc]
    exact h (.echo sid f) d p a ⟨t, o, ht', hf, hpc, hd, hp⟩ (hheap ▸ ha)

theorem ProcessWaits.moves (h : ProcessWaits w co) (hob : ObjectsOk w co)
    (hs : co.sessions sid = some s) (hr : w.Raw s.rawFds)
    (hm : Session.Moves w w' sid co.nextFrame s c after)
    (hrun : after ≠ .exited) (hok : ∀ p ok, c = .object p ok → ok = true) (via : Bool) :
    ProcessWaits w' (co.settle sid via after) := by
  intro sid' t q a ht hpc hq ha
  rw [Coros.settle_sessions hs, Function.update_apply] at ht
  split_ifs at ht with e
  · subst e
    -- an object that was there before
    have hold : ∀ {a : AsyncFd Handle}, (∀ b, s.pc ≠ .cleanup b) → s.ptr .processWait = some q →
        w.heap q = some a → q ∉ w.processedSockets ∧ a.ioState.has EPOLLIN :=
      fun hpc hq ha => h sid' s q _ hs hpc hq ha
    -- an operation on another object
    have hapart : ∀ {o : Op} {p : Addr} {b : AsyncFd Handle} {m : Bool}, s.ptr o.role = some p →
        o ≠ .whaitforprocesstodie → w.Sets w' p b m → (∀ b, s.pc ≠ .cleanup b) →
        s.ptr .processWait = some q → q ∉ w'.processedSockets ∧ a.ioState.has EPOLLIN := by
      intro o p b m hp ho hw hpc hq
      have hne : q ≠ p := by
        rintro rfl
        have hown := hob.owned.inj (.session sid' .processWait) (.session sid' o.role) q ⟨s, hs, hq⟩
          ⟨s, hs, hp⟩
        cases o <;> first | exact ho rfl | cases hown
      rcases hw.heap_cases ha with ⟨e, -⟩ | ⟨-, ha⟩
      · exact absurd e hne
      · rw [hw.processed]
        have := hold hpc hq ha
        simpa [hne] using this
    cases hm with
    | raw hw hptr _ _ _ _ _ hclean =>
      cases ht
      rw [hptr] at hq
      rw [hw.heap] at ha
      rw [hw.processed]
      refine hold (fun b e => ?_) hq ha
      rw [hclean b e .processWait (by simp)] at hq
      cases hq
    | again hw hpc' =>
      cases ht
      rw [hw.heap] at ha
      rw [hw.processed]
      exact hold (by simp [hpc']) hq ha
    | @completes o p b r dr hpc' hp _ _ hw =>
      cases ht
      rw [(Session.complete_rest _ _ _ _).1] at hq
      by_cases ho : o = .whaitforprocesstodie
      · subst ho
        exact absurd rfl (hpc false)
      · exact hapart hp ho hw.toSets (by rcases hpc' with e | e <;> simp [e]) hq
    | @suspends o p b hpc' hp hb _ hw =>
      cases ht
      have hcl : ∀ t, s.pc ≠ .cleanup t := by simp [hpc']
      have hq : s.ptr .processWait = some q := hq
      by_cases ho : o = .whaitforprocesstodie
      · subst ho
        have hpq : some p = some q := hp.symm.trans hq
        cases hpq
        rw [hw.heap, Function.update_self] at ha
        cases ha
        obtain ⟨hnot, hin⟩ := hold hcl hq hb
        rw [hw.processed]
        simpa [Op.watches, hnot] using hin
      · exact hapart hp ho hw.toSets hcl hq
    | @attaches r p fd b b' oid t _ _ _ hw hptr _ _ _ _ _ hcl _ _ hraw hadd hb =>
      cases ht
      obtain ⟨rfl, rfl⟩ := attached_of_ok hr hraw hadd hb hok
      rw [hptr, Function.update_apply] at hq
      split_ifs at hq with e
      · -- a new object has no mark
        subst e
        cases hq
        rcases hw.heap_cases ha with ⟨-, rfl⟩ | ⟨hne, -⟩
        · rw [hw.processed]
          refine ⟨fun hin => ?_, show Role.processWait.mask.has EPOLLIN by decide⟩
          obtain ⟨a', ha'⟩ := hob.owned.managed_live q (hob.owned.processed_managed q hin)
          exact hw.ne_of_live ha' rfl
        · exact absurd rfl hne
      · obtain ⟨a', ha'⟩ := hob.owned.live (.session sid' .processWait) q ⟨s, hs, hq⟩
        rcases hw.heap_cases ha with ⟨rfl, -⟩ | ⟨-, ha⟩
        · exact absurd rfl (hw.ne_of_live ha')
        · rw [hw.processed]
          exact hold hcl hq ha
    | drops _ _ hw hptr _ _ _ _ _ hclean =>
      cases ht
      rw [hptr, Function.update_apply] at hq
      split_ifs at hq with e
      obtain ⟨hne, ha⟩ := hw.heap_cases ha
      have := hold (fun b e => hpc b (hclean b e)) hq ha
      rw [hw.processed]
      simpa [this.1] using this.2
    | closes => cases ht
    | exits => exact absurd rfl hrun
  · obtain ⟨hheap, -, hproc⟩ := hob.frame hs hm (o := .session sid' .processWait) ⟨t, ht, hq⟩
      (by simp [e])
    rw [hproc]
    exact h sid' t q a ht hpc hq (hheap ▸ ha)

theorem ProcessWaits.accept (h : ProcessWaits w co) (hob : ObjectsOk w co)
    (hm : Coros.AcceptMoves w w' co c co') : ProcessWaits w' co' := by
  intro sid t q a ht hpc hq ha
  have ht' : co.sessions sid = some t := by
    rcases hm.session_cases ht with ht' | ⟨p, oid, fd, rfl, -⟩
    · exact ht'
    · simp [Session.start] at hq
  obtain ⟨hheap, -, hproc⟩ := hob.frame_accept hm ⟨t, ht', hq⟩
  rw [hproc]
  exact h sid t q a ht' hpc hq (hheap ▸ ha)

/-- Who suspends in a `send`. -/
theorem Session.StepCase.blocked_send {act : Act} (h : Session.StepCase w sid co.nextFrame s c act)
    {s' : Session} (hafter : act.after = .suspended s') (hpc : s'.pc = .susp .send) :
    s.pc = .call .send ∧ c = .sys .wouldBlock := by
  cases h with
  | block hpc' _ _ _ hb =>
    cases hafter
    cases hpc
    refine ⟨hpc', ?_⟩
    simp only [Op.blocks, decide_eq_true_eq] at hb
    rw [hb]
  | _ => cases hafter

end Steps

/-! ### Steps of the server -/

theorem MasksOk.start_holds : MasksOk State.start where
  synced := .start_holds
  kept x d p a _ ha := by cases ha
  processWait sid s p a hs := by cases hs
  early _ sid s hs := by cases hs
  installed hctl := by simp [State.start, Server.start] at hctl

/-- What the first `epoll_wait` finds. -/
theorem Fresh.installed {w : World Handle} {co : Coros} (h : Fresh w co)
    (hsend : ∀ sid s, co.sessions sid = some s → s.pc ≠ .susp .send) {x : Handle}
    {d : Dir} {p : Addr}
    {a : AsyncFd Handle} (hx : co.SuspendedOn x d p) (ha : w.heap p = some a) :
    a.ioState.has d.bit := by
  cases x with
  | accept n =>
    obtain ⟨hn, rfl, rfl⟩ := hx
    rw [h.masks .acceptor co.listen a ⟨by simp [hn], rfl⟩ ha]
    decide
  | echo sid f =>
    obtain ⟨s, o, hs, -, hpc, rfl, hp⟩ := hx
    rw [h.masks (.session sid o.role) p a ⟨s, hs, hp⟩ ha]
    refine Op.attached_bit ?_
    rintro rfl
    exact hsend sid s hs hpc

theorem BitsKept.noteHangup {w : World Handle} {co : Coros} (h : BitsKept w co) {e : Event}
    {a : AsyncFd Handle} (ha : w.heap e.ptr = some a) : BitsKept (w.noteHangup e) co := by
  intro x d p b hx hb
  have hw := World.noteHangup_puts ha
  rcases hw.toSets.heap_cases hb with ⟨rfl, rfl⟩ | ⟨hne, hb⟩
  · rw [hw.toSets.eff_unmarked (a := a) rfl rfl]
    exact h x d _ a hx ha
  · rw [hw.toSets.eff_of_ne hne]
    exact h x d p b hx hb

theorem ProcessWaits.noteHangup {w : World Handle} {co : Coros} (h : ProcessWaits w co) {e : Event}
    {a : AsyncFd Handle} (ha : w.heap e.ptr = some a) : ProcessWaits (w.noteHangup e) co := by
  intro sid s p b hs hpc hp hb
  have hw := World.noteHangup_puts ha
  rw [hw.processed]
  rcases hw.toSets.heap_cases hb with ⟨rfl, rfl⟩ | ⟨-, hb⟩
  · simpa using h sid s _ a hs hpc hp ha
  · simpa using h sid s p b hs hpc hp hb

theorem ProcessWaits.resume {w : World Handle} {co co' : Coros} (h : ProcessWaits w co) {x : Handle}
    (hr : co.resume x = some co') : ProcessWaits w co' := by
  intro sid t p a ht hclean hp ha
  rcases Coros.resume_sessions hr ht with hold | ⟨s, o, hs, hpc, rfl⟩
  · exact h sid t p a hold hclean hp ha
  · exact h sid s p a hs (by simp [hpc]) hp ha

theorem MasksOk.step {S S' : State} {l : Label Choice} (h : MasksOk S) (hok : EpollOk l)
    (hearly : S.sendsEarly l = false) (hs : S.step l = some S') (hlive : S'.ctl ≠ .exited) :
    MasksOk S' := by
  have hsync := h.synced.step hok hs hlive
  have hob := h.synced.threads.objects
  cases Server.step_cases hs with
  | wait hctl _ hS | batchEnd hctl hS | unmanaged hctl _ hS | noIn hctl _ _ hS | noOut hctl _ hS
  | sendNull hctl _ _ _ hS =>
    subst hS
    exact ⟨hsync, h.kept, h.processWait, by simp, by simp⟩
  | flushEnd hctl hS =>
    subst hS
    refine ⟨hsync, h.kept, h.processWait, by simp, fun _ x d p a hx ha => ?_⟩
    rw [(h.synced.flush [] hctl).2 p a ha (by simp)]
    exact h.kept x d p a hx ha
  | recvNull hctl _ _ ha _ hS =>
    subst hS
    exact ⟨hsync, h.kept.noteHangup ha, h.processWait.noteHangup ha, by simp, by simp⟩
  | recv hctl _ _ ha _ hco hS =>
    subst hS
    exact ⟨hsync, fun x d p a hx => h.kept.noteHangup ha x d p a (hx.of_resume hco),
      (h.processWait.noteHangup ha).resume hco, by simp, by simp⟩
  | send hctl _ _ _ hco hS =>
    subst hS
    exact ⟨hsync, fun x d p a hx => h.kept x d p a (hx.of_resume hco), h.processWait.resume hco,
      by simp, by simp⟩
  | @flush p todo a ok hctl ha hS =>
    subst hS
    have hp := (h.synced.flush _ hctl).1 p List.mem_cons_self
    have hw := World.flushOne_sets ha ok
    refine ⟨hsync, fun x d q b hx hb => ?_, fun sid s q b hs' hpc hq hb => ?_, by simp, by simp⟩
    · rcases hw.heap_cases hb with ⟨rfl, rfl⟩ | ⟨hne, hb⟩
      · rw [World.flushOne_eff ha hp]
        exact h.kept x d q a hx ha
      · rw [hw.eff_of_ne hne]
        exact h.kept x d q b hx hb
    · rw [hw.processed]
      rcases hw.heap_cases hb with ⟨rfl, rfl⟩ | ⟨-, hb⟩
      · exact absurd hp (h.processWait sid s q a hs' hpc hq ha).1
      · simpa using h.processWait sid s q b hs' hpc hq hb
  | @co k c m w' hctl hm hw hS =>
    subst hS
    have hne : m.status ≠ .exited := fun e => hlive (Status.control_eq_exited.2 e)
    have hobj := EpollOk.object hok
    -- a step of a coroutine, and who is in a `send` before `run` is called
    have hstep : BitsKept w' m.next ∧ ProcessWaits w' m.next ∧
        (k = .start → ∀ sid s, m.next.sessions sid = some s → s.pc ≠ .susp .send) := by
      rcases (Coros.step_cases hm).acceptor_or_session hw with
        ⟨hrun, hacc⟩ | ⟨sid, via, s, act, pr, hrun, hsid, hact, -, rfl⟩
      · refine ⟨h.kept.accept hob hacc, h.processWait.accept hob hacc, ?_⟩
        rintro rfl sid s hs'
        rcases hacc.session_cases hs' with hold | ⟨p, oid, fd, rfl, -⟩
        · exact h.early hctl sid s hold
        · simp [Session.start]
      · have hok' := hob.session sid s hsid
        have hmv := Session.moves hact hw hok'.shape fun r p a hp ha e =>
          (hok'.valid r p a hp ha e).2
        have hraw := h.synced.raw sid via s hrun hsid
        have hafter : act.after ≠ .exited := by
          intro e
          exact hne (by simp [e, Coros.status])
        refine ⟨h.kept.moves h.processWait hob hsid hmv via,
          h.processWait.moves hob hsid hraw hmv hafter hobj via, ?_⟩
        rintro rfl sid' t ht hpc
        have ht : (S.co.settle sid via act.after).sessions sid' = some t := ht
        rw [Coros.settle_sessions hsid, Function.update_apply] at ht
        split_ifs at ht with e
        · obtain ⟨hcall, rfl⟩ := hact.blocked_send (hmv.eq_suspended ht hpc) hpc
          simp [State.sendsEarly, hctl, Coros.runningPc, hrun, hsid, hcall] at hearly
        · exact h.early hctl sid' t ht hpc
    obtain ⟨h1, h2, h3⟩ := hstep
    refine ⟨hsync, h1, h2, fun e => h3 (Status.control_start (Or.inl e)), fun e x d p a hx ha => ?_⟩
    have hk := Status.control_start (Or.inr e)
    subst hk
    have hf := (h.synced.coroutine hm hw hok hne).2.2.2 (h.synced.start hctl)
    exact hf.installed (h3 rfl) hx ha
  | env hco hS =>
    subst hS
    obtain ⟨pid, pr, -, -, rfl⟩ := Coros.env_cases hco
    exact ⟨hsync, fun x d p a hx => h.kept x d p a (by cases x <;> exact hx), h.processWait, h.early,
      fun e x d p a hx => h.installed e x d p a (by cases x <;> exact hx)⟩

/-- **Subscriptions are installed.** In every run in which every `epoll_ctl` succeeds and no `send`
suspends before `run` is called: whenever `run` is about to call `epoll_wait`, every object on which
an operation is suspended is registered with itself as `data.ptr` and with its `io_state_`, which
contains `EPOLLET` and the bit of the operation. -/
theorem subscription_installed {S : State}
    (h : Lts.Reach State.step (fun S l => EpollOk l ∧ S.sendsEarly l = false) State.start S)
    (hctl : S.ctl = .epollWait) {x : Handle} {d : Dir} {p : Addr} (hx : S.co.SuspendedOn x d p) :
    ∃ a, S.w.heap p = some a ∧ S.w.interest a.fd = some ⟨a.ioState, p⟩ ∧
      a.ioState.has EPOLLET ∧ a.ioState.has d.bit := by
  have hinv : S.ctl ≠ .exited → MasksOk S := by
    refine h.inv (I := fun S => S.ctl ≠ .exited → MasksOk S) (fun _ => .start_holds) ?_
    intro S l S' hS hl hst hlive
    exact (hS fun e => hlive (State.exited_step e hst)).step hl.1 hl.2 hst hlive
  have hS := hinv (by simp [hctl])
  have hth := hS.synced.threads
  obtain ⟨a, ha⟩ : ∃ a, S.w.heap p = some a := by
    rcases hx.owns with ⟨n, -, ho⟩ | ⟨sid, s, o, -, hs, -, -, hp⟩
    · exact hth.objects.owned.live .acceptor p ho
    · exact hth.objects.owned.live (.session sid o.role) p ⟨s, hs, hp⟩
  have hfd := hth.fd_ne (by rw [hctl]; rfl) (hS.synced.registered.managed p a ha) ha
  exact ⟨a, ha, hS.synced.registered.interest p a ha hfd, (hS.synced.registered.et p a ha).1,
    hS.installed hctl x d p a hx ha⟩

/-- A session that waits for its child's output is subscribed to it. -/
theorem subscription_installed_reader : ∃ S : State, S.ctl = .epollWait ∧
    S.co.SuspendedOn (.echo 0 0) .read 3 ∧
    ∃ a, S.w.heap 3 = some a ∧ S.w.interest a.fd = some ⟨a.ioState, 3⟩ ∧
      a.ioState.has EPOLLET ∧ a.ioState.has EPOLLIN := by
  obtain ⟨S, h, hp⟩ := Lts.exists_reach State.step
    (fun S l => EpollOk l = true ∧ S.sendsEarly l = false) State.start readRun
    (fun S l => EpollOk l && !S.sendsEarly l) (fun S l hl => by simpa using hl)
    (fun S => decide (S.ctl = .epollWait ∧ S.co.SuspendedOn (.echo 0 0) .read 3)) (by decide)
  obtain ⟨hctl, hx⟩ := of_decide_eq_true hp
  exact ⟨S, hctl, hx, subscription_installed h hctl hx⟩

/-- A subscription is lost: a connection that is there when the server starts is accepted and served
before `run` is called; its `send` would block, and at the first `epoll_wait` its `Socket` is
registered for reading only. -/
theorem send_not_subscribed :
    ¬ ∀ S : State, Lts.Reach State.step (fun _ l => EpollOk l) State.start S → S.ctl = .epollWait →
      ∀ x d p, S.co.SuspendedOn x d p →
        ∃ a, S.w.heap p = some a ∧ S.w.interest a.fd = some ⟨a.ioState, p⟩ ∧
          a.ioState.has EPOLLET ∧ a.ioState.has d.bit := by
  intro hall
  obtain ⟨S, h, hp⟩ := Lts.exists_reach State.step (fun _ l => EpollOk l = true) State.start
    ([.co (.boot 1 3 true true), .co (.opened 4), .co (.object 2 true), .co (.sys (.bytes [97] []))] ++
      spawnRun 3 5 100 ++ [.co (.sys (.bytes [99, 97, 116, 10, 97] [])), .co .go,
      .co (.sys .wouldBlock), .co (.sys .wouldBlock)])
    (fun _ l => EpollOk l) (fun _ _ hl => hl)
    (fun S => decide (S.ctl = .epollWait ∧ S.co.SuspendedOn (.echo 0 0) .write 2 ∧
      ∃ a ∈ S.w.heap 2, ¬ a.ioState.has EPOLLOUT)) (by decide)
  obtain ⟨hctl, hx, a, ha, hno⟩ := of_decide_eq_true hp
  obtain ⟨b, hb, -, -, hbit⟩ := hall S h hctl _ _ _ hx
  rw [Option.mem_def.1 ha] at hb
  cases hb
  exact hno hbit

end EpollCoroutine
