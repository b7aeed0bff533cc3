import EpollCoroutine.Epoll.Run

/-!
# Stale events

While a batch of events is processed, the coroutines it resumes may destroy descriptors whose events
come later in the batch. `run` guards against them with `managed_fd.contains`, which compares
addresses only. This module is about every `Program`: the coroutines may do anything.

* `KernelOk`: every registration belongs to a live object with that descriptor.
* `Tracked w p o`: the object `o` still lives at `p`, or it has been destroyed, nothing lives at `p`
  and `p` has left `managed_fd`.
* `NoReuse`: no object is constructed at an address for which an event of the batch has still to be
  offered. Under this condition an event of a destroyed object is dropped
  (`stale_event_dropped`); without it the guard passes the event on to the new object.
* `KeepsOwn`: a coroutine that is resumed for an event with both bits does not destroy the object of
  the event. Under this condition the guard, which is passed once, covers the second half of the
  event too (`write_half_managed`).
-/

namespace EpollCoroutine

variable {H σ ℓ : Type}

/-- Every registration is that of a live object, under its own descriptor. -/
structure World.KernelOk (w : World H) : Prop where
  invalid_closed : w.table (-1) = none
  interest_live : ∀ fd i, w.interest fd = some i →
    (w.table fd).isSome ∧ ∃ a, w.heap i.ptr = some a ∧ a.fd = fd

namespace World.KernelOk

theorem initial : (World.initial : World H).KernelOk :=
  ⟨rfl, fun fd i h => by simp [World.initial] at h⟩

theorem before (opened : Finset ℕ) : (World.before opened : World H).KernelOk :=
  ⟨by simp [World.before], fun fd i h => by simp [World.before, World.initial] at h⟩

variable {w : World H}

theorem fd_ne (hw : w.KernelOk) {fd : Fd} {i : Interest} (h : w.interest fd = some i) :
    fd ≠ -1 := by
  rintro rfl
  have := (hw.interest_live _ _ h).1
  simp [hw.invalid_closed] at this

/-- A change of the objects that keeps their descriptors keeps the invariant. -/
theorem modifyAt (hw : w.KernelOk) (p : Addr) {f : AsyncFd H → AsyncFd H}
    (hf : ∀ a, (f a).fd = a.fd) : (w.modifyAt p f).KernelOk := by
  refine ⟨hw.invalid_closed, fun fd i hi => ?_⟩
  obtain ⟨ht, a, ha, hfd⟩ := hw.interest_live fd i hi
  refine ⟨ht, ?_⟩
  rw [World.modifyAt_heap]
  split_ifs with hp
  · exact ⟨f a, by rw [← hp, ha]; rfl, by rw [hf, hfd]⟩
  · exact ⟨a, ha, hfd⟩

theorem attachLogged (hw : w.KernelOk) (m : Mask) (p : Addr) (ok : Bool) :
    (w.attachLogged m p ok).KernelOk := by
  unfold World.attachLogged
  split
  · exact hw
  · rename_i a ha
    have hadd : (w.epollAdd m p a.fd ok).KernelOk := by
      refine ⟨by rw [World.epollAdd_table]; exact hw.invalid_closed, fun fd i hi => ?_⟩
      rw [World.epollAdd_table, World.epollAdd_heap]
      rw [World.epollAdd_interest] at hi
      split_ifs at hi with hs
      · rw [Function.update_apply] at hi
        split_ifs at hi with hfd
        · cases hi
          have : (w.table a.fd).isSome := by
            simp only [World.addSucceeds, Bool.and_eq_true] at hs
            exact hs.1.2
          exact ⟨hfd ▸ this, a, ha, hfd.symm⟩
        · exact hw.interest_live fd i hi
      · exact hw.interest_live fd i hi
    have h := hadd.modifyAt p (f := fun a => { a with ioState := m }) fun _ => rfl
    exact ⟨h.invalid_closed, h.interest_live⟩

theorem destroy (hw : w.KernelOk) (p : Addr) : (w.destroy p).KernelOk := by
  cases ha : w.heap p with
  | none => simpa [World.destroy, ha] using hw
  | some a =>
    by_cases hfd : a.fd = -1
    · rw [World.destroy_of_invalid ha hfd]
      refine ⟨hw.invalid_closed, fun fd i hi => ?_⟩
      obtain ⟨ht, b, hb, hbfd⟩ := hw.interest_live fd i hi
      have hip : i.ptr ≠ p := by
        rintro rfl
        rw [ha] at hb
        cases hb
        exact hw.fd_ne hi (hbfd.symm.trans hfd)
      exact ⟨ht, b, by simpa [World.free, Function.update_apply, hip] using hb, hbfd⟩
    · refine ⟨?_, fun fd i hi => ?_⟩
      · rw [World.destroy_table ha hfd, Function.update_apply, hw.invalid_closed, ite_self]
      · rw [World.destroy_interest ha hfd, Function.update_apply] at hi
        split_ifs at hi with h1
        obtain ⟨ht, b, hb, hbfd⟩ := hw.interest_live fd i hi
        have hip : i.ptr ≠ p := by
          rintro rfl
          rw [ha] at hb
          cases hb
          exact h1 hbfd.symm
        rw [World.destroy_table ha hfd, Function.update_of_ne h1, World.destroy_heap, if_neg hip]
        exact ⟨ht, b, hb, hbfd⟩

/-- Every call keeps the invariant. -/
theorem apply (hw : w.KernelOk) {c : Call H} (hc : c.enabled w = true) : (c.apply w).KernelOk := by
  cases c with
  | create p fd =>
    refine ⟨hw.invalid_closed, fun fd' i hi => ?_⟩
    obtain ⟨ht, a, ha, hfd⟩ := hw.interest_live fd' i hi
    have hp : i.ptr ≠ p := by
      rintro rfl
      simp [Call.enabled, ha] at hc
    exact ⟨ht, a, by simpa [Call.apply, World.create, Function.update_apply, hp] using ha, hfd⟩
  | attach p ok => exact hw.attachLogged _ p ok
  | attachReadonly p ok =>
    simp only [Call.apply, World.attachReadonly]
    split_ifs
    · exact hw.attachLogged _ p ok
    · exact hw
  | attachWriteOnly p ok => exact hw.attachLogged _ p ok
  | watch d p =>
    have h := hw.modifyAt p (f := fun a => { a with ioNewState := a.ioState ||| d.bit }) fun _ => rfl
    exact ⟨h.invalid_closed, h.interest_live⟩
  | unwatch d p =>
    have h := hw.modifyAt p (f := fun a => { a with ioNewState := a.ioState &&& ~~~d.bit })
      fun _ => rfl
    exact ⟨h.invalid_closed, h.interest_live⟩
  | suspend d p h => exact hw.modifyAt p fun a => a.setCoro_fd d h
  | destroy p => exact hw.destroy p
  | openFd fd f =>
    simp only [Call.enabled, Bool.and_eq_true, decide_eq_true_eq] at hc
    refine ⟨?_, fun fd' i hi => ?_⟩
    · have : (-1 : Fd) ≠ fd := by
        rintro rfl
        exact absurd hc.2 (by decide)
      simpa [Call.apply, World.openFd, Function.update_apply, this] using hw.invalid_closed
    · obtain ⟨ht, h⟩ := hw.interest_live fd' i hi
      refine ⟨?_, h⟩
      simp only [Call.apply, World.openFd, Function.update_apply]
      split_ifs
      · rfl
      · exact ht
  | closeFd fd =>
    refine ⟨?_, fun fd' i hi => ?_⟩
    · simp [Call.apply, World.closeFd, Function.update_apply, hw.invalid_closed]
    · simp only [Call.apply, World.closeFd, Function.update_apply] at hi ⊢
      split_ifs at hi with h1
      rw [if_neg h1]
      exact hw.interest_live fd' i hi

/-- An `EPOLL_CTL_MOD` keeps the invariant. -/
theorem flushOne (hw : w.KernelOk) {p : Addr} {a : AsyncFd H} (ha : w.heap p = some a) (ok : Bool) :
    (w.flushOne p a ok).KernelOk := by
  unfold World.flushOne
  split_ifs with h1 h2
  · exact hw
  · have h := hw.modifyAt p (f := fun a => { a with ioState := a.ioNewState }) fun _ => rfl
    refine ⟨h.invalid_closed, fun fd i hi => ?_⟩
    simp only [Function.update_apply] at hi
    split_ifs at hi with hfd
    · cases hi
      simp only [World.modSucceeds, Bool.and_eq_true] at h2
      refine ⟨hfd ▸ h2.1.2, { a with ioState := a.ioNewState }, ?_, hfd.symm⟩
      simp [World.modifyAt_heap, ha]
    · exact h.interest_live fd i hi
  · have h := hw.modifyAt p (f := fun a => { a with ioState := a.ioNewState }) fun _ => rfl
    exact ⟨h.invalid_closed, h.interest_live⟩

end World.KernelOk

/-! ### Following one object through a batch -/

/-- The object `o` lives at `p` and owns a descriptor, or it has been destroyed, its storage is free
and `p` has left `managed_fd`. -/
def World.Tracked (w : World H) (p : Addr) (o : ℕ) : Prop :=
  (w.heap p = none ∧ p ∉ w.managedFd) ∨ ∃ a, w.heap p = some a ∧ a.oid = o ∧ a.fd ≠ -1

namespace World.Tracked

variable {w : World H} {p : Addr} {o : ℕ}

theorem modifyAt (h : w.Tracked p o) (q : Addr) {f : AsyncFd H → AsyncFd H}
    (hfd : ∀ a, (f a).fd = a.fd) (hoid : ∀ a, (f a).oid = a.oid) :
    (w.modifyAt q f).Tracked p o := by
  rcases h with ⟨hn, hm⟩ | ⟨a, ha, ho, hne⟩
  · refine Or.inl ⟨?_, hm⟩
    rw [World.modifyAt_heap]
    split_ifs with hq
    · rw [← hq, hn]; rfl
    · exact hn
  · right
    rw [World.modifyAt_heap]
    split_ifs with hq
    · exact ⟨f a, by rw [← hq, ha]; rfl, by rw [hoid, ho], by rw [hfd]; exact hne⟩
    · exact ⟨a, ha, ho, hne⟩

theorem attachLogged (h : w.Tracked p o) (m : Mask) (q : Addr) (ok : Bool) :
    (w.attachLogged m q ok).Tracked p o := by
  unfold World.attachLogged
  split
  · exact h
  · rename_i b hb
    have hadd : (w.epollAdd m q b.fd ok).Tracked p o := by
      unfold World.Tracked
      rw [World.epollAdd_heap, World.epollAdd_managedFd]
      exact h
    -- the address that is attached is live, so it is not the one that was freed
    rcases hadd.modifyAt q (f := fun a => { a with ioState := m }) (fun _ => rfl)
      (fun _ => rfl) with
      ⟨hn, hm⟩ | hlive
    · refine Or.inl ⟨hn, fun hmem => ?_⟩
      rcases OrdSet.mem_insert.1 hmem with rfl | hmem
      · simp [World.modifyAt_heap, World.epollAdd_heap, hb] at hn
      · exact hm hmem
    · exact Or.inr hlive

theorem destroy (h : w.Tracked p o) (q : Addr) : (w.destroy q).Tracked p o := by
  cases hb : w.heap q with
  | none => simpa [World.destroy, hb] using h
  | some b =>
    by_cases hfd : b.fd = -1
    · rw [World.destroy_of_invalid hb hfd]
      have hpq : p ≠ q ∨ w.heap p = none := by
        rcases h with ⟨hn, -⟩ | ⟨a, ha, -, hne⟩
        · exact Or.inr hn
        · refine Or.inl ?_
          rintro rfl
          rw [ha] at hb
          cases hb
          exact hne hfd
      have hheap : (w.free q).heap p = w.heap p := by
        simp only [World.free, Function.update_apply]
        split_ifs with e
        · rcases hpq with hpq | hpq
          · exact absurd e hpq
          · exact hpq.symm
        · rfl
      unfold World.Tracked
      rw [hheap]
      exact h
    · unfold World.Tracked
      rw [World.destroy_heap, World.destroy_managedFd hb hfd]
      split_ifs with e
      · exact Or.inl ⟨rfl, by simp [e]⟩
      · rcases h with ⟨hn, hm⟩ | hlive
        · exact Or.inl ⟨hn, fun hmem => hm (OrdSet.mem_erase.1 hmem).1⟩
        · exact Or.inr hlive

/-- Only constructing a new object at `p` loses track of the old one. -/
theorem apply (h : w.Tracked p o) {c : Call H} (hne : ∀ fd, c ≠ .create p fd) :
    (c.apply w).Tracked p o := by
  cases c with
  | create q fd =>
    have hq : p ≠ q := by
      rintro rfl
      exact hne fd rfl
    simpa [World.Tracked, Call.apply, World.create, Function.update_apply, hq] using h
  | attach q ok => exact h.attachLogged _ q ok
  | attachReadonly q ok =>
    simp only [Call.apply, World.attachReadonly]
    split_ifs
    · exact h.attachLogged _ q ok
    · exact h
  | attachWriteOnly q ok => exact h.attachLogged _ q ok
  | watch d q =>
    exact h.modifyAt q (f := fun a => { a with ioNewState := a.ioState ||| d.bit }) (fun _ => rfl)
      (fun _ => rfl)
  | unwatch d q =>
    exact h.modifyAt q (f := fun a => { a with ioNewState := a.ioState &&& ~~~d.bit })
      (fun _ => rfl)
      (fun _ => rfl)
  | suspend d q k => exact h.modifyAt q (fun a => a.setCoro_fd d k) (fun a => a.setCoro_oid d k)
  | destroy q => exact h.destroy q
  | openFd fd f => exact h
  | closeFd fd => exact h

end World.Tracked

/-! ### Runs -/

/-- The object for which `e` was reported has been destroyed since. -/
def Event.Destroyed (e : Event) (w : World H) : Prop :=
  ∃ o, e.oid = some o ∧ ∀ a, w.heap e.ptr = some a → a.oid ≠ o

/-- No coroutine constructs an object at an address for which an event of the batch has still to
be offered. -/
def NoReuse (P : Program H σ ℓ) (S : Server H σ) : Label ℓ → Prop
  | .co l => ∀ m, P.step l S.w S.co = some m → ∀ p fd, Call.create p fd ∈ m.calls →
      ∀ d, ¬ S.ctl.Pending d p
  | _ => True

/-- Every event still to be offered is tracked. -/
structure BatchOk (S : Server H σ) : Prop where
  kernel : S.w.KernelOk
  tracked : ∀ d e, e ∈ S.ctl.awaits d → e.events.has d.bit →
    ∃ o, e.oid = some o ∧ S.w.Tracked e.ptr o

theorem batchOk_start (co : σ) : BatchOk (Server.start co : Server H σ) :=
  ⟨World.KernelOk.initial, fun d e he => by simp [Server.start, Control.awaits, Cont.awaits] at he⟩

/-- The first event that `epoll_wait` returns. -/
theorem collectEvents_cons {w : World H} {fd : Fd} {m : Mask} {l : List (Fd × Mask)}
    {evs : List Event} (h : w.collectEvents ((fd, m) :: l) = some evs) :
    ∃ i evs', w.interest fd = some i ∧ Reportable i.events m ∧ w.collectEvents l = some evs' ∧
      evs = ⟨i.ptr, m, (w.heap i.ptr).map AsyncFd.oid⟩ :: evs' := by
  simp only [World.collectEvents] at h
  split at h
  · cases h
  · rename_i i hi
    split_ifs at h with hrep
    obtain ⟨evs', hevs, rfl⟩ := Option.map_eq_some_iff.1 h
    exact ⟨i, evs', hi, hrep, hevs, rfl⟩

/-- What `epoll_wait` returns is about live objects. -/
theorem collectEvents_tracked {w : World H} (hw : w.KernelOk) {l : List (Fd × Mask)}
    {evs : List Event} (h : w.collectEvents l = some evs) :
    ∀ e ∈ evs, ∃ o, e.oid = some o ∧ w.Tracked e.ptr o := by
  induction l generalizing evs with
  | nil => cases h; simp
  | cons r l ih =>
    obtain ⟨fd, m⟩ := r
    obtain ⟨i, evs', hi, -, hevs, rfl⟩ := collectEvents_cons h
    intro e he
    rcases List.mem_cons.1 he with rfl | he
    · obtain ⟨-, a, ha, hfd⟩ := hw.interest_live fd i hi
      exact ⟨a.oid, by simp [ha], Or.inr ⟨a, ha, rfl, hfd ▸ hw.fd_ne hi⟩⟩
    · exact ih hevs e he

/-- Where an event comes from. -/
theorem mem_collectEvents {w : World H} {l : List (Fd × Mask)} {evs : List Event}
    (h : w.collectEvents l = some evs) {e : Event} (he : e ∈ evs) :
    ∃ fd i, (fd, e.events) ∈ l ∧ w.interest fd = some i ∧ e.ptr = i.ptr ∧
      Reportable i.events e.events := by
  induction l generalizing evs with
  | nil => cases h; simp at he
  | cons r l ih =>
    obtain ⟨fd, m⟩ := r
    obtain ⟨i, evs', hi, hrep, hevs, rfl⟩ := collectEvents_cons h
    rcases List.mem_cons.1 he with rfl | he
    · exact ⟨fd, i, List.mem_cons_self, hi, rfl, hrep⟩
    · obtain ⟨fd', i', hmem, hrest⟩ := ih hevs he
      exact ⟨fd', i', List.mem_cons_of_mem _ hmem, hrest⟩

theorem collect_eq_some {w : World H} {l : List (Fd × Mask)} {evs : List Event}
    (h : w.collect l = some evs) : (l.map Prod.fst).Nodup ∧ w.collectEvents l = some evs := by
  unfold World.collect at h
  split_ifs at h with hc
  exact ⟨hc.1, h⟩

theorem World.KernelOk.noteHangup {w : World H} (hw : w.KernelOk) (e : Event) :
    (w.noteHangup e).KernelOk := by
  unfold World.noteHangup
  split_ifs
  · exact hw.modifyAt e.ptr fun _ => rfl
  · exact hw

theorem World.Tracked.noteHangup {w : World H} {p : Addr} {o : ℕ} (h : w.Tracked p o) (e : Event) :
    (w.noteHangup e).Tracked p o := by
  unfold World.noteHangup
  split_ifs
  · exact h.modifyAt e.ptr (fun _ => rfl) fun _ => rfl
  · exact h

theorem batchOk_step {P : Program H σ ℓ} {S S' : Server H σ} {l : Label ℓ} (hS : BatchOk S)
    (hok : NoReuse P S l) (hs : S.step P l = some S') : BatchOk S' := by
  have hold : ∀ d x, (∀ r, l ≠ .epollWait r) → x ∈ S'.ctl.awaits d → x.events.has d.bit →
      ∃ o, x.oid = some o ∧ S.w.Tracked x.ptr o := fun d x hl hx hb =>
    hS.tracked d x ((Server.awaits_step hs hl d).subset hx) hb
  have hnote : ∀ e d x, (∀ r, l ≠ .epollWait r) → x ∈ S'.ctl.awaits d → x.events.has d.bit →
      ∃ o, x.oid = some o ∧ (S.w.noteHangup e).Tracked x.ptr o := fun e d x hl hx hb => by
    obtain ⟨o, ho, ht⟩ := hold d x hl hx hb
    exact ⟨o, ho, ht.noteHangup e⟩
  cases Server.step_cases hs with
  | wait hctl hev hS' =>
    subst hS'
    exact ⟨hS.kernel, fun d e he _ => collectEvents_tracked hS.kernel (collect_eq_some hev).2 e he⟩
  | batchEnd _ hS' | unmanaged _ _ hS' | noIn _ _ _ hS' | noOut _ _ hS' | sendNull _ _ _ _ hS'
  | send _ _ _ _ _ hS' | flushEnd _ hS' | env _ hS' =>
    subst hS'
    exact ⟨hS.kernel, fun d x => hold d x (by simp)⟩
  | recvNull _ _ _ _ _ hS' | recv _ _ _ _ _ _ hS' =>
    subst hS'
    exact ⟨hS.kernel.noteHangup _, fun d x => hnote _ d x (by simp)⟩
  | flush _ ha hS' =>
    subst hS'
    exact ⟨hS.kernel.flushOne ha _, fun d x hx => by simp [Control.awaits] at hx⟩
  | co hctl hm hw hS' =>
    rename_i k c m w
    subst hS'
    refine ⟨Call.applyAll_inv (I := World.KernelOk) (fun c _ w hc hk => hk.apply hc) hw hS.kernel,
      fun d x hx hb => ?_⟩
    have hx' := (Server.awaits_step hs (by simp) d).subset hx
    obtain ⟨o, ho, ht⟩ := hold d x (by simp) hx hb
    refine ⟨o, ho, Call.applyAll_inv (I := fun w => w.Tracked x.ptr o)
      (fun c hc w _ hk => hk.apply fun fd heq => ?_) hw ht⟩
    exact hok m hm x.ptr fd (heq ▸ hc) d ⟨x, hx', rfl, hb⟩

theorem batchOk_reach {P : Program H σ ℓ} {ok : Server H σ → Label ℓ → Prop} {co : σ}
    {S : Server H σ} (hok : ∀ S l, ok S l → NoReuse P S l)
    (h : Lts.Reach (Server.step P) ok (Server.start co) S) : BatchOk S :=
  h.inv (batchOk_start co) fun _ _ _ hi hl hst => batchOk_step hi (hok _ _ hl) hst

/-- While every event is tracked, the handling of an event whose object is gone resumes nothing. -/
theorem BatchOk.drops {P : Program H σ ℓ} {S S' : Server H σ} (hS : BatchOk S) {e : Event}
    {todo : List Event} (hctl : S.ctl = .dispatch (e :: todo) ∨ S.ctl = .out e todo)
    (hd : e.Destroyed S.w) (hs : S.next P = some S') :
    S'.co = S.co ∧ (S'.ctl = .dispatch todo ∨ S'.ctl = .out e todo) := by
  obtain ⟨o, ho, hgone⟩ := hd
  -- a direction that is still due finds neither a live object nor a managed address
  have free : ∀ d, e ∈ S.ctl.awaits d → e.events.has d.bit →
      S.w.heap e.ptr = none ∧ e.ptr ∉ S.w.managedFd := by
    intro d hin hb
    obtain ⟨o', ho', ht⟩ := hS.tracked d e hin hb
    rw [ho] at ho'
    cases ho'
    rcases ht with hfree | ⟨a, ha, hoid, -⟩
    · exact hfree
    · exact absurd hoid (hgone a ha)
  rcases hctl with hctl | hctl
  · have hin : ∀ d, e ∈ S.ctl.awaits d := fun d => by rw [hctl]; exact List.mem_cons_self
    cases Server.next_cases hs with
    | unmanaged hc hm hS' =>
      rw [hctl] at hc
      cases hc
      subst hS'
      exact ⟨rfl, Or.inl rfl⟩
    | noIn hc hm hbit hS' =>
      rw [hctl] at hc
      cases hc
      subst hS'
      exact ⟨rfl, Or.inr rfl⟩
    | recvNull hc hm hbit ha hcoro hS' =>
      rw [hctl] at hc
      cases hc
      exact absurd hm (free .read (hin _) hbit).2
    | recv hc hm hbit ha hcoro hco hS' =>
      rw [hctl] at hc
      cases hc
      exact absurd hm (free .read (hin _) hbit).2
    | batchEnd hc | noOut hc | sendNull hc | send hc | flushEnd hc => rw [hctl] at hc; cases hc
  · have hin : e ∈ S.ctl.awaits .write := by rw [hctl]; exact List.mem_cons_self
    cases Server.next_cases hs with
    | noOut hc hbit hS' =>
      rw [hctl] at hc
      cases hc
      subst hS'
      exact ⟨rfl, Or.inl rfl⟩
    | sendNull hc hbit ha hcoro hS' =>
      rw [hctl] at hc
      cases hc
      rw [(free .write hin hbit).1] at ha
      cases ha
    | send hc hbit ha hcoro hco hS' =>
      rw [hctl] at hc
      cases hc
      rw [(free .write hin hbit).1] at ha
      cases ha
    | batchEnd hc | unmanaged hc | noIn hc | recvNull hc | recv hc | flushEnd hc =>
      rw [hctl] at hc; cases hc

/-- **A stale event is dropped.** For every program of coroutines, from the start of the process: if
no object is constructed at an address for which an event of the batch has still to be offered,
then the handling of an event whose object was destroyed after `epoll_wait` returned it resumes
nothing. -/
theorem stale_event_dropped (P : Program H σ ℓ) (co : σ) {S : Server H σ}
    (h : Lts.Reach (Server.step P) (NoReuse P) (Server.start co) S) (e : Event)
    (todo : List Event) (hctl : S.ctl = .dispatch (e :: todo) ∨ S.ctl = .out e todo)
    (hd : e.Destroyed S.w) {S' : Server H σ} (hs : S.next P = some S') :
    S'.co = S.co ∧ (S'.ctl = .dispatch todo ∨ S'.ctl = .out e todo) := by
  exact (batchOk_reach (fun _ _ hl => hl) h).drops hctl hd hs

/-! ### The two halves of one event -/

/-- A coroutine that is resumed by the `EPOLLIN` of an event that also has `EPOLLOUT` does not
destroy the object of the event. -/
def KeepsOwn (P : Program H σ ℓ) (S : Server H σ) : Label ℓ → Prop
  | .co l => ∀ e todo, S.ctl = .coro (.out e todo) → e.events.has EPOLLOUT →
      ∀ m, P.step l S.w S.co = some m → Call.destroy e.ptr ∉ m.calls
  | _ => True

theorem World.attachLogged_managed {w : World H} {p : Addr} (h : p ∈ w.managedFd)
    (m : Mask) (q : Addr)
    (ok : Bool) : p ∈ (w.attachLogged m q ok).managedFd := by
  unfold World.attachLogged
  split
  · exact h
  · exact OrdSet.mem_insert.2 (Or.inr (by rw [World.epollAdd_managedFd]; exact h))

/-- An address leaves `managed_fd` through the destructor only. -/
theorem Call.apply_managed {w : World H} {p : Addr} {c : Call H} (h : p ∈ w.managedFd)
    (hc : c ≠ .destroy p) : p ∈ (c.apply w).managedFd := by
  cases c with
  | attach q ok | attachWriteOnly q ok => exact World.attachLogged_managed h _ q ok
  | attachReadonly q ok =>
    simp only [Call.apply, World.attachReadonly]
    split_ifs
    · exact World.attachLogged_managed h _ q ok
    · exact h
  | destroy q =>
    have hq : p ≠ q := by
      rintro rfl
      exact hc rfl
    simp only [Call.apply, World.destroy]
    split
    · exact h
    · split_ifs
      · exact h
      · exact OrdSet.mem_erase.2 ⟨h, hq⟩
  | create | watch | unwatch | suspend | openFd | closeFd => exact h

/-- The continuation of `run` after the first half of an event. -/
def Control.secondHalf : Control → Option Event
  | .out e _ | .coro (.out e _) => some e
  | _ => none

theorem secondHalf_step {P : Program H σ ℓ} {S S' : Server H σ} {l : Label ℓ}
    (h : ∀ e, S.ctl.secondHalf = some e → e.events.has EPOLLOUT → e.ptr ∈ S.w.managedFd)
    (hok : KeepsOwn P S l) (hs : S.step P l = some S') :
    ∀ e, S'.ctl.secondHalf = some e → e.events.has EPOLLOUT → e.ptr ∈ S'.w.managedFd := by
  have hnote : ∀ e p, p ∈ S.w.managedFd → p ∈ (S.w.noteHangup e).managedFd := by
    intro e p hp
    unfold World.noteHangup
    split_ifs <;> exact hp
  intro e he hout
  cases Server.step_cases hs with
  | wait _ _ hS | batchEnd _ hS | unmanaged _ _ hS | noOut _ _ hS | sendNull _ _ _ _ hS
  | send _ _ _ _ _ hS | flushEnd _ hS | flush _ _ hS =>
    subst hS
    cases he
  | noIn _ hm _ hS =>
    subst hS
    cases he
    exact hm
  | recvNull _ hm _ _ _ hS | recv _ hm _ _ _ _ hS =>
    subst hS
    cases he
    exact hnote _ _ hm
  | @co k l m w hctl hm hw hS =>
    subst hS
    obtain ⟨todo, rfl⟩ : ∃ todo, k = .out e todo := by
      cases hst : m.status <;> cases k <;> simp_all [Status.control, Cont.control,
        Control.secondHalf]
    refine Call.applyAll_inv (I := fun w => e.ptr ∈ w.managedFd) (fun c hc w _ hin => ?_) hw
      (h e (by rw [hctl]; rfl) hout)
    refine Call.apply_managed hin ?_
    rintro rfl
    exact hok e todo hctl hout m hm hc
  | env _ hS =>
    subst hS
    exact h e he hout

theorem secondHalf_reach {P : Program H σ ℓ} {ok : Server H σ → Label ℓ → Prop} {co : σ}
    {S : Server H σ} (hok : ∀ S l, ok S l → KeepsOwn P S l)
    (h : Lts.Reach (Server.step P) ok (Server.start co) S) :
    ∀ e, S.ctl.secondHalf = some e → e.events.has EPOLLOUT → e.ptr ∈ S.w.managedFd :=
  h.inv (by simp [Server.start, Control.secondHalf])
    fun _ _ _ hi hl hst => secondHalf_step hi (hok _ _ hl) hst

/-- **The second half of an event finds a managed object.** For every program of coroutines, every
event mask and every behaviour of the coroutines: if a coroutine that is resumed by the `EPOLLIN` of
an event with both bits does not destroy the object of the event, then `run` gets to the `EPOLLOUT`
of an event only while the object is in `managed_fd`. -/
theorem write_half_managed (P : Program H σ ℓ) (co : σ) {S : Server H σ}
    (h : Lts.Reach (Server.step P) (KeepsOwn P) (Server.start co) S) {e : Event} {todo : List Event}
    (hctl : S.ctl = .out e todo) (hout : e.events.has EPOLLOUT) : e.ptr ∈ S.w.managedFd := by
  exact secondHalf_reach (fun _ _ hl => hl) h e (by rw [hctl]; rfl) hout

end EpollCoroutine
