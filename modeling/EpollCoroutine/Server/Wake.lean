import EpollCoroutine.Server.Threads

/-!
# Wake-ups

`run` reacts to `EPOLLIN` and `EPOLLOUT` only. An event that carries the bit of the direction in
which an operation is suspended has resumed it by the end of the batch (`event_wakes`); a hang-up or
an error that comes alone is dropped (`hangup_lost`).

* `OpId`: one suspension of one coroutine. A number is not used twice (`Past`).
* `Concerns`: the events that a suspended operation waits for.
-/

namespace EpollCoroutine

/-- A suspension: the `n`-th of the `accept` coroutine, or the `opNo`-th of a session. -/
inductive OpId
  | accept (n : ℕ)
  | session (sid opNo : ℕ)
  deriving DecidableEq

namespace Coros

/-- The suspension `id` lasts, in direction `d` on the object at `p`. -/
def InOp (co : Coros) (id : OpId) (d : Dir) (p : Addr) : Prop :=
  match id with
  | .accept n => co.acceptor = .susp n ∧ d = .read ∧ p = co.listen
  | .session sid k => ∃ s o, co.sessions sid = some s ∧ s.opNo = k ∧ s.pc = .susp o ∧ o.dir = d ∧
      s.ptr o.role = some p

instance (co : Coros) (id : OpId) (d : Dir) (p : Addr) : Decidable (co.InOp id d p) :=
  match id with
  | .accept n => inferInstanceAs (Decidable (co.acceptor = .susp n ∧ d = .read ∧ p = co.listen))
  | .session sid k =>
    decidable_of_iff (∃ s ∈ co.sessions sid, ∃ o ∈ s.pc.suspended, s.opNo = k ∧ o.dir = d ∧
        s.ptr o.role = some p) <| by
      constructor
      · rintro ⟨s, hs, o, ho, hk, hrest⟩
        exact ⟨s, o, hs, hk, Pc.mem_suspended.1 ho, hrest⟩
      · rintro ⟨s, o, hs, hk, hpc, hrest⟩
        exact ⟨s, hs, o, Pc.mem_suspended.2 hpc, hk, hrest⟩

/-- The suspension `id` has begun, so that no later one has this number. -/
def Past (co : Coros) : OpId → Prop
  | .accept n => n < co.acceptNo
  | .session sid k => sid < co.nextFrame ∧ ∀ s, co.sessions sid = some s → k ≤ s.opNo

variable {w w' : World Handle} {co co' : Coros} {id : OpId} {d : Dir} {p : Addr}

theorem InOp.past (h : co.InOp id d p) (hob : ObjectsOk w co) (hwt : Waiting co) : co.Past id := by
  cases id with
  | accept n => exact hwt.number n h.1
  | session sid k =>
    obtain ⟨s, o, hs, rfl, -⟩ := h
    refine ⟨hob.fresh sid s hs, fun t ht => ?_⟩
    rw [hs] at ht
    cases ht
    exact le_rfl

/-- The suspension of a session has its handle stored in a managed object. -/
theorem InOp.stored (h : co.InOp id d p) (hob : ObjectsOk w co) (hst : Stored w co) :
    p ∈ w.managedFd ∧ ∃ a x, w.heap p = some a ∧ a.coro d = some x ∧
      ∀ co', co.resume x = some co' → ¬ co'.InOp id d p := by
  cases id with
  | accept n =>
    obtain ⟨hn, rfl, rfl⟩ := h
    obtain ⟨a, ha, hx⟩ := hst.acceptor n hn
    refine ⟨(hob.listen (by simp [hn])).choose_spec.2.2, a, _, ha, hx, fun co' hr hin => ?_⟩
    rcases resume_cases hr with ⟨m, -, -, rfl⟩ | ⟨sid, s, o, e, -⟩
    · simp [InOp] at hin
    · cases e
  | session sid k =>
    obtain ⟨s, o, hs, rfl, hpc, rfl, hp⟩ := h
    obtain ⟨q, a, hq, ha, hx⟩ := hst.session sid s o hs hpc
    rw [hp] at hq
    cases hq
    refine ⟨?_, a, _, ha, hx, fun co' hr hin => ?_⟩
    · rcases (hob.session sid s hs).managed _ p hp with hm | ⟨-, t, ht⟩
      · exact hm
      · rw [hpc] at ht
        cases ht
    · rcases resume_cases hr with ⟨m, e, -⟩ | ⟨sid', s', o', e, hs', hpc', rfl⟩
      · cases e
      · simp only [Handle.echo.injEq] at e
        obtain ⟨rfl, -⟩ := e
        obtain ⟨t, o'', ht, -, hpc'', -⟩ := hin
        simp only [setSession, Function.update_self, Option.some.injEq] at ht
        rw [← ht] at hpc''
        cases hpc''

/-! ### Suspensions over one step -/

theorem Past.settle (h : co.Past id) {sid : ℕ} {s : Session} (hs : co.sessions sid = some s)
    {c : Choice} {after : After}
    (hm : Session.Moves w w' sid co.nextFrame s c after) (via : Bool) :
    (co.settle sid via after).Past id := by
  cases id with
  | accept n => cases after <;> exact h
  | session sid' k =>
    obtain ⟨hlt, hk⟩ := h
    refine ⟨?_, fun t ht => ?_⟩
    · cases after with
      | again => exact hlt.trans (Nat.lt_succ_self _)
      | _ => exact hlt
    · rw [settle_sessions hs, Function.update_apply] at ht
      split_ifs at ht with e
      · subst e
        have hle := hk s hs
        cases hm with
        | raw _ _ _ hop | attaches _ _ _ _ _ _ hop | drops _ _ _ _ _ hop =>
          cases ht; rw [hop]; exact hle
        | again | exits => cases ht; exact hle
        | completes => cases ht; rw [(Session.complete_rest _ _ _ _).2.2.1]; exact hle
        | suspends => cases ht; exact hle.trans (Nat.le_succ _)
        | closes => cases ht
      · exact hk t ht

theorem InOp.of_settle (hpast : co.Past id) {sid : ℕ} {s : Session}
    (hs : co.sessions sid = some s) {c : Choice} {after : After}
    (hm : Session.Moves w w' sid co.nextFrame s c after) (via : Bool)
    (h : (co.settle sid via after).InOp id d p) : co.InOp id d p := by
  cases id with
  | accept n => cases after <;> exact h
  | session sid' k =>
    obtain ⟨t, o, ht, hk, hpc, hrest⟩ := h
    rw [settle_sessions hs, Function.update_apply] at ht
    split_ifs at ht with e
    · subst e
      have hle := hpast.2 s hs
      have hafter := hm.eq_suspended ht hpc
      subst hafter
      cases hm
      -- a new suspension has a number of its own
      simp only at hk
      omega
    · exact ⟨t, o, ht, hk, hpc, hrest⟩

theorem Past.accept (h : co.Past id) {c : Choice} (hm : AcceptMoves w w' co c co') :
    co'.Past id := by
  cases id with
  | accept n =>
    cases hm with
    | suspends => exact Nat.lt_succ_of_lt h
    | _ => exact h
  | session sid k =>
    cases hm with
    | makes =>
      refine ⟨Nat.lt_succ_of_lt h.1, fun t ht => ?_⟩
      simp only [setSession, Function.update_of_ne h.1.ne] at ht
      exact h.2 t ht
    | _ => exact h

theorem InOp.of_accept (hpast : co.Past id) {c : Choice} (hm : AcceptMoves w w' co c co')
    (h : co'.InOp id d p) :
    co.InOp id d p := by
  cases id with
  | accept n =>
    cases hm with
    | suspends =>
      obtain ⟨e, -⟩ := h
      simp only [AcceptPc.susp.injEq] at e
      have : n < co.acceptNo := hpast
      omega
    | bootFails | exits => exact h
    | boots | completes | makes => simp [InOp] at h
  | session sid k =>
    cases hm with
    | makes =>
      obtain ⟨t, o, ht, hrest⟩ := h
      simp only [setSession, Function.update_of_ne hpast.1.ne] at ht
      exact ⟨t, o, ht, hrest⟩
    | _ => exact h

theorem Past.resume (h : co.Past id) {x : Handle} (hr : co.resume x = some co') : co'.Past id := by
  rcases resume_cases hr with ⟨n, -, -, rfl⟩ | ⟨sid, s, o, -, hs, -, rfl⟩
  · cases id <;> exact h
  · cases id with
    | accept n => exact h
    | session sid' k =>
      refine ⟨h.1, fun t ht => ?_⟩
      simp only [setSession, Function.update_apply] at ht
      split_ifs at ht with e
      · subst e
        cases ht
        exact h.2 s hs
      · exact h.2 t ht

theorem InOp.of_resume {x : Handle} (hr : co.resume x = some co') (h : co'.InOp id d p) :
    co.InOp id d p := by
  rcases resume_cases hr with ⟨n, -, -, rfl⟩ | ⟨sid, s, o, -, hs, -, rfl⟩
  · cases id with
    | accept n => simp [InOp] at h
    | session sid k => exact h
  · cases id with
    | accept n => exact h
    | session sid' k =>
      obtain ⟨t, o', ht, hk, hpc, hrest⟩ := h
      simp only [setSession, Function.update_apply] at ht
      split_ifs at ht with e
      · cases ht
        cases hpc
      · exact ⟨t, o', ht, hk, hpc, hrest⟩

end Coros

/-! ### A batch of events -/

/-- The event concerns an operation suspended in direction `d`: data, space, a hang-up or an error.
-/
def Concerns (m : Mask) (d : Dir) : Prop := m.has d.bit ∨ m.has EPOLLHUP ∨ m.has EPOLLERR

instance (m : Mask) (d : Dir) : Decidable (Concerns m d) := inferInstanceAs (Decidable (_ ∨ _))

/-- The suspension `id` has begun, and as long as it lasts the event `e` is still to be offered to
its direction. -/
structure Offered (id : OpId) (d : Dir) (e : Event) (S : State) : Prop where
  threads : ThreadsOk S
  past : S.co.Past id
  waits : S.ctl ≠ .exited → S.co.InOp id d e.ptr → e ∈ S.ctl.awaits d

/-- No step of the batch loses the event. -/
theorem Offered.step {S S' : State} {l : Label Choice} {id : OpId} {d : Dir} {e : Event}
    (hbit : e.events.has d.bit) (h : Offered id d e S) (hl : ∀ r, l ≠ .epollWait r)
    (hs : S.step l = some S') : Offered id d e S' := by
  have hth := h.threads.step hs
  have hob := h.threads.objects
  -- an event that is handled finds the operation's handle, or the operation has ended
  have hstored := fun hin : S.co.InOp id d e.ptr => hin.stored hob h.threads.stored
  have hnull : ∀ {a}, S.w.heap e.ptr = some a → a.coro d = none → ¬ S.co.InOp id d e.ptr := by
    intro a ha hcoro hin
    obtain ⟨-, b, x, hb, hx, -⟩ := hstored hin
    rw [ha] at hb
    cases hb
    rw [hcoro] at hx
    cases hx
  -- and the resumption ends it
  have hends : ∀ {a x co}, S.w.heap e.ptr = some a → a.coro d = some x →
      S.co.resume x = some co → S.co.InOp id d e.ptr → ¬ co.InOp id d e.ptr := by
    intro a x co ha hcoro hco hin
    obtain ⟨-, b, y, hb, hy, hend⟩ := hstored hin
    rw [ha] at hb
    cases hb
    rw [hcoro] at hy
    cases hy
    exact hend co hco
  cases Server.step_cases hs with
  | wait => exact absurd rfl (hl _)
  | batchEnd hctl hS =>
    subst hS
    refine ⟨hth, h.past, fun _ hin => ?_⟩
    have := h.waits (by simp [hctl]) hin
    simp [hctl, Control.awaits] at this
  | @unmanaged e' todo hctl hm hS =>
    subst hS
    refine ⟨hth, h.past, fun _ hin => ?_⟩
    have hmem := h.waits (by simp [hctl]) hin
    rw [hctl] at hmem
    rcases List.mem_cons.1 hmem with rfl | hmem
    · exact absurd (hstored hin).1 hm
    · exact hmem
  | @noIn e' todo hctl hm hin' hS =>
    subst hS
    refine ⟨hth, h.past, fun _ hin => ?_⟩
    have hmem := h.waits (by simp [hctl]) hin
    rw [hctl] at hmem
    cases d with
    | read =>
      rcases List.mem_cons.1 hmem with rfl | hmem
      · exact absurd hbit hin'
      · exact hmem
    | write => exact hmem
  | @recvNull e' todo a hctl hm hin' ha hcoro hS =>
    subst hS
    refine ⟨hth, h.past, fun _ hin => ?_⟩
    have hmem := h.waits (by simp [hctl]) hin
    rw [hctl] at hmem
    cases d with
    | read =>
      rcases List.mem_cons.1 hmem with rfl | hmem
      · exact absurd hin (hnull ha hcoro)
      · exact hmem
    | write => exact hmem
  | @recv e' todo a x co hctl hm hin' ha hcoro hco hS =>
    subst hS
    refine ⟨hth, h.past.resume hco, fun _ hin => ?_⟩
    have hin₀ := Coros.InOp.of_resume hco hin
    have hmem := h.waits (by simp [hctl]) hin₀
    rw [hctl] at hmem
    cases d with
    | read =>
      rcases List.mem_cons.1 hmem with rfl | hmem
      · exact absurd hin (hends ha hcoro hco hin₀)
      · exact hmem
    | write => exact hmem
  | @noOut e' todo hctl hout hS =>
    subst hS
    refine ⟨hth, h.past, fun _ hin => ?_⟩
    have hmem := h.waits (by simp [hctl]) hin
    rw [hctl] at hmem
    cases d with
    | read => exact hmem
    | write =>
      rcases List.mem_cons.1 hmem with rfl | hmem
      · exact absurd hbit hout
      · exact hmem
  | @sendNull e' todo a hctl hout ha hcoro hS =>
    subst hS
    refine ⟨hth, h.past, fun _ hin => ?_⟩
    have hmem := h.waits (by simp [hctl]) hin
    rw [hctl] at hmem
    cases d with
    | read => exact hmem
    | write =>
      rcases List.mem_cons.1 hmem with rfl | hmem
      · exact absurd hin (hnull ha hcoro)
      · exact hmem
  | @send e' todo a x co hctl hout ha hcoro hco hS =>
    subst hS
    refine ⟨hth, h.past.resume hco, fun _ hin => ?_⟩
    have hin₀ := Coros.InOp.of_resume hco hin
    have hmem := h.waits (by simp [hctl]) hin₀
    rw [hctl] at hmem
    cases d with
    | read => exact hmem
    | write =>
      rcases List.mem_cons.1 hmem with rfl | hmem
      · exact absurd hin (hends ha hcoro hco hin₀)
      · exact hmem
  | flushEnd hctl hS | flush hctl _ hS =>
    subst hS
    refine ⟨hth, h.past, fun _ hin => ?_⟩
    have := h.waits (by simp [hctl]) hin
    simp [hctl, Control.awaits] at this
  | @co k c m w' hctl hm hw hS =>
    subst hS
    have hawaits : m.status.control k ≠ .exited →
        (m.status.control k).awaits d = S.ctl.awaits d := by
      intro hne
      rw [hctl, Status.awaits_eq hne, Control.awaits_coro]
    have hne : S.ctl ≠ .exited := by simp [hctl]
    rcases (Coros.step_cases hm).acceptor_or_session hw with
      ⟨-, hacc⟩ | ⟨sid, via, s, act, pr, -, hsid, hact, -, rfl⟩
    · refine ⟨hth, h.past.accept hacc, fun hctl' hin => ?_⟩
      rw [hawaits hctl']
      exact h.waits hne (Coros.InOp.of_accept h.past hacc hin)
    · have hok := hob.session sid s hsid
      have hmv := Session.moves hact hw hok.shape fun r p a hp ha e => (hok.valid r p a hp ha e).2
      refine ⟨hth, ?_, fun hctl' hin => ?_⟩
      · cases id <;> exact h.past.settle hsid hmv via
      · rw [hawaits hctl']
        refine h.waits hne (Coros.InOp.of_settle h.past hsid hmv via ?_)
        cases id <;> exact hin
  | env hco hS =>
    subst hS
    obtain ⟨pid, pr, -, -, rfl⟩ := Coros.env_cases hco
    exact ⟨hth, by cases id <;> exact h.past, fun hne hin => h.waits hne (by cases id <;> exact hin)⟩

/-- Whenever `epoll_wait` reports an event that concerns an operation suspended on its object, the
event carries the bit of that operation's direction. -/
def Carries (S : State) : Label Choice → Prop
  | .epollWait reported => ∀ fd m i, (fd, m) ∈ reported → S.w.interest fd = some i →
      ∀ id d, S.co.InOp id d i.ptr → Concerns m d → m.has d.bit
  | _ => True

/-- **A wake-up is not lost.** In every run in which the events that concern a suspended operation
carry the bit of its direction, every such event of a batch has ended the suspension when the batch
has been processed. -/
theorem event_wakes {S S₁ S₂ : State} (h : Lts.Reach State.step Carries State.start S)
    {reported : List (Fd × Mask)} (hok : Carries S (.epollWait reported))
    (hwait : S.step (.epollWait reported) = some S₁) {evs : List Event}
    (hctl : S₁.ctl = .dispatch evs)
    (hbatch : Lts.Reach State.step (fun _ l => ∀ r, l ≠ .epollWait r) S₁ S₂)
    (hend : S₂.ctl = .dispatch []) :
    ∀ e ∈ evs, ∀ id d, S.co.InOp id d e.ptr → Concerns e.events d → ¬ S₂.co.InOp id d e.ptr := by
  intro e he id d hin hcon hin₂
  have hth := threadsOk_reach h
  have hth₁ := hth.step hwait
  cases Server.step_cases hwait with
  | @wait _ evs' hctl' hev hS =>
    subst hS
    cases hctl
    obtain ⟨fd, i, hmem, hi, hptr, -⟩ := mem_collectEvents (collect_eq_some hev).2 he
    have hbit := hok fd e.events i hmem hi id d (hptr ▸ hin) hcon
    have hoff : Offered id d e { S with ctl := .dispatch evs } :=
      ⟨hth₁, hin.past hth.objects hth.waiting, fun _ _ => he⟩
    have hoff₂ := hbatch.inv hoff fun _ _ _ hi hl hst => hi.step hbit hl hst
    have hlast := hoff₂.waits (by simp [hend]) hin₂
    simp [hend, Control.awaits] at hlast

/-! ### A written-out run: a session waits for its child's output -/

/-- No hang-up and no error is reported. -/
def plain : Label Choice → Bool
  | .epollWait reported => reported.all fun x => !(x.2.has EPOLLHUP) && !(x.2.has EPOLLERR)
  | _ => true

theorem carries_of_plain {S : State} {l : Label Choice} (h : plain l) : Carries S l := by
  cases l with
  | epollWait reported =>
    intro fd m i hmem _ id d _ hcon
    have hm := List.all_eq_true.1 h _ hmem
    simp only [Bool.and_eq_true, Bool.not_eq_true', decide_eq_false_iff_not] at hm
    rcases hcon with hbit | hup | herr
    · exact hbit
    · exact absurd hup hm.1
    · exact absurd herr hm.2
  | _ => trivial

/-- Labels of a batch. -/
def notWait : Label Choice → Bool
  | .epollWait _ => false
  | _ => true

theorem ne_of_notWait {l : Label Choice} (h : notWait l) : ∀ r, l ≠ .epollWait r := by
  rintro r rfl
  cases h

/-- The child's output arrives: the session has been resumed by the end of the batch, and waits for
space in the socket. -/
theorem event_wakes_reader : ∃ S₂ : State,
    ¬ S₂.co.InOp (.session 0 2) .read 3 ∧ S₂.co.InOp (.session 0 3) .write 2 := by
  obtain ⟨S, S₁, S₂, h, hwait, hbatch, hp⟩ := Lts.exists_reach_step_reach State.step Carries
    (fun _ l => ∀ r, l ≠ .epollWait r) State.start readRun (.epollWait [(7, EPOLLIN)])
    [.next, .co (.sys (.bytes [99, 97, 116, 10, 97] [])), .co .go, .co (.sys .wouldBlock), .next]
    (fun _ l => plain l) (fun _ _ => carries_of_plain) (fun _ l => notWait l)
    (fun _ _ => ne_of_notWait)
    (fun S S₁ S₂ => decide (S.co.InOp (.session 0 2) .read 3 ∧
      S₁.ctl = .dispatch [⟨3, EPOLLIN, some 2⟩] ∧ S₂.ctl = .dispatch [] ∧
      S₂.co.InOp (.session 0 3) .write 2)) (by decide)
  obtain ⟨hin, hctl, hend, hin₂⟩ := of_decide_eq_true hp
  refine ⟨S₂, ?_, hin₂⟩
  exact event_wakes h (carries_of_plain (by decide)) hwait hctl hbatch hend _ List.mem_cons_self _ _
    hin (by decide)

/-- A wake-up is lost: the child has closed its output without writing, which is reported as a
hang-up alone, and the session stays suspended on a descriptor that is still managed. -/
theorem hangup_lost :
    ¬ ∀ (S S₁ S₂ : State) (reported : List (Fd × Mask)) (evs : List Event),
      Lts.Reach State.step (fun _ _ => True) State.start S →
      S.step (.epollWait reported) = some S₁ → S₁.ctl = .dispatch evs →
      Lts.Reach State.step (fun _ l => ∀ r, l ≠ .epollWait r) S₁ S₂ → S₂.ctl = .dispatch [] →
      ∀ e ∈ evs, ∀ id d, S.co.InOp id d e.ptr → Concerns e.events d →
        ¬ S₂.co.InOp id d e.ptr ∨ e.ptr ∉ S₂.w.managedFd := by
  intro hall
  obtain ⟨S, S₁, S₂, h, hwait, hbatch, hp⟩ := Lts.exists_reach_step_reach State.step
    (fun _ _ => True) (fun _ l => ∀ r, l ≠ .epollWait r) State.start readRun
    (.epollWait [(7, EPOLLHUP)]) [.next, .next] (fun _ _ => true) (fun _ _ _ => trivial)
    (fun _ l => notWait l) (fun _ _ => ne_of_notWait)
    (fun S S₁ S₂ => decide (S.co.InOp (.session 0 2) .read 3 ∧
      S₁.ctl = .dispatch [⟨3, EPOLLHUP, some 2⟩] ∧ S₂.ctl = .dispatch [] ∧
      S₂.co.InOp (.session 0 2) .read 3 ∧ 3 ∈ S₂.w.managedFd)) (by decide)
  obtain ⟨hin, hctl, hend, hin₂, hm⟩ := of_decide_eq_true hp
  rcases hall S S₁ S₂ _ _ h hwait hctl hbatch hend _ List.mem_cons_self (.session 0 2) .read hin
    (by decide) with hno | hno
  · exact hno hin₂
  · exact hno hm

end EpollCoroutine
