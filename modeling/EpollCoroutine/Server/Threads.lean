import EpollCoroutine.Server.Objects

/-!
# Who runs and who waits

There is one thread. While `run` has it, every coroutine is suspended in an operation, and its
handle is stored in the object of that operation (`ThreadsOk`).
-/

namespace EpollCoroutine

/-- `run` has the thread. -/
def Control.inRun : Control → Bool
  | .epollWait | .dispatch _ | .out _ _ | .flush _ => true
  | .coro _ | .exited => false

/-- The handle of a suspended coroutine is where its operation has put it. -/
structure Stored (w : World Handle) (co : Coros) : Prop where
  session : ∀ sid s o, co.sessions sid = some s → s.pc = .susp o →
    ∃ p a, s.ptr o.role = some p ∧ w.heap p = some a ∧ a.coro o.dir = some (.echo sid s.frame)
  acceptor : ∀ n, co.acceptor = .susp n →
    ∃ a, w.heap co.listen = some a ∧ a.coro .read = some (.accept n)

/-- All coroutines but the running one are suspended. -/
structure Waiting (co : Coros) : Prop where
  others : ∀ sid s, co.sessions sid = some s → (∀ via, co.running ≠ .session sid via) →
    ∃ o, s.pc = .susp o
  acceptor : (co.running = .idle ∨ ∃ sid, co.running = .session sid false) →
    ∃ n, co.acceptor = .susp n
  via : ∀ sid, co.running = .session sid true → co.acceptor = .call
  number : ∀ n, co.acceptor = .susp n → n < co.acceptNo

/-- Who runs and who waits. -/
structure ThreadsOk (S : State) : Prop where
  objects : ObjectsOk S.w S.co
  stored : Stored S.w S.co
  waiting : Waiting S.co
  idle : S.ctl.inRun → S.co.running = .idle

section Steps

variable {w w' : World Handle} {co co' : Coros} {sid : ℕ} {s : Session}

/-! ### Stored handles -/

/-- A change that keeps the handles of the objects. -/
theorem Stored.sets (h : Stored w co) {p : Addr} {a b : AsyncFd Handle} {m : Bool}
    (hw : w.Sets w' p b m) (ha : w.heap p = some a) (hab : ∀ d, b.coro d = a.coro d) :
    Stored w' co := by
  have hold : ∀ {q c d x}, w.heap q = some c → c.coro d = some x →
      ∃ c', w'.heap q = some c' ∧ c'.coro d = some x := by
    intro q c d x hc hx
    rw [hw.heap, Function.update_apply]
    split_ifs with e
    · rw [e, ha] at hc
      cases hc
      exact ⟨b, rfl, (hab d).trans hx⟩
    · exact ⟨c, hc, hx⟩
  refine ⟨fun sid s o hs hpc => ?_, fun n hn => ?_⟩
  · obtain ⟨q, c, hq, hc, hx⟩ := h.session sid s o hs hpc
    obtain ⟨c', hc', hx'⟩ := hold hc hx
    exact ⟨q, c', hq, hc', hx'⟩
  · obtain ⟨c, hc, hx⟩ := h.acceptor n hn
    exact hold hc hx

/-- The objects of the other sessions and the listening `Socket` stay as they are during a step of
a session. -/
theorem ObjectsOk.frame (h : ObjectsOk w co) (hs : co.sessions sid = some s) {c : Choice}
    {after : After}
    (hm : Session.Moves w w' sid co.nextFrame s c after) {o : Owner} {q : Addr}
    (ho : co.Owns o q) (hne : ∀ r, o ≠ .session sid r) :
    w'.heap q = w.heap q ∧ (q ∈ w'.managedFd ↔ q ∈ w.managedFd) ∧
      (q ∈ w'.processedSockets ↔ q ∈ w.processedSockets) := by
  obtain ⟨a, ha⟩ := h.owned.live o q ho
  rw [ha]
  refine hm.frame ha fun r hr => ?_
  exact hne r (h.owned.inj o (.session sid r) q ho ⟨s, hs, hr⟩)

/-- The objects of the sessions stay as they are during a step of the `accept` coroutine. -/
theorem ObjectsOk.frame_accept (h : ObjectsOk w co) {c : Choice}
    (hm : Coros.AcceptMoves w w' co c co') {sid : ℕ}
    {r : Role} {q : Addr} (ho : co.Owns (.session sid r) q) :
    w'.heap q = w.heap q ∧ (q ∈ w'.managedFd ↔ q ∈ w.managedFd) ∧
      (q ∈ w'.processedSockets ↔ q ∈ w.processedSockets) := by
  obtain ⟨a, ha⟩ := h.owned.live _ q ho
  rw [ha]
  refine hm.frame ha fun hb e => ?_
  have := h.owned.inj (.session sid r) .acceptor q ho ⟨hb, e⟩
  cases this

/-- A session is suspended after a step only if the step has suspended it. -/
theorem Session.Moves.eq_suspended {fresh : ℕ} {c : Choice} {after : After}
    (hm : Session.Moves w w' sid fresh s c after) {s' : Session} (hs' : after.next s = some s')
    {o : Op} (hpc : s'.pc = .susp o) : after = .suspended s' := by
  cases hm with
  | raw _ _ _ _ _ hsusp | attaches _ _ _ _ _ _ _ _ hsusp | drops _ _ _ _ _ _ _ hsusp =>
    cases hs'
    exact absurd hpc (hsusp o).1
  | again => cases hs'; cases hpc
  | @completes o' _ _ r dr =>
    cases hs'
    rcases Session.complete_pc s o' r dr with ⟨-, e | e⟩ | ⟨-, e⟩ | ⟨-, e | e | e⟩ |
      ⟨-, e | e⟩ | ⟨-, e⟩ <;> rw [e] at hpc <;> cases hpc
  | suspends => cases hs'; rfl
  | closes => cases hs'
  | exits hpc' =>
    cases hs'
    rw [hpc'] at hpc
    cases hpc

theorem Stored.moves (h : Stored w co) (hob : ObjectsOk w co) (hs : co.sessions sid = some s)
    {c : Choice} {after : After}
    (hm : Session.Moves w w' sid co.nextFrame s c after) (via : Bool) :
    Stored w' (co.settle sid via after) := by
  have hb : co.acceptor ≠ .boot := fun e => by simp [hob.boot e sid] at hs
  have hlisten : ∀ n, co.acceptor = .susp n →
      ∃ a, w'.heap co.listen = some a ∧ a.coro .read = some (.accept n) := by
    intro n hn
    rw [(hob.frame hs hm (o := .acceptor) ⟨hb, rfl⟩ (by simp)).1]
    exact h.acceptor n hn
  have hother : ∀ sid' t o, sid' ≠ sid → co.sessions sid' = some t → t.pc = .susp o →
      ∃ p a, t.ptr o.role = some p ∧ w'.heap p = some a ∧
        a.coro o.dir = some (.echo sid' t.frame) := by
    intro sid' t o hne ht hpc
    obtain ⟨p, a, hp, ha, hx⟩ := h.session sid' t o ht hpc
    rw [← (hob.frame hs hm (o := .session sid' o.role) ⟨t, ht, hp⟩ (by simp [hne])).1] at ha
    exact ⟨p, a, hp, ha, hx⟩
  refine ⟨fun sid' t o ht hpc => ?_, ?_⟩
  · rw [Coros.settle_sessions hs, Function.update_apply] at ht
    split_ifs at ht with e
    · subst e
      have hafter := hm.eq_suspended ht hpc
      subst hafter
      cases hm with
      | suspends hpc' hp ha hfd hw _ =>
        cases hpc
        refine ⟨_, _, hp, by rw [hw.heap, Function.update_self], ?_⟩
        rw [AsyncFd.coro_setCoro, if_pos rfl]
    · exact hother sid' t o e ht hpc
  · cases after <;> exact hlisten

theorem Stored.accept (h : Stored w co) (hob : ObjectsOk w co)
    {c : Choice} (hm : Coros.AcceptMoves w w' co c co') : Stored w' co' := by
  have hother : ∀ sid t o, co.sessions sid = some t → t.pc = .susp o →
      ∃ p a, t.ptr o.role = some p ∧ w'.heap p = some a ∧
        a.coro o.dir = some (.echo sid t.frame) := by
    intro sid t o ht hpc
    obtain ⟨p, a, hp, ha, hx⟩ := h.session sid t o ht hpc
    rw [← (hob.frame_accept hm ⟨t, ht, hp⟩).1] at ha
    exact ⟨p, a, hp, ha, hx⟩
  cases hm with
  | boots | completes => exact ⟨hother, by simp⟩
  | bootFails hpc => exact ⟨hother, by simp [hpc]⟩
  | exits hpc => exact ⟨hother, by simp [hpc]⟩
  | suspends hpc ha hw' =>
    refine ⟨hother, fun n hn => ⟨_, by rw [hw'.heap, Function.update_self], ?_⟩⟩
    rw [AsyncFd.coro_setCoro, if_pos rfl]
    cases hn
    rfl
  | makes hpc hw' =>
    refine ⟨fun sid t o ht hpc' => ?_, by simp⟩
    simp only [Coros.setSession, Function.update_apply] at ht
    split_ifs at ht with e
    · cases ht
      cases hpc'
    · exact hother sid t o ht hpc'

theorem Stored.resume (h : Stored w co) {hd : Handle} (hr : co.resume hd = some co') :
    Stored w co' := by
  rcases Coros.resume_cases hr with ⟨n, -, -, rfl⟩ | ⟨sid, s, o, -, hs, hpc, rfl⟩
  · exact ⟨h.session, by simp⟩
  · refine ⟨fun sid' t o' ht hpc' => ?_, h.acceptor⟩
    simp only [Coros.setSession, Function.update_apply] at ht
    split_ifs at ht with e
    · cases ht
      cases hpc'
    · exact h.session sid' t o' ht hpc'

/-! ### Who waits -/

theorem Waiting.settle (h : Waiting co) {via : Bool} (hrun : co.running = .session sid via)
    (hs : co.sessions sid = some s) {after : After}
    (hsusp : ∀ s', after = .suspended s' → ∃ o, s'.pc = .susp o) :
    Waiting (co.settle sid via after) := by
  have hothers : ∀ sid' t, sid' ≠ sid → co.sessions sid' = some t → ∃ o, t.pc = .susp o := by
    intro sid' t hne ht
    refine h.others sid' t ht fun via' e => ?_
    rw [hrun] at e
    cases e
    exact hne rfl
  refine ⟨fun sid' t ht hne => ?_, fun hidle => ?_, fun sid' e => ?_, ?_⟩
  · rw [Coros.settle_sessions hs, Function.update_apply] at ht
    split_ifs at ht with e
    · subst e
      cases after with
      | running | again | exited => exact absurd hrun (hne via)
      | suspended s' => cases ht; exact hsusp _ rfl
      | ended => cases ht
    · exact hothers sid' t e ht
  · cases after with
    | running | again | exited => exact h.acceptor hidle
    | suspended | ended =>
      cases via with
      | true => simp [Coros.settle, Coros.back] at hidle
      | false => exact h.acceptor (Or.inr ⟨sid, hrun⟩)
  · cases after with
    | running | again | exited => exact h.via sid' e
    | suspended | ended =>
      cases via with
      | true => simp [Coros.settle, Coros.back] at e
      | false => simp [Coros.settle, Coros.back] at e
  · cases after <;> exact h.number

theorem Waiting.accept (h : Waiting co) (hrun : co.running = .acceptor)
    {c : Choice} (hm : Coros.AcceptMoves w w' co c co') : Waiting co' := by
  have hothers : ∀ sid t, co.sessions sid = some t → ∃ o, t.pc = .susp o := fun sid t ht =>
    h.others sid t ht (by simp [hrun])
  cases hm with
  | boots | completes =>
    exact ⟨fun sid t ht _ => hothers sid t ht, by simp [hrun], by simp [hrun], by simp⟩
  | bootFails | exits => exact h
  | suspends => exact ⟨fun sid t ht _ => hothers sid t ht, fun _ => ⟨_, rfl⟩, by simp, by simp⟩
  | makes =>
    refine ⟨fun sid t ht hne => ?_, by simp, fun _ _ => rfl, by simp⟩
    simp only [Coros.setSession, Function.update_apply] at ht
    split_ifs at ht with e
    · subst e
      exact absurd rfl (hne true)
    · exact hothers sid t ht

theorem Waiting.resume (h : Waiting co) (hrun : co.running = .idle) {hd : Handle}
    (hr : co.resume hd = some co') : Waiting co' := by
  have hothers : ∀ sid t, co.sessions sid = some t → ∃ o, t.pc = .susp o := fun sid t ht =>
    h.others sid t ht (by simp [hrun])
  rcases Coros.resume_cases hr with ⟨n, -, -, rfl⟩ | ⟨sid, s, o, -, hs, hpc, rfl⟩
  · exact ⟨fun sid t ht _ => hothers sid t ht, by simp, by simp, by simp⟩
  · refine ⟨fun sid' t ht hne => ?_, fun _ => h.acceptor (Or.inl hrun), by simp, h.number⟩
    simp only [Coros.setSession, Function.update_apply] at ht
    split_ifs at ht with e
    · subst e
      exact absurd rfl (hne false)
    · exact hothers sid' t ht

/-! ### Steps of the server -/

theorem Session.Moves.susp {c : Choice} {after : After}
    (hm : Session.Moves w w' sid co.nextFrame s c after) :
    ∀ s', after = .suspended s' → ∃ o, s'.pc = .susp o := by
  rintro s' rfl
  cases hm
  exact ⟨_, rfl⟩

/-- A coroutine that returns to `run` leaves nobody running. -/
theorem Coros.StepCase.idle {c : Choice} {m : Move Handle Coros} (h : Coros.StepCase w co c m)
    {k : Cont} (hin : (m.status.control k).inRun) : m.next.running = .idle := by
  cases h with
  | @session sid via s c act =>
    cases hafter : act.after <;> cases via <;>
      simp_all [Coros.status, Coros.backStatus, Coros.settle, Coros.back, Status.control,
        Control.inRun]
  | acceptBlock => rfl
  | _ => simp [Status.control, Control.inRun] at hin

theorem ThreadsOk.startWith (opened : Finset ℕ) : ThreadsOk (State.startWith opened) where
  objects := objectsOk_startWith opened
  stored := ⟨fun sid s o hs => (by cases hs), fun n hn => (by cases hn)⟩
  waiting := ⟨fun sid s hs => (by cases hs),
    by simp [State.startWith, State.start, Server.start, Coros.start],
    by simp [State.startWith, State.start, Server.start, Coros.start], fun n hn => (by cases hn)⟩
  idle h := by simp [State.startWith, State.start, Server.start, Control.inRun] at h

theorem ThreadsOk.start : ThreadsOk State.start := State.startWith_empty ▸ .startWith ∅

theorem ThreadsOk.step {S S' : State} {l : Label Choice} (h : ThreadsOk S)
    (hs : S.step l = some S') : ThreadsOk S' := by
  have hob := h.objects.step hs
  cases Server.step_cases hs with
  | wait hctl _ hS | batchEnd hctl hS | unmanaged hctl _ hS | noIn hctl _ _ hS | noOut hctl _ hS
  | sendNull hctl _ _ _ hS | flushEnd hctl hS =>
    subst hS
    exact ⟨hob, h.stored, h.waiting, fun _ => h.idle (by rw [hctl]; rfl)⟩
  | recvNull hctl _ _ ha _ hS =>
    subst hS
    exact ⟨hob, h.stored.sets (World.noteHangup_puts ha).toSets ha (by rintro ⟨⟩ <;> rfl), h.waiting,
      fun _ => h.idle (by rw [hctl]; rfl)⟩
  | recv hctl _ _ ha _ hco hS =>
    subst hS
    exact ⟨hob, (h.stored.sets (World.noteHangup_puts ha).toSets ha (by rintro ⟨⟩ <;> rfl)).resume hco,
      h.waiting.resume (h.idle (by rw [hctl]; rfl)) hco, by simp [Control.inRun]⟩
  | send hctl _ _ _ hco hS =>
    subst hS
    exact ⟨hob, h.stored.resume hco, h.waiting.resume (h.idle (by rw [hctl]; rfl)) hco,
      by simp [Control.inRun]⟩
  | flush hctl ha hS =>
    subst hS
    exact ⟨hob, h.stored.sets (World.flushOne_sets ha _) ha (by rintro ⟨⟩ <;> rfl), h.waiting,
      fun _ => h.idle (by rw [hctl]; rfl)⟩
  | @co k c m w' hctl hm hw hS =>
    subst hS
    rcases (Coros.step_cases hm).acceptor_or_session hw with
      ⟨hrun, hacc⟩ | ⟨sid, via, s, act, pr, hrun, hsid, hact, -, rfl⟩
    · exact ⟨hob, h.stored.accept h.objects hacc, h.waiting.accept hrun hacc,
        (Coros.step_cases hm).idle⟩
    · have hok := h.objects.session sid s hsid
      have hmv := Session.moves hact hw hok.shape fun r p a hp ha e => (hok.valid r p a hp ha e).2
      have hst := h.stored.moves h.objects hsid hmv via
      have hwt := h.waiting.settle hrun hsid hmv.susp
      exact ⟨hob, ⟨hst.session, hst.acceptor⟩, ⟨hwt.others, hwt.acceptor, hwt.via, hwt.number⟩,
        (Coros.step_cases hm).idle⟩
  | env hco hS =>
    subst hS
    obtain ⟨pid, pr, -, -, rfl⟩ := Coros.env_cases hco
    exact ⟨hob, ⟨h.stored.session, h.stored.acceptor⟩,
      ⟨h.waiting.others, h.waiting.acceptor, h.waiting.via, h.waiting.number⟩, h.idle⟩

theorem ThreadsOk.reach {ok : State → Label Choice → Prop} {S₀ S : State} (h0 : ThreadsOk S₀)
    (h : Lts.Reach State.step ok S₀ S) : ThreadsOk S :=
  h.inv h0 fun _ _ _ hi _ hst => hi.step hst

theorem threadsOk_reach {ok : State → Label Choice → Prop} {S : State}
    (h : Lts.Reach State.step ok State.start S) : ThreadsOk S :=
  ThreadsOk.start.reach h

end Steps

end EpollCoroutine
