import EpollCoroutine.Server.Sync

/-!
# Resumptions

`coroRecv_` and `coroSend_` are never cleared: a `Socket` keeps the handle of a `recv` that has
returned long ago. It must not be reported readable then. `unwatchRead` sees to that, unless a
`send` begins before the next flush: `watchWrite` computes the pending mask from `io_state_`, which
still has `EPOLLIN`, and the `unwatchRead` is forgotten.

* `State.sendsOverRecv`: a `send` begins in such a state.
* `Homes`: on which objects handles are left.
* `Quiet`: a direction of a `Socket` that is not waited for is not reported.
* `resumes_suspended`: `run` resumes operations that are suspended on the object of the event.
-/

namespace EpollCoroutine

/-- A `send` on a `Socket` that has a handle in `coroRecv_` and is registered for reading. -/
def Session.sendsOverRecv (w : World Handle) (s : Session) : Bool :=
  decide (s.pc = .call .send) &&
    ((s.ptr .socket).bind w.heap).any fun a => a.coroRecv.isSome && decide (a.ioState.has EPOLLIN)

/-- The running session makes a call of `send` on such a `Socket`. -/
def State.sendsOverRecv (S : State) : Label Choice → Bool
  | .co (.sys _) =>
    match S.co.running with
    | .session sid _ => (S.co.sessions sid).any (Session.sendsOverRecv S.w)
    | _ => false
  | _ => false

/-- The places where a session can be when the operation has been suspended on its present object.
-/
def Pc.past : Pc → Op → Bool
  | _, .recv => true
  | .susp .writepipe, .writepipe | .retry .writepipe, .writepipe | .finishwriting, .writepipe => true
  | .cleanup _, .writepipe | .cleanup _, .readpipe | .cleanup _, .whaitforprocesstodie => true
  | .call .readpipe, .readpipe | .susp .readpipe, .readpipe | .retry .readpipe, .readpipe => true
  | .finishReading, .readpipe => true
  | .call .send, .send | .susp .send, .send | .retry .send, .send => true
  | .call .whaitforprocesstodie, .send | .susp .whaitforprocesstodie, .send => true
  | .retry .whaitforprocesstodie, .send | .cleanup false, .send | .done false, .send => true
  | .susp .whaitforprocesstodie, .whaitforprocesstodie => true
  | .retry .whaitforprocesstodie, .whaitforprocesstodie => true
  | _, _ => false

/-- Every handle has been stored by an operation of the owner of the object. -/
def Homes (w : World Handle) (co : Coros) : Prop :=
  ∀ p a d x, w.heap p = some a → a.coro d = some x →
    (d = .read ∧ co.Owns .acceptor p) ∨
    ∃ sid s o, co.sessions sid = some s ∧ s.ptr o.role = some p ∧ o.dir = d ∧ s.pc.past o

/-- The direction of `o` on the `Socket` at `p` is not reported while `o` is not suspended: no event
of the batch is left, and once `o` has returned the next flush removes its bit. -/
structure Quiet (w : World Handle) (ctl : Control) (pc : Pc) (o : Op) (p : Addr)
    (a : AsyncFd Handle) : Prop where
  offered : pc ≠ .susp o → ¬ ctl.Pending o.dir p
  lacks : pc ≠ .susp o → pc ≠ .call o → pc ≠ .retry o → ¬ (w.eff p a).has o.dir.bit
  installed : pc = .susp .send ∨ pc = .retry .send → o = .recv → ¬ a.ioState.has EPOLLIN

/-- The `Socket` of a session is quiet where handles are left. -/
def Session.Quieted (w : World Handle) (ctl : Control) (s : Session) : Prop :=
  ∀ o p a, o.role = .socket → s.ptr .socket = some p → w.heap p = some a → a.coro o.dir ≠ none →
    Quiet w ctl s.pc o p a

/-! ### Homes -/

/-- An operation is given by its object and its direction. -/
theorem Op.eq_of_role_dir {o o' : Op} (hr : o.role = o'.role) (hd : o.dir = o'.dir) : o = o' := by
  cases o <;> cases o' <;> simp_all [Op.role, Op.dir]

section Homes

variable {w w' : World Handle} {co co' : Coros} {sid : ℕ} {s s' : Session} {p : Addr}
  {a : AsyncFd Handle} {o : Op} {c : Choice} {act : Act} {after : After}

/-- A handle on an object of a session was left by an operation of this session. -/
theorem Homes.past (h : Homes w co) (hob : ObjectsOk w co) (hs : co.sessions sid = some s)
    (hp : s.ptr o.role = some p) (ha : w.heap p = some a) (hx : a.coro o.dir ≠ none) :
    s.pc.past o := by
  obtain ⟨x, hx⟩ := Option.ne_none_iff_exists'.1 hx
  have hown : co.Owns (.session sid o.role) p := ⟨s, hs, hp⟩
  rcases h p a o.dir x ha hx with ⟨-, ho⟩ | ⟨sid', t, o', ht, hp', hd, hpast⟩
  · cases hob.owned.inj _ _ p hown ho
  · have hinj := hob.owned.inj _ (.session sid' o'.role) p hown ⟨t, ht, hp'⟩
    simp only [Owner.session.injEq] at hinj
    obtain ⟨rfl, hr⟩ := hinj
    rw [hs] at ht
    cases ht
    rwa [Op.eq_of_role_dir hr hd.symm]

/-- A session does not forget which operations it has suspended in. -/
theorem Session.StepCase.past {fresh : ℕ} (h : Session.StepCase w sid fresh s c act)
    (hs' : act.after.next s = some s') (hpast : s.pc.past o) (hp : s'.ptr o.role ≠ none) :
    s'.pc.past o := by
  by_cases ho : o = .recv
  · subst ho
    simp [Pc.past]
  cases h with
  | @value o' _ r hpc | @retry o' _ r hpc =>
    cases hs'
    rw [hpc] at hpast
    rcases Session.complete_pc s o' r (s.doneReading w) with ⟨rfl, e | e⟩ | ⟨rfl, e⟩ |
      ⟨rfl, e | e | e⟩ | ⟨rfl, e | e⟩ | ⟨rfl, e⟩ <;> rw [e] <;> cases o <;> simp_all [Pc.past]
  | @block o' _ r hpc =>
    cases hs'
    rw [hpc] at hpast
    cases o' <;> cases o <;> simp_all [Pc.past]
  | error => cases hs'; exact hpast
  | cleanup hpc => cases hs'; exact hpast
  | finishwriting hpc => cases hs'; rw [hpc] at hpast; cases o <;> simp_all [Pc.past, Op.role, Session.setPtr]
  | finishReading hpc =>
    cases hs'
    rw [hpc] at hpast
    cases o <;> simp_all [Pc.past, Op.role, Session.setPtr, Session.sendHead]
  | @cleaned t hpc hnone =>
    cases hs'
    rw [hpc] at hpast
    cases o <;> cases t <;> simp_all [Pc.past, Op.role]
  | close => cases hs'
  | again hpc | pipeW hpc | pipeWFail hpc | pipeR hpc | pipeRFail hpc | attachRd hpc | attachWr hpc
  | fork hpc | forkFail hpc | pidfdOpen hpc | pidfdFail hpc | attachPw hpc | closeEnds hpc =>
    rw [hpc] at hpast
    cases o <;> simp_all [Pc.past]

theorem Pc.past_susp (o : Op) : (Pc.susp o).past o := by
  cases o <;> rfl

theorem Pc.past_retry {o' : Op} (h : (Pc.susp o').past o) : (Pc.retry o').past o := by
  cases o' <;> cases o <;> simp_all [Pc.past]

/-- A session gets no object that exists already. -/
theorem Session.Moves.ptr_old {fresh : ℕ} (hm : Session.Moves w w' sid fresh s c after)
    (hs' : after.next s = some s') {r : Role} (hp : s'.ptr r = some p) (ha : w.heap p = some a) :
    s.ptr r = some p := by
  cases hm with
  | raw _ hptr => cases hs'; exact hptr ▸ hp
  | again | suspends | exits => cases hs'; exact hp
  | completes => cases hs'; rwa [(Session.complete_rest _ _ _ _).1] at hp
  | attaches _ _ _ hw hptr =>
    cases hs'
    rw [hptr, Function.update_apply] at hp
    split_ifs at hp
    · cases hp
      exact absurd rfl (hw.ne_of_live ha)
    · exact hp
  | drops _ _ _ hptr =>
    cases hs'
    rw [hptr, Function.update_apply] at hp
    split_ifs at hp
    exact hp
  | closes => cases hs'

theorem Homes.moves (h : Homes w co) (hob : ObjectsOk w co) (hs : co.sessions sid = some s)
    (hact : Session.StepCase w sid co.nextFrame s c act)
    (hm : Session.Moves w w' sid co.nextFrame s c act.after) (via : Bool)
    (hob' : ObjectsOk w' (co.settle sid via act.after)) (hreg' : w'.Registered) :
    Homes w' (co.settle sid via act.after) := by
  have hsess := Coros.settle_sessions hs via act.after
  intro q b d x hb hx
  rcases hm.coro_cases hb hx with ⟨a, ha, hx⟩ | ⟨o, -, hp, rfl, -, hafter⟩
  · rcases h q a d x ha hx with ⟨hd, hacc⟩ | ⟨sid', t, o, ht, hp, hd, hpast⟩
    · exact Or.inl ⟨hd, by simpa [Coros.Owns] using hacc⟩
    · right
      by_cases e : sid' = sid
      · -- the object is still there, so it still belongs to the session
        subst e
        rw [hs] at ht
        cases ht
        have hown : co.Owns (.session sid' o.role) q := ⟨s, hs, hp⟩
        obtain ⟨o', ho'⟩ := hob'.owned.owned q (hreg'.managed q b hb)
        cases o' with
        | acceptor =>
          cases hob.owned.inj _ .acceptor q hown (by simpa [Coros.Owns] using ho')
        | session sid'' r =>
          obtain ⟨t, ht, hr⟩ := ho'
          rw [hsess, Function.update_apply] at ht
          split_ifs at ht with e'
          · subst e'
            have hinj := hob.owned.inj _ (.session sid'' r) q hown ⟨s, hs, hm.ptr_old ht hr ha⟩
            simp only [Owner.session.injEq, true_and] at hinj
            rw [← hinj] at hr
            refine ⟨sid'', t, o, ?_, hr, hd, hact.past ht hpast (by simp [hr])⟩
            rw [hsess, Function.update_self, ht]
          · have hinj := hob.owned.inj _ (.session sid'' r) q hown ⟨t, ht, hr⟩
            simp only [Owner.session.injEq] at hinj
            exact absurd hinj.1.symm e'
      · exact ⟨sid', t, o, by rw [hsess, Function.update_of_ne e]; exact ht, hp, hd, hpast⟩
  · refine Or.inr ⟨sid, { s with pc := .susp o, opNo := s.opNo + 1 }, o, ?_, hp, rfl, Pc.past_susp o⟩
    rw [hsess, Function.update_self, hafter]
    rfl

theorem Homes.accept (h : Homes w co) (hob : ObjectsOk w co)
    (hm : Coros.AcceptMoves w w' co c co') : Homes w' co' := by
  intro q b d x hb hx
  rcases hm.coro_cases hb hx with ⟨a, ha, hx⟩ | ⟨rfl, rfl, -, rfl⟩
  · rcases h q a d x ha hx with ⟨hd, hacc⟩ | ⟨sid, t, o, ht, hrest⟩
    · refine Or.inl ⟨hd, ?_⟩
      cases hm with
      | boots hpc | bootFails hpc => exact absurd hpc hacc.1
      | completes | suspends | makes => exact ⟨by simp, hacc.2⟩
      | exits => exact hacc
    · refine Or.inr ⟨sid, t, o, ?_, hrest⟩
      cases hm with
      | makes =>
        simp only [Coros.setSession, Function.update_of_ne (hob.fresh sid t ht).ne]
        exact ht
      | _ => exact ht
  · exact Or.inl ⟨rfl, by simp, rfl⟩

theorem Homes.resume (h : Homes w co) {x : Handle} (hr : co.resume x = some co') : Homes w co' := by
  intro q b d y hb hy
  rcases Coros.resume_cases hr with ⟨n, -, hn, rfl⟩ | ⟨sid, s, o, -, hs, hpc, rfl⟩
  · rcases h q b d y hb hy with ⟨hd, hacc⟩ | hsess
    · exact Or.inl ⟨hd, by simp, hacc.2⟩
    · exact Or.inr hsess
  · rcases h q b d y hb hy with ⟨hd, hacc⟩ | ⟨sid', t, o', ht, hp, hd, hpast⟩
    · exact Or.inl ⟨hd, hacc⟩
    · right
      by_cases e : sid' = sid
      · subst e
        rw [hs] at ht
        cases ht
        rw [hpc] at hpast
        exact ⟨sid', { s with pc := .retry o }, o', by simp [Coros.setSession], hp, hd,
          Pc.past_retry hpast⟩
      · exact ⟨sid', t, o', by simpa [Coros.setSession, Function.update_of_ne e] using ht, hp, hd, hpast⟩

theorem Homes.sets (h : Homes w co) {b : AsyncFd Handle} {m : Bool} (hw : w.Sets w' p b m)
    (ha : w.heap p = some a) (hab : ∀ d, b.coro d = a.coro d) : Homes w' co := by
  intro q b' d x hb hx
  rcases hw.heap_cases hb with ⟨rfl, rfl⟩ | ⟨-, hb⟩
  · exact h q a d x ha (hab d ▸ hx)
  · exact h q b' d x hb hx

end Homes

/-! ### Quiet sockets -/

section Quiet

variable {w w' : World Handle} {ctl ctl' : Control} {co co' : Coros} {sid : ℕ} {s s' : Session}
  {p : Addr} {a a' : AsyncFd Handle} {o : Op} {pc pc' : Pc} {c : Choice} {act : Act}
  {after : After}

/-- Between operations nothing about the `Socket` changes. -/
theorem Quiet.carry (h : Quiet w ctl pc o p a) (hpc : pc ≠ .susp o ∧ pc ≠ .call o ∧ pc ≠ .retry o)
    (heff : w'.eff p a' = w.eff p a) (hpend : ∀ d q, ctl'.Pending d q → ctl.Pending d q)
    (hpc' : pc' ≠ .susp .send ∧ pc' ≠ .retry .send) : Quiet w' ctl' pc' o p a' where
  offered _ hp := h.offered hpc.1 (hpend _ _ hp)
  lacks _ _ _ := by rw [heff]; exact h.lacks hpc.1 hpc.2.1 hpc.2.2
  installed e := by
    rcases e with e | e
    · exact absurd e hpc'.1
    · exact absurd e hpc'.2

/-- A session that sends is not registered for reading if there is a handle to be resumed. -/
theorem Session.Quieted.not_readable (h : s.Quieted w ctl)
    (hpc : s.pc = .call .send ∨ s.pc = .retry .send)
    (hp : s.ptr .socket = some p) (ha : w.heap p = some a) (hx : a.coro .read ≠ none)
    (hguard : s.sendsOverRecv w = false) : ¬ a.ioState.has EPOLLIN := by
  rcases hpc with hpc | hpc
  · intro hin
    have hsome : a.coroRecv.isSome := Option.isSome_iff_ne_none.2 hx
    simp [Session.sendsOverRecv, hpc, hp, ha, hsome, hin] at hguard
  · exact (h .recv p a rfl hp ha hx).installed (Or.inr hpc) rfl

/-- The two operations on a `Socket`. -/
theorem Op.role_socket (ho : o.role = .socket) : o = .recv ∨ o = .send := by
  cases o <;> simp_all [Op.role]

/-- An operation on the `Socket` has returned. -/
theorem Session.Quieted.completes (h : s.Quieted w ctl)
    (hpast : ∀ o p a, s.ptr o.role = some p → w.heap p = some a → a.coro o.dir ≠ none → s.pc.past o)
    (ho : o.role = .socket) (hpc : s.pc = .call o ∨ s.pc = .retry o) (hp : s.ptr .socket = some p)
    (ha : w.heap p = some a)
    (hw : w.Puts w' p { a with ioNewState := a.ioState &&& ~~~o.dir.bit } true)
    (hguard : s.sendsOverRecv w = false) (hpend : ∀ d q, ctl'.Pending d q → ctl.Pending d q)
    (hptr : s'.ptr = s.ptr) (hpc' : ∀ o', s'.pc ≠ .susp o' ∧ s'.pc ≠ .retry o') :
    s'.Quieted w' ctl' := by
  intro o₁ q b ho₁ hq hb hx
  rw [hptr, hp] at hq
  cases hq
  rcases hw.toSets.heap_cases hb with ⟨-, rfl⟩ | ⟨hne, -⟩
  swap
  · exact absurd rfl hne
  have hx : a.coro o₁.dir ≠ none := by cases hd : o₁.dir <;> rw [hd] at hx <;> exact hx
  have hold := h o₁ p a ho₁ hp ha hx
  have hinst : s'.pc = .susp .send ∨ s'.pc = .retry .send → o₁ = .recv → ¬ a.ioState.has EPOLLIN :=
    fun e => absurd e (not_or.2 (hpc' .send))
  have hoff : ¬ ctl'.Pending o₁.dir p := fun hP => by
    refine hold.offered ?_ (hpend _ _ hP)
    rcases hpc with e | e <;> simp [e]
  refine ⟨fun _ => hoff, fun _ _ _ => ?_, hinst⟩
  rw [hw.toSets.eff_self]
  show ¬ (a.ioState &&& ~~~o.dir.bit).has o₁.dir.bit
  rw [Mask.has_andNot]
  rintro ⟨hd, hbit⟩
  rcases Op.role_socket ho with rfl | rfl <;> rcases Op.role_socket ho₁ with rfl | rfl
  · exact hd rfl
  · -- no `send` has been suspended before the `recv` returns
    have := hpast .send p a hp ha hx
    rcases hpc with e | e <;> simp [e, Pc.past] at this
  · exact h.not_readable hpc hp ha hx hguard hbit
  · exact hd rfl

/-- An operation has suspended on the `Socket`. -/
theorem Session.Quieted.suspends (h : s.Quieted w ctl)
    (hpast : ∀ o p a, s.ptr o.role = some p → w.heap p = some a → a.coro o.dir ≠ none → s.pc.past o)
    (ho : o.role = .socket) (hpc : s.pc = .call o) (hp : s.ptr .socket = some p)
    (ha : w.heap p = some a) {x : Handle}
    (hw : w.Puts w' p ((a.begun o).setCoro o.dir x) o.watches)
    (hguard : s.sendsOverRecv w = false) (hpend : ∀ d q, ctl'.Pending d q → ctl.Pending d q) (n : ℕ) :
    { s with pc := .susp o, opNo := n : Session }.Quieted w' ctl' := by
  intro o₁ q b ho₁ hq hb hx
  have hq : s.ptr .socket = some q := hq
  rw [hp] at hq
  cases hq
  rcases hw.toSets.heap_cases hb with ⟨-, rfl⟩ | ⟨hne, -⟩
  swap
  · exact absurd rfl hne
  by_cases e : o₁ = o
  · subst e
    refine ⟨fun e => absurd rfl e, fun e => absurd rfl e, fun e e' => ?_⟩
    subst e'
    simp at e
  · have hd : o₁.dir ≠ o.dir := fun hd => e (Op.eq_of_role_dir (ho₁.trans ho.symm) hd)
    have hx : a.coro o₁.dir ≠ none := by
      rw [AsyncFd.coro_setCoro, if_neg hd] at hx
      simpa using hx
    have hold := h o₁ p a ho₁ hp ha hx
    rcases Op.role_socket ho with rfl | rfl <;> rcases Op.role_socket ho₁ with rfl | rfl
    · exact absurd rfl e
    · have := hpast .send p a hp ha hx
      simp [hpc, Pc.past] at this
    · have hno := h.not_readable (Or.inl hpc) hp ha hx hguard
      refine ⟨fun _ hP => hold.offered (by simp [hpc]) (hpend _ _ hP), fun _ _ _ => ?_, fun _ _ => ?_⟩
      · rw [hw.toSets.eff_suspends]
        show ¬ (a.ioState ||| Dir.write.bit).has Dir.read.bit
        rw [Mask.has_or]
        rintro (hd | hin)
        · cases hd
        · exact hno hin
      · simpa using hno
    · exact absurd rfl e

/-- A step of the session that owns the `Socket`. -/
theorem Session.Quieted.moves (h : s.Quieted w ctl) (hob : ObjectsOk w co)
    (hhome : Homes w co) (hs : co.sessions sid = some s)
    (hact : Session.StepCase w sid co.nextFrame s c act)
    (hm : Session.Moves w w' sid co.nextFrame s c act.after) (hrun : act.after ≠ .exited)
    (hguard : s.sendsOverRecv w = false) (hpend : ∀ d q, ctl'.Pending d q → ctl.Pending d q)
    (hs' : act.after.next s = some s') : s'.Quieted w' ctl' := by
  have hsusp := hact.not_susp
  have hpast := fun o p a hp ha hx => hhome.past (o := o) (p := p) (a := a) hob hs hp ha hx
  -- the `Socket` is not the object of another role
  have hne : ∀ {r p q}, r ≠ .socket → s.ptr r = some p → s.ptr .socket = some q → q ≠ p := by
    rintro r p q hr hp hq rfl
    have := hob.owned.inj (.session sid r) (.session sid .socket) q ⟨s, hs, hp⟩ ⟨s, hs, hq⟩
    simp only [Owner.session.injEq, true_and] at this
    exact hr this
  generalize act.after = after at *
  cases hm with
  | raw hw hptr _ _ hstart hsusp' =>
    cases hs'
    intro o p a ho hp ha hx
    rw [hptr] at hp
    rw [hw.heap] at ha
    exact (h o p a ho hp ha hx).carry ⟨hsusp o, hstart o⟩ (hw.eff p a) hpend (hsusp' .send)
  | again hw hpc =>
    cases hs'
    intro o p a ho hp ha hx
    rw [hw.heap] at ha
    exact (h o p a ho hp ha hx).carry (by simp [hpc]) (hw.eff p a) hpend (by simp)
  | @completes o p a r dr hpc hp ha _ hw =>
    cases hs'
    have hptr := (Session.complete_rest s o r dr).1
    have hpc' : ∀ o', (s.complete o r dr).pc ≠ .susp o' ∧ (s.complete o r dr).pc ≠ .retry o' := by
      intro o'
      rcases Session.complete_pc s o r dr with ⟨-, e | e⟩ | ⟨-, e⟩ | ⟨-, e | e | e⟩ | ⟨-, e | e⟩ |
        ⟨-, e⟩ <;> rw [e] <;> simp
    by_cases ho : o.role = .socket
    · rw [ho] at hp
      exact h.completes hpast ho hpc hp ha hw hguard hpend hptr hpc'
    · intro o₁ q b ho₁ hq hb hx
      rw [hptr] at hq
      have hqp := hne ho hp hq
      rcases hw.toSets.heap_cases hb with ⟨e, -⟩ | ⟨-, hb⟩
      · exact absurd e hqp
      · have ho' : o₁ ≠ o := by
          rintro rfl
          exact ho ho₁
        refine (h o₁ q b ho₁ hq hb hx).carry ?_ (hw.toSets.eff_of_ne hqp b) hpend (hpc' .send)
        rcases hpc with e | e <;> simp [e, ho'.symm]
  | @suspends o p a hpc hp ha _ hw =>
    cases hs'
    by_cases ho : o.role = .socket
    · rw [ho] at hp
      exact h.suspends hpast ho hpc hp ha hw hguard hpend _
    · intro o₁ q b ho₁ hq hb hx
      have hqp := hne ho hp hq
      rcases hw.toSets.heap_cases hb with ⟨e, -⟩ | ⟨-, hb⟩
      · exact absurd e hqp
      · have ho' : o₁ ≠ o := by
          rintro rfl
          exact ho ho₁
        refine (h o₁ q b ho₁ hq hb hx).carry (by simp [hpc, ho'.symm])
          (hw.toSets.eff_of_ne hqp b) hpend ?_
        refine ⟨fun e => ?_, by simp⟩
        cases e
        exact ho rfl
  | attaches hr _ _ hw hptr _ _ hstart hsusp' =>
    cases hs'
    intro o p a ho hp ha hx
    rw [hptr, Function.update_of_ne hr.symm] at hp
    obtain ⟨b, hb⟩ := hob.owned.live (.session sid .socket) p ⟨s, hs, hp⟩
    rcases hw.heap_cases ha with ⟨e, -⟩ | ⟨-, ha⟩
    · exact absurd e (hw.ne_of_live hb)
    · exact (h o p a ho hp ha hx).carry ⟨hsusp o, hstart o⟩ (hw.eff p a) hpend (hsusp' .send)
  | drops hr hp' hw hptr _ _ hstart hsusp' =>
    cases hs'
    intro o p a ho hp ha hx
    rw [hptr, Function.update_of_ne hr.symm] at hp
    obtain ⟨hqp, ha⟩ := hw.heap_cases ha
    exact (h o p a ho hp ha hx).carry ⟨hsusp o, hstart o⟩ (hw.eff_of_ne hqp a) hpend (hsusp' .send)
  | closes => cases hs'
  | exits => exact absurd rfl hrun

/-- A `Socket` that stays as it is. -/
theorem Session.Quieted.frame (h : s.Quieted w ctl)
    (hw : ∀ p, s.ptr .socket = some p → w'.heap p = w.heap p ∧
      (p ∈ w'.processedSockets ↔ p ∈ w.processedSockets))
    (hpend : ∀ d q, ctl'.Pending d q → ctl.Pending d q) : s.Quieted w' ctl' := by
  intro o p a ho hp ha hx
  obtain ⟨hheap, hproc⟩ := hw p hp
  rw [hheap] at ha
  have hold := h o p a ho hp ha hx
  refine ⟨fun e hP => hold.offered e (hpend _ _ hP), fun e₁ e₂ e₃ => ?_, hold.installed⟩
  rw [World.eff_congr hproc]
  exact hold.lacks e₁ e₂ e₃

/-- A hang-up is noted. -/
theorem Session.Quieted.noteHangup (h : s.Quieted w ctl) {e : Event} (ha : w.heap e.ptr = some a) :
    s.Quieted (w.noteHangup e) ctl := by
  have hw := World.noteHangup_puts ha
  intro o p b ho hp hb hx
  rcases hw.toSets.heap_cases hb with ⟨rfl, rfl⟩ | ⟨hne, hb⟩
  · have hx : a.coro o.dir ≠ none := by cases hd : o.dir <;> rw [hd] at hx <;> exact hx
    have hold := h o e.ptr a ho hp ha hx
    refine ⟨hold.offered, fun e₁ e₂ e₃ => ?_, hold.installed⟩
    rw [hw.toSets.eff_unmarked (a := a) rfl rfl]
    exact hold.lacks e₁ e₂ e₃
  · have hold := h o p b ho hp hb hx
    refine ⟨hold.offered, fun e₁ e₂ e₃ => ?_, hold.installed⟩
    rw [hw.toSets.eff_of_ne hne]
    exact hold.lacks e₁ e₂ e₃

/-- The flush installs masks that lack the bit. -/
theorem Session.Quieted.flushOne (h : s.Quieted w ctl) (ha : w.heap p = some a)
    (hp : p ∈ w.processedSockets) (ok : Bool) (hpend : ∀ d q, ctl'.Pending d q → ctl.Pending d q) :
    s.Quieted (w.flushOne p a ok) ctl' := by
  have hw := World.flushOne_sets ha ok
  intro o q b ho hq hb hx
  rcases hw.heap_cases hb with ⟨rfl, rfl⟩ | ⟨hne, hb⟩
  · have hx : a.coro o.dir ≠ none := by cases hd : o.dir <;> rw [hd] at hx <;> exact hx
    have hold := h o q a ho hq ha hx
    refine ⟨fun e hP => hold.offered e (hpend _ _ hP), fun e₁ e₂ e₃ => ?_, fun e ho' => ?_⟩
    · rw [World.flushOne_eff ha hp]
      exact hold.lacks e₁ e₂ e₃
    · subst ho'
      have hno := hold.lacks (by rcases e with e | e <;> simp [e])
        (by rcases e with e | e <;> simp [e])
        (by rcases e with e | e <;> simp [e])
      rw [World.eff, if_pos hp] at hno
      exact hno
  · have hold := h o q b ho hq hb hx
    refine ⟨fun e hP => hold.offered e (hpend _ _ hP), fun e₁ e₂ e₃ => ?_, hold.installed⟩
    rw [hw.eff_of_ne hne]
    exact hold.lacks e₁ e₂ e₃

/-- The operation in which a session is suspended is resumed. -/
theorem Session.Quieted.resumed (h : s.Quieted w ctl) (hpc : s.pc = .susp o)
    (hpend : ∀ d q, ctl'.Pending d q → ctl.Pending d q)
    (hdone : ∀ p, s.ptr o.role = some p → ¬ ctl'.Pending o.dir p) :
    { s with pc := .retry o : Session }.Quieted w ctl' := by
  intro o₁ p a ho₁ hp ha hx
  have hp : s.ptr .socket = some p := hp
  by_cases e : o₁ = o
  · subst e
    refine ⟨fun _ => hdone p (ho₁ ▸ hp), fun _ _ e₃ => absurd rfl e₃, fun e ho' => ?_⟩
    subst ho'
    simp at e
  · have hold := h o₁ p a ho₁ hp ha hx
    have hne : s.pc ≠ .susp o₁ := by simpa [hpc] using Ne.symm e
    refine ⟨fun _ hP => hold.offered hne (hpend _ _ hP), fun _ _ _ => ?_, fun e' => ?_⟩
    · exact hold.lacks hne (by simp [hpc]) (by simp [hpc])
    · refine hold.installed (Or.inl ?_)
      simpa [hpc] using e'

end Quiet

/-! ### The batch -/

/-- An object is reported once in a batch. -/
theorem collectEvents_nodup {w : World Handle} (hk : w.KernelOk) {l : List (Fd × Mask)}
    {evs : List Event} (h : w.collectEvents l = some evs) (hl : (l.map Prod.fst).Nodup) :
    (evs.map Event.ptr).Nodup := by
  induction l generalizing evs with
  | nil => cases h; exact List.nodup_nil
  | cons r l ih =>
    obtain ⟨fd, m⟩ := r
    obtain ⟨i, evs', hi, -, hevs, rfl⟩ := collectEvents_cons h
    rw [List.map_cons, List.nodup_cons] at hl ⊢
    refine ⟨fun hmem => ?_, ih hevs hl.2⟩
    obtain ⟨e, he, hptr⟩ := List.mem_map.1 hmem
    obtain ⟨fd', i', hmem', hi', hptr', -⟩ := mem_collectEvents hevs he
    -- the object has one descriptor
    obtain ⟨-, a, ha, hfd⟩ := hk.interest_live fd i hi
    obtain ⟨-, a', ha', hfd'⟩ := hk.interest_live fd' i' hi'
    rw [← hptr', hptr] at ha'
    rw [ha] at ha'
    cases ha'
    rw [hfd] at hfd'
    subst hfd'
    have hmem'' := List.mem_map_of_mem (f := Prod.fst) hmem'
    exact hl.1 hmem''

/-! ### The invariant -/

/-- Handles are left where they have been stored, and what is left on a `Socket` is not reported. -/
structure ResumesOk (S : State) : Prop where
  synced : Synced S
  homes : Homes S.w S.co
  quiet : ∀ sid s, S.co.sessions sid = some s → s.Quieted S.w S.ctl
  batch : ((S.ctl.awaits .write).map Event.ptr).Nodup

/-- An operation that a session suspended elsewhere has left behind is one on its `Socket`. -/
theorem Pc.past_other {o o' : Op} (h : (Pc.susp o').past o) (hne : o ≠ o') : o.role = .socket := by
  cases o <;> cases o' <;> simp_all [Pc.past, Op.role]

namespace ResumesOk

variable {S S' : State} {l : Label Choice} {d : Dir} {p : Addr} {a : AsyncFd Handle} {x : Handle}

/-- An event that is still to be offered finds the handle of an operation suspended on its object.
-/
theorem suspended (h : ResumesOk S) (hin : S.ctl.inRun) (hP : S.ctl.Pending d p)
    (ha : S.w.heap p = some a) (hx : a.coro d = some x) : S.co.SuspendedOn x d p := by
  have hth := h.synced.threads
  rcases h.homes p a d x ha hx with ⟨rfl, -, rfl⟩ | ⟨sid, s, o, hs, hp, rfl, hpast⟩
  · obtain ⟨n, hn⟩ := hth.waiting.acceptor (Or.inl (hth.idle hin))
    obtain ⟨a', ha', hx'⟩ := hth.stored.acceptor n hn
    rw [ha] at ha'
    cases ha'
    rw [hx] at hx'
    cases hx'
    exact ⟨hn, rfl, rfl⟩
  · obtain ⟨o', hpc⟩ := hth.waiting.others sid s hs (by simp [hth.idle hin])
    by_cases e : o = o'
    · subst e
      obtain ⟨p', a', hp', ha', hx'⟩ := hth.stored.session sid s o hs hpc
      rw [hp] at hp'
      cases hp'
      rw [ha] at ha'
      cases ha'
      rw [hx] at hx'
      cases hx'
      exact ⟨s, o, hs, rfl, hpc, rfl, hp⟩
    · rw [hpc] at hpast
      have ho := Pc.past_other hpast e
      rw [ho] at hp
      have hq := h.quiet sid s hs o p a ho hp ha (by simp [hx])
      exact absurd hP (hq.offered (by simpa [hpc] using Ne.symm e))

theorem start_holds : ResumesOk State.start where
  synced := .start_holds
  homes p a d x ha := by cases ha
  quiet sid s hs := by cases hs
  batch := List.nodup_nil

/-- `epoll_wait` does not report a direction of a `Socket` that is not waited for. -/
theorem wait (h : ResumesOk S) (hctl : S.ctl = .epollWait) {reported : List (Fd × Mask)}
    {evs : List Event} (hev : S.w.collect reported = some evs) {sid : ℕ} {s : Session}
    (hs : S.co.sessions sid = some s) : s.Quieted S.w (.dispatch evs) := by
  have hth := h.synced.threads
  have hob := hth.objects
  obtain ⟨o', hpc⟩ := hth.waiting.others sid s hs (by simp [hth.idle (by rw [hctl]; rfl)])
  intro o p a ho hp ha hx
  have hold := h.quiet sid s hs o p a ho hp ha hx
  refine ⟨fun hne hP => ?_, hold.lacks, hold.installed⟩
  obtain ⟨e, he, hptr, hbit⟩ := hP
  obtain ⟨fd, i, -, hi, hptr', hrep⟩ := mem_collectEvents (collect_eq_some hev).2 he
  -- the event comes from the registration of this object, which has its `io_state_`
  obtain ⟨-, b, hb, hfd⟩ := hob.kernel.interest_live fd i hi
  rw [← hptr', hptr, ha] at hb
  cases hb
  have hreg := h.synced.registered.interest p a ha (hfd ▸ hob.kernel.fd_ne hi)
  rw [hfd, hi, Option.some.injEq] at hreg
  have hin : a.ioState.has o.dir.bit := by
    have := hrep.has_dir hbit
    rwa [hreg] at this
  rcases h.synced.wait hctl with hflushed | hfresh
  · rw [hflushed p a ha] at hin
    exact hold.lacks hne (by simp [hpc]) (by simp [hpc]) hin
  · obtain ⟨x, hx⟩ := Option.ne_none_iff_exists'.1 hx
    have hown : S.co.Owns (.session sid o.role) p := ⟨s, hs, ho ▸ hp⟩
    have hsusp := hfresh.stored p a o.dir x ha hx
    cases x with
    | accept n =>
      cases hob.owned.inj _ .acceptor p hown ⟨by simp [hsusp.1], hsusp.2.2⟩
    | echo sid' f =>
      obtain ⟨t, o₁, ht, -, hpc₁, hd, hp₁⟩ := hsusp
      have hinj := hob.owned.inj _ (.session sid' o₁.role) p hown ⟨t, ht, hp₁⟩
      simp only [Owner.session.injEq] at hinj
      obtain ⟨rfl, hr⟩ := hinj
      rw [hs] at ht
      cases ht
      exact hne (Op.eq_of_role_dir hr hd.symm ▸ hpc₁)

/-- The sessions after a resumption. -/
theorem resume (h : ResumesOk S) (hin : S.ctl.inRun) (hP : S.ctl.Pending d p)
    (ha : S.w.heap p = some a) (hx : a.coro d = some x) {w : World Handle} {ctl : Control}
    (hq : ∀ sid s, S.co.sessions sid = some s → s.Quieted w S.ctl) {co : Coros}
    (hco : S.co.resume x = some co) (hpend : ∀ d q, ctl.Pending d q → S.ctl.Pending d q)
    (hdone : ¬ ctl.Pending d p) : ∀ sid s, co.sessions sid = some s → s.Quieted w ctl := by
  have hkeep : ∀ sid s, S.co.sessions sid = some s → s.Quieted w ctl := fun sid s hs =>
    (hq sid s hs).frame (fun _ _ => ⟨rfl, Iff.rfl⟩) hpend
  have hsusp := h.suspended hin hP ha hx
  rcases Coros.resume_cases hco with ⟨n, -, -, rfl⟩ | ⟨sid, s, o, rfl, hs, hpc, rfl⟩
  · exact hkeep
  · obtain ⟨t, o', ht, -, hpc', rfl, hp⟩ := hsusp
    rw [hs] at ht
    cases ht
    rw [hpc] at hpc'
    cases hpc'
    intro sid' t ht
    simp only [Coros.setSession, Function.update_apply] at ht
    split_ifs at ht with e
    · cases ht
      refine (hq sid s hs).resumed hpc hpend fun q hq' => ?_
      rw [hp] at hq'
      cases hq'
      exact hdone
    · exact hkeep sid' t ht

/-- A step of a coroutine. -/
theorem coroutine (h : ResumesOk S) {c : Choice} {m : Move Handle Coros} {w' : World Handle}
    (hm : S.co.step c S.w = some m) (hw : Call.applyAll m.calls S.w = some w')
    (hguard : S.sendsOverRecv (.co c) = false) (hlive : m.status ≠ .exited)
    (hob' : ObjectsOk w' m.next) (hreg' : w'.Registered) {ctl : Control}
    (hpend : ∀ d q, ctl.Pending d q → S.ctl.Pending d q) :
    Homes w' m.next ∧ ∀ sid s, m.next.sessions sid = some s → s.Quieted w' ctl := by
  have hob := h.synced.threads.objects
  rcases (Coros.step_cases hm).acceptor_or_session hw with
    ⟨hrun, hacc⟩ | ⟨sid, via, s, act, pr, hrun, hsid, hact, -, rfl⟩
  · refine ⟨h.homes.accept hob hacc, fun sid s hs => ?_⟩
    rcases hacc.session_cases hs with hold | ⟨p, oid, fd, rfl, hnew⟩
    · refine (h.quiet sid s hold).frame (fun p hp => ?_) hpend
      obtain ⟨h1, -, h3⟩ := hob.frame_accept hacc (r := .socket) ⟨s, hold, hp⟩
      exact ⟨h1, h3⟩
    · -- a new session has a `Socket` without handles
      intro o q b ho hq hb hx
      simp only [Session.start, Function.update_self, Option.some.injEq] at hq
      subst hq
      rw [hnew] at hb
      cases hb
      cases hd : o.dir <;> rw [hd] at hx <;> exact absurd rfl hx
  · have hok := hob.session sid s hsid
    have hmv := Session.moves hact hw hok.shape fun r p a hp ha e => (hok.valid r p a hp ha e).2
    have hne : act.after ≠ .exited := by
      intro e
      exact hlive (by simp [e, Coros.status])
    have hsend : s.sendsOverRecv S.w = false := by
      by_contra hon
      rw [Bool.not_eq_false] at hon
      have hpc : s.pc = .call .send := by
        simp only [Session.sendsOverRecv, Bool.and_eq_true, decide_eq_true_eq] at hon
        exact hon.1
      have hc : ∃ r, c = .sys r := by
        cases hact with
        | value | block | error | retry => exact ⟨_, rfl⟩
        | _ => simp_all
      obtain ⟨r, rfl⟩ := hc
      simp [State.sendsOverRecv, hrun, hsid, hon] at hguard
    have hhomes := h.homes.moves hob hsid hact hmv via (hob'.congr rfl rfl Iff.rfl le_rfl) hreg'
    refine ⟨hhomes, fun sid' t ht => ?_⟩
    have ht : (S.co.settle sid via act.after).sessions sid' = some t := ht
    rw [Coros.settle_sessions hsid, Function.update_apply] at ht
    split_ifs at ht with e
    · exact (h.quiet sid s hsid).moves hob h.homes hsid hact hmv hne hsend hpend ht
    · refine (h.quiet sid' t ht).frame (fun p hp => ?_) hpend
      obtain ⟨h1, -, h3⟩ := hob.frame hsid hmv (o := .session sid' .socket) ⟨t, ht, hp⟩
        (by simp [e])
      exact ⟨h1, h3⟩

theorem step (h : ResumesOk S) (hok : EpollOk l) (hguard : S.sendsOverRecv l = false)
    (hs : S.step l = some S') (hlive : S'.ctl ≠ .exited) : ResumesOk S' := by
  have hsync := h.synced.step hok hs hlive
  have hpend := fun hl d q => Server.Pending.of_step hs hl (d := d) (p := q)
  have hbatch := fun hl => h.batch.sublist ((Server.awaits_step hs hl .write).map Event.ptr)
  have hkeep : (∀ r, l ≠ .epollWait r) → ∀ sid s, S.co.sessions sid = some s →
      s.Quieted S.w S'.ctl := fun hl sid s hsid =>
    (h.quiet sid s hsid).frame (fun _ _ => ⟨rfl, Iff.rfl⟩) (hpend hl)
  cases Server.step_cases hs with
  | wait hctl hev hS =>
    subst hS
    obtain ⟨hnodup, hcollect⟩ := collect_eq_some hev
    exact ⟨hsync, h.homes, fun sid s => h.wait hctl hev,
      collectEvents_nodup h.synced.threads.objects.kernel hcollect hnodup⟩
  | batchEnd hctl hS | unmanaged hctl _ hS | noIn hctl _ _ hS | noOut hctl _ hS
  | sendNull hctl _ _ _ hS | flushEnd hctl hS =>
    subst hS
    exact ⟨hsync, h.homes, hkeep (by simp), hbatch (by simp)⟩
  | recvNull hctl _ _ ha _ hS =>
    subst hS
    exact ⟨hsync, h.homes.sets (World.noteHangup_puts ha).toSets ha (by rintro ⟨⟩ <;> rfl),
      fun sid s hsid => (hkeep (by simp) sid s hsid).noteHangup ha, hbatch (by simp)⟩
  | @recv e todo a x co hctl hm hin ha hcoro hco hS =>
    subst hS
    have hnodup := h.batch
    rw [hctl] at hnodup
    have hrest : e.ptr ∉ todo.map Event.ptr := (List.nodup_cons.1 hnodup).1
    refine ⟨hsync, (h.homes.sets (World.noteHangup_puts ha).toSets ha (by rintro ⟨⟩ <;> rfl)).resume hco,
      h.resume (d := .read) (by rw [hctl]; rfl) ?_ ha hcoro
        (fun sid s hsid => (h.quiet sid s hsid).noteHangup ha) hco (hpend (by simp)) ?_, hbatch (by simp)⟩
    · exact ⟨e, by rw [hctl]; exact List.mem_cons_self, rfl, hin⟩
    · rintro ⟨e', he', hptr, -⟩
      exact hrest (hptr ▸ List.mem_map_of_mem he')
  | @send e todo a x co hctl hout ha hcoro hco hS =>
    subst hS
    have hnodup := h.batch
    rw [hctl] at hnodup
    have hrest : e.ptr ∉ todo.map Event.ptr := (List.nodup_cons.1 hnodup).1
    refine ⟨hsync, h.homes.resume hco,
      h.resume (d := .write) (by rw [hctl]; rfl) ?_ ha hcoro h.quiet hco (hpend (by simp)) ?_,
      hbatch (by simp)⟩
    · exact ⟨e, by rw [hctl]; exact List.mem_cons_self, rfl, hout⟩
    · rintro ⟨e', he', hptr, -⟩
      exact hrest (hptr ▸ List.mem_map_of_mem he')
  | @flush p todo a ok hctl ha hS =>
    subst hS
    have hp := (h.synced.flush _ hctl).1 p List.mem_cons_self
    exact ⟨hsync, h.homes.sets (World.flushOne_sets ha ok) ha (by rintro ⟨⟩ <;> rfl),
      fun sid s hsid => (h.quiet sid s hsid).flushOne ha hp ok (hpend (by simp)), hbatch (by simp)⟩
  | @co k c m w' hctl hm hw hS =>
    subst hS
    obtain ⟨h1, h2⟩ := h.coroutine hm hw hguard (fun e => hlive (Status.control_eq_exited.2 e))
      hsync.threads.objects hsync.registered (hpend (by simp))
    exact ⟨hsync, h1, h2, hbatch (by simp)⟩
  | env hco hS =>
    subst hS
    obtain ⟨pid, pr, -, -, rfl⟩ := Coros.env_cases hco
    exact ⟨hsync, h.homes, hkeep (by simp), hbatch (by simp)⟩

end ResumesOk

/-! ### Resumptions by `run` -/

/-- `run` is about to call `resumeRecv` or `resumeSend` on the object at `p`, where it finds the
handle `x`. -/
def State.Resumes (S : State) (d : Dir) (p : Addr) (x : Handle) : Prop :=
  ∃ e todo a, e.ptr = p ∧ S.w.heap p = some a ∧ a.coro d = some x ∧ e.events.has d.bit ∧
    match d with
    | .read => S.ctl = .dispatch (e :: todo) ∧ p ∈ S.w.managedFd
    | .write => S.ctl = .out e todo

/-- Such an event has still to be offered. -/
theorem State.Resumes.pending {S : State} {d : Dir} {p : Addr} {x : Handle} (h : S.Resumes d p x) :
    S.ctl.inRun ∧ S.ctl.Pending d p := by
  obtain ⟨e, todo, a, hptr, -, -, hbit, hctl⟩ := h
  cases d with
  | read =>
    rw [hctl.1]
    exact ⟨rfl, e, List.mem_cons_self, hptr, hbit⟩
  | write =>
    have hctl : S.ctl = .out e todo := hctl
    rw [hctl]
    exact ⟨rfl, e, List.mem_cons_self, hptr, hbit⟩

/-- **Only suspended operations are resumed.** In every run in which every `epoll_ctl` succeeds and
no `send` begins on a `Socket` that has a handle in `coroRecv_` and is registered for reading:
whenever `run` resumes a handle, its coroutine is suspended on the object of the event and in the
direction of the event. -/
theorem resumes_suspended {S : State}
    (h : Lts.Reach State.step (fun S l => EpollOk l ∧ S.sendsOverRecv l = false) State.start S)
    {d : Dir} {p : Addr} {x : Handle} (hx : S.Resumes d p x) : S.co.SuspendedOn x d p := by
  have hinv : S.ctl ≠ .exited → ResumesOk S := by
    refine h.inv (I := fun S => S.ctl ≠ .exited → ResumesOk S) (fun _ => .start_holds) ?_
    intro S l S' hS hl hst hlive
    exact (hS fun e => hlive (State.exited_step e hst)).step hl.1 hl.2 hst hlive
  obtain ⟨hin, hP⟩ := hx.pending
  have hlive : S.ctl ≠ .exited := by
    intro e
    rw [e] at hin
    cases hin
  obtain ⟨e, todo, a, rfl, ha, hcoro, -, -⟩ := hx
  exact (hinv hlive).suspended hin hP ha hcoro

/-- The session that waits for its child's output is resumed by the event of the pipe. -/
theorem resumes_suspended_reader : ∃ S : State, S.Resumes .read 3 (.echo 0 0) ∧
    S.co.SuspendedOn (.echo 0 0) .read 3 := by
  obtain ⟨S, h, hp⟩ := Lts.exists_reach State.step
    (fun S l => EpollOk l = true ∧ S.sendsOverRecv l = false) State.start
    (readRun ++ [.epollWait [(7, EPOLLIN)]])
    (fun S l => EpollOk l && !S.sendsOverRecv l) (fun S l hl => by simpa using hl)
    (fun S => decide (S.ctl = .dispatch [⟨3, EPOLLIN, some 2⟩] ∧ 3 ∈ S.w.managedFd ∧
      ∃ a ∈ S.w.heap 3, a.coroRecv = some (.echo 0 0))) (by decide)
  obtain ⟨hctl, hm, a, ha, hcoro⟩ := of_decide_eq_true hp
  have hx : S.Resumes .read 3 (.echo 0 0) :=
    ⟨⟨3, EPOLLIN, some 2⟩, [], a, rfl, ha, hcoro, by decide, hctl, hm⟩
  exact ⟨S, hx, resumes_suspended h hx⟩

/-- A coroutine is resumed that has moved on: the session has been resumed by data on its `Socket`
and has got as far as its `send` within one batch. The `send` would block, so the flush installs
`EPOLLIN` again, and further data resumes the session as if it were in `recv`. -/
theorem recv_resumes_send :
    ¬ ∀ S : State, Lts.Reach State.step (fun _ l => EpollOk l) State.start S →
      ∀ d p x, S.Resumes d p x → S.co.SuspendedOn x d p := by
  intro hall
  obtain ⟨S, h, hp⟩ := Lts.exists_reach State.step (fun _ l => EpollOk l = true) State.start
    (listenRun ++ connectRun 2 4 ++ flushRun 2 ++
      [.epollWait [(4, EPOLLIN)], .next, .co (.sys (.bytes [97] []))] ++ spawnRun 3 5 100 ++
      [.co (.sys (.bytes [99, 97, 116, 10, 97] [])), .co .go, .co (.sys .wouldBlock), .next] ++
      flushRun 2 ++ [.epollWait [(4, EPOLLIN)]])
    (fun _ l => EpollOk l) (fun _ _ hl => hl)
    (fun S => decide (S.ctl = .dispatch [⟨2, EPOLLIN, some 1⟩] ∧ 2 ∈ S.w.managedFd ∧
      (∃ a ∈ S.w.heap 2, a.coroRecv = some (.echo 0 0)) ∧
      ¬ S.co.SuspendedOn (.echo 0 0) .read 2)) (by decide)
  obtain ⟨hctl, hm, ⟨a, ha, hcoro⟩, hno⟩ := of_decide_eq_true hp
  exact hno (hall S h .read 2 _
    ⟨⟨2, EPOLLIN, some 1⟩, [], a, rfl, ha, hcoro, by decide, hctl, hm⟩)

end EpollCoroutine
