import EpollCoroutine.Server.Children
import EpollCoroutine.Echo.Calls

/-!
# The calls of `echo_loop`, whatever the interleaving

A run of the server with the log of every call of `echo_loop`: its completed operations, in order.
The calls are interleaved with each other, suspended, resumed and retried; each is nevertheless a
run of the sequential machine `EchoAt.next`.

* `State.note`: what a step adds to the logs.
* `Session.echoAt`: where a session is, as far as the machine can see.
* `Session.step_echoAt`: a step either cannot be seen or is one move of the machine.
* `calls_refine`: in every run, the log of every call is a trace of the machine, and leads to where
  the session is.
* `server_replies`, `server_echoes`: so what is known of the two loops on their own holds for every
  call of every run.
-/

namespace EpollCoroutine

/-! ### Logs -/

/-- The operation that `co_await` completes with the result `r`. -/
def Session.completed (s : Session) (o : Op) (r : Sys) (doneReading : Bool) : Io :=
  match o, r with
  | .recv, .bytes l _ => .recv (some l)
  | .recv, _ => .recv none
  | .writepipe, .count n => .writepipe s.vars.data (some n)
  | .writepipe, _ => .writepipe s.vars.data none
  | .readpipe, .bytes l after => .readpipe (.bytes l) after doneReading
  | .readpipe, _ => .readpipe .failed [] doneReading
  | .send, .count n => .send (s.vars.merged.drop s.vars.nbSend) (some n)
  | .send, _ => .send (s.vars.merged.drop s.vars.nbSend) none
  | .whaitforprocesstodie, _ => .whaitforprocesstodie

/-- The operation that a step of a session completes. -/
def Session.io (w : World Handle) (s : Session) (c : Choice) : Option Io :=
  match s.pc, c with
  | .call o, .sys r => if r.completes then some (s.completed o r (s.doneReading w)) else none
  | .retry o, .sys r => some (s.completed o r (s.doneReading w))
  | .attachRd, .object _ ok => if w.addSucceeds s.mFdR.1 ok then none else some .noChild
  | .attachPw fd, .object _ ok => if w.addSucceeds fd ok then none else some .noChild
  | .pipeW, .failed | .pipeR, .failed | .fork, .failed | .pidfdOpen, .failed => some .noChild
  | _, _ => none

/-- What a step of the server adds to the logs, one for each call of `echo_loop`. -/
def State.note (S : State) (l : Label Choice) (g : ℕ → List Io) : ℕ → List Io :=
  match l, S.co.running with
  | .co c, .session sid _ =>
    match S.co.sessions sid with
    | some s =>
      match s.io S.w c with
      | some io => Function.update g s.frame (g s.frame ++ [io])
      | none => g
    | none => g
  | _, _ => g

/-- A state of the server with the logs. -/
abbrev Logged := State × (ℕ → List Io)

/-- The state is reached by some run, with these logs. -/
def Logged.Reached (x : Logged) : Prop :=
  Lts.Reach (Lts.withLog State.step State.note) (fun _ _ => True) (State.start, fun _ => []) x

/-! ### Sessions -/

/-- Where a session is, as far as the machine can see. -/
def Session.echoAt (s : Session) : EchoAt :=
  match s.pc with
  | .call o | .susp o | .retry o =>
    match o with
    | .recv => .receiving
    | .writepipe => .writing s.vars
    | .readpipe => .reading s.vars
    | .send => .sending s.vars
    | .whaitforprocesstodie => .waiting s.vars
  | .pipeW | .pipeR | .attachRd | .attachWr | .fork | .pidfdOpen | .attachPw _ | .closeEnds =>
    .writing s.vars
  | .finishwriting => .reading s.vars
  | .finishReading => .sendHead s.vars.stripFirstLine
  | .cleanup _ | .done _ => .finished

/-- The operation of the machine that the operation `o` stands for. -/
theorem Session.echoAt_call {s : Session} {o : Op} (h : s.pc = .call o ∨ s.pc = .retry o) :
    s.echoAt = ({ s with pc := .call o } : Session).echoAt := by
  rcases h with h | h <;> simp [Session.echoAt, h]

theorem Session.sendHead_echoAt (s : Session) : s.sendHead.echoAt = .sendHead s.vars := by
  unfold Session.sendHead EchoAt.sendHead Session.echoAt
  by_cases h : s.vars.sendMore <;> simp [h]

/-- The result of an operation is one move of the machine. -/
theorem Session.complete_echoAt {s : Session} {o : Op} {r : Sys} {d : Bool}
    (h : s.pc = .call o ∨ s.pc = .retry o) :
    s.echoAt.next (s.completed o r d) = some (s.complete o r d).echoAt := by
  rw [s.echoAt_call h]
  cases o with
  | recv => cases r <;> rfl
  | writepipe => cases r <;> simp [Session.echoAt, Session.completed, EchoAt.next, Session.complete]
  | readpipe =>
    have hread : ∀ r after, (s.afterRead r after d).echoAt = EchoAt.afterRead s.vars r after d := by
      intro r after
      unfold Session.afterRead EchoAt.afterRead
      cases hb : s.vars.readBody r after with
      | none => rfl
      | some v =>
        by_cases hgo : v.readAgain r d <;> simp [Session.echoAt, hgo]
    cases r with
    | bytes l after => exact congrArg some (hread (.bytes l) after).symm
    | _ => exact congrArg some (hread .failed []).symm
  | send =>
    have hsend : ∀ res,
        EchoAt.next (.sending s.vars) (.send (s.vars.merged.drop s.vars.nbSend) res) =
        some ({ s with vars := s.vars.sent res } : Session).sendHead.echoAt := by
      intro res
      rw [Session.sendHead_echoAt]
      exact if_pos rfl
    cases r with
    | count n => exact hsend (some n)
    | _ => exact hsend none
  | whaitforprocesstodie => rfl

section Steps

variable {w : World Handle} {sid fresh : ℕ} {s s' : Session} {c : Choice} {act : Act}

/-- The process exits on a result that completes nothing. -/
theorem Session.io_of_exited (h : s.step w sid fresh c = some act) (he : act.after = .exited) :
    s.io w c = none := by
  have hcase := Session.step_cases h
  cases hcase with
  | error hpc hp _ =>
    unfold Session.step at h
    simp only [hpc, hp, Option.bind_some] at h
    split_ifs at h with ha
    unfold Session.await at h
    split_ifs at h with hr hb
    · exact absurd (congrArg Act.after (Option.some.inj h)) (by simp)
    · exact absurd (congrArg Act.after (Option.some.inj h)) (by simp)
    · simp [Session.io, hpc, hr]
  | _ => cases he

/-- A step of a session cannot be seen, or is one move of the machine, or calls `echo_loop` once
more. -/
theorem Session.step_echoAt (h : s.step w sid fresh c = some act)
    (hs' : act.after.next s = some s') :
    (s.io w c = none ∧ s'.frame = s.frame ∧ s'.echoAt = s.echoAt) ∨
    (∃ io, s.io w c = some io ∧ s'.frame = s.frame ∧ s.echoAt.next io = some s'.echoAt) ∨
    (s.io w c = none ∧ s'.frame = fresh ∧ s'.echoAt = .receiving) := by
  have hexit := Session.io_of_exited h
  cases Session.step_cases h with
  | value hpc hp ha hr =>
    cases hs'
    refine Or.inr (Or.inl ⟨_, ?_, (Session.complete_rest _ _ _ _).2.1,
      Session.complete_echoAt (Or.inl hpc)⟩)
    simp [Session.io, hpc, hr]
  | retry hpc hp ha =>
    cases hs'
    refine Or.inr (Or.inl ⟨_, ?_, (Session.complete_rest _ _ _ _).2.1,
      Session.complete_echoAt (Or.inr hpc)⟩)
    simp [Session.io, hpc]
  | block hpc hp ha hr hb =>
    cases hs'
    exact Or.inl ⟨by simp [Session.io, hpc, hr], rfl, by simp [Session.echoAt, hpc]⟩
  | error hpc hp ho =>
    cases hs'
    exact Or.inl ⟨hexit rfl, rfl, rfl⟩
  | pipeW hpc | pipeR hpc | attachWr hpc | fork hpc | pidfdOpen hpc | closeEnds hpc
  | finishwriting hpc =>
    cases hs'
    exact Or.inl ⟨by simp [Session.io, hpc], rfl, by simp [Session.echoAt, Session.setPtr, hpc]⟩
  | pipeWFail hpc | pipeRFail hpc | forkFail hpc | pidfdFail hpc =>
    cases hs'
    exact Or.inr (Or.inl ⟨.noChild, by simp [Session.io, hpc], rfl,
      by simp [Session.echoAt, hpc, EchoAt.next]⟩)
  | @attachRd p ok hpc =>
    cases hs'
    by_cases hadd : w.addSucceeds s.mFdR.1 ok
    · exact Or.inl ⟨by simp [Session.io, hpc, hadd], rfl,
        by simp [Session.echoAt, Session.setPtr, hpc, hadd]⟩
    · exact Or.inr (Or.inl ⟨.noChild, by simp [Session.io, hpc, hadd], rfl,
        by simp [Session.echoAt, hpc, hadd, EchoAt.next]⟩)
  | @attachPw fd p ok hpc =>
    cases hs'
    by_cases hadd : w.addSucceeds fd ok
    · exact Or.inl ⟨by simp [Session.io, hpc, hadd], rfl,
        by simp [Session.echoAt, Session.setPtr, hpc, hadd]⟩
    · exact Or.inr (Or.inl ⟨.noChild, by simp [Session.io, hpc, hadd], rfl,
        by simp [Session.echoAt, hpc, hadd, EchoAt.next]⟩)
  | finishReading hpc hp =>
    cases hs'
    refine Or.inl ⟨by simp [Session.io, hpc], rfl, ?_⟩
    rw [Session.sendHead_echoAt]
    simp [Session.echoAt, hpc]
  | cleanup hpc hr hp | cleaned hpc hp =>
    cases hs'
    exact Or.inl ⟨by simp [Session.io, hpc], rfl, by simp [Session.echoAt, Session.setPtr, hpc]⟩
  | close hpc hp => cases hs'
  | again hpc =>
    cases hs'
    exact Or.inr (Or.inr ⟨by simp [Session.io, hpc], rfl, rfl⟩)

end Steps

/-! ### The server -/

/-- A session in the call `frame` of `echo_loop` is at `a`. -/
def Coros.CallAt (co : Coros) (frame : ℕ) (a : EchoAt) : Prop :=
  ∃ sid s, co.sessions sid = some s ∧ s.frame = frame ∧ s.echoAt = a

section Server

variable {S S' : State} {l : Label Choice} {g : ℕ → List Io} {sid : ℕ} {via : Bool} {s : Session}
  {c : Choice}

/-- A step of the running session. -/
theorem State.session_step (h : S.step (.co c) = some S')
    (hrun : S.co.running = .session sid via) :
    ∃ s act, S.co.sessions sid = some s ∧ s.step S.w sid S.co.nextFrame c = some act ∧
      S'.co.sessions = Function.update S.co.sessions sid (act.after.next s) := by
  cases Server.step_cases h with
  | co hctl hm hw hS =>
    subst hS
    simp only [server, Coros.step, hrun, Coros.sessionStep] at hm
    obtain ⟨s, hs, hm⟩ := Option.bind_eq_some_iff.1 hm
    obtain ⟨act, hact, hm⟩ := Option.bind_eq_some_iff.1 hm
    obtain ⟨pr, -, rfl⟩ := Option.map_eq_some_iff.1 hm
    exact ⟨s, act, hs, hact, Coros.settle_sessions hs via act.after⟩

theorem Coros.Evolves.nextFrame_le {w : World Handle} {co co' : Coros} (h : co.Evolves w co' l) :
    co.nextFrame ≤ co'.nextFrame := by
  cases h with
  | stays _ hn | resumes _ _ _ hn | child _ hn => exact hn.ge
  | starts _ hn => omega
  | moves _ _ _ _ hn => exact hn

/-- Other labels, and other coroutines, log nothing. -/
theorem State.note_cases (S : State) (l : Label Choice) (g : ℕ → List Io) :
    (∃ c sid via, l = .co c ∧ S.co.running = .session sid via) ∨ S.note l g = g := by
  unfold State.note
  split
  · exact Or.inl ⟨_, _, _, rfl, by assumption⟩
  · exact Or.inr rfl

theorem State.note_session (hrun : S.co.running = .session sid via)
    (hs : S.co.sessions sid = some s) :
    S.note (.co c) g = match s.io S.w c with
      | some io => Function.update g s.frame (g s.frame ++ [io])
      | none => g := by
  simp only [State.note, hrun, hs]

/-- The calls of `echo_loop` that are in progress have numbers of their own, and a number that has
not been given has an empty log. -/
structure Logged.Fresh (x : Logged) : Prop where
  frames : Frames x.1.co
  empty : ∀ f, x.1.co.nextFrame ≤ f → x.2 f = []

theorem Logged.Fresh.step (h : Logged.Fresh (S, g)) (hst : S.step l = some S') :
    Logged.Fresh (S', S.note l g) := by
  have hev := State.evolves hst
  refine ⟨h.frames.step hev, fun f hf => ?_⟩
  have hle : S.co.nextFrame ≤ f := hev.nextFrame_le.trans hf
  rcases S.note_cases l g with ⟨c, sid, via, rfl, hrun⟩ | e
  · obtain ⟨s, act, hs, -, -⟩ := State.session_step hst hrun
    show S.note (.co c) g f = []
    rw [State.note_session hrun hs]
    have hne : f ≠ s.frame := (h.frames.lt sid s hs).trans_le hle |>.ne'
    cases s.io S.w c with
    | none => exact h.empty f hle
    | some io =>
      simp only [Function.update_of_ne hne]
      exact h.empty f hle
  · show S.note l g f = []
    rw [e]
    exact h.empty f hle

/-- One session goes from `s` to `s'`: what becomes of the calls of `echo_loop`. -/
theorem Coros.CallAt.of_update {co co' : Coros} {f : ℕ} {a : EchoAt} {t : Option Session}
    (hs' : co'.sessions = Function.update co.sessions sid t) (h : co'.CallAt f a) :
    (∃ s', t = some s' ∧ s'.frame = f ∧ s'.echoAt = a) ∨
      ∃ sid' u, sid' ≠ sid ∧ co.sessions sid' = some u ∧ u.frame = f ∧ u.echoAt = a := by
  obtain ⟨sid', u, hu, hf, ha⟩ := h
  rw [hs', Function.update_apply] at hu
  split_ifs at hu with e
  · exact Or.inl ⟨u, hu, hf, ha⟩
  · exact Or.inr ⟨sid', u, e, hu, hf, ha⟩

/-- A step of the running session, seen by one call of `echo_loop`. -/
theorem State.session_part (h : Logged.Fresh (S, g)) (hst : S.step (.co c) = some S')
    (hrun : S.co.running = .session sid via) (f : ℕ) :
    Lts.PartStep EchoAt.next .receiving (S.co.CallAt f) (S'.co.CallAt f) (g f)
      (S.note (.co c) g f) := by
  obtain ⟨s, act, hs, hact, hs'⟩ := State.session_step hst hrun
  have hfr := h.frames
  -- the calls of the other sessions
  have hother : ∀ {a}, (∃ sid' u, sid' ≠ sid ∧ S.co.sessions sid' = some u ∧ u.frame = f ∧
      u.echoAt = a) → S.co.CallAt f a ∧ f ≠ s.frame ∧ f < S.co.nextFrame := by
    rintro a ⟨sid', u, hne, hu, rfl, ha⟩
    exact ⟨⟨sid', u, hu, rfl, ha⟩, fun e => hne (hfr.inj sid' sid u s hu hs e), hfr.lt sid' u hu⟩
  rw [State.note_session hrun hs]
  cases hnext : act.after.next s with
  | none =>
    rw [hnext] at hs'
    have hio : s.io S.w c = none := by
      cases Session.step_cases hact with
      | close hpc => simp [Session.io, hpc]
      | _ => cases hnext
    rw [hio]
    refine .stays fun b hb => ?_
    rcases hb.of_update hs' with ⟨s', e, -⟩ | hu
    · cases e
    · exact (hother hu).1
  | some s' =>
    rw [hnext] at hs'
    rcases Session.step_echoAt hact hnext with ⟨hio, hf', ha'⟩ | ⟨io, hio, hf', hn⟩ |
      ⟨hio, hf', ha'⟩
    · rw [hio]
      refine .stays fun b hb => ?_
      rcases hb.of_update hs' with ⟨u, e, hu, hb⟩ | hu
      · cases e
        exact ⟨sid, s, hs, hf'.symm.trans hu, ha'.symm.trans hb⟩
      · exact (hother hu).1
    · rw [hio]
      by_cases hf : f = s.frame
      · subst hf
        simp only [Function.update_self]
        refine .moves ⟨sid, s, hs, rfl, rfl⟩ hn fun b hb => ?_
        rcases hb.of_update hs' with ⟨u, e, -, hb⟩ | hu
        · cases e
          exact hb.symm
        · exact absurd rfl (hother hu).2.1
      · simp only [Function.update_of_ne hf]
        refine .stays fun b hb => ?_
        rcases hb.of_update hs' with ⟨u, e, hu, -⟩ | hu
        · cases e
          exact absurd (hu.symm.trans hf') hf
        · exact (hother hu).1
    · rw [hio]
      by_cases hf : f = S.co.nextFrame
      · refine .begins (h.empty f hf.ge) fun b hb => ?_
        rcases hb.of_update hs' with ⟨u, e, -, hb⟩ | hu
        · cases e
          exact hb.symm.trans ha'
        · exact absurd hf (hother hu).2.2.ne
      · refine .stays fun b hb => ?_
        rcases hb.of_update hs' with ⟨u, e, hu, -⟩ | hu
        · cases e
          exact absurd (hu.symm.trans hf') hf
        · exact (hother hu).1

/-- A step of the server, seen by one call of `echo_loop`. -/
theorem State.part (h : Logged.Fresh (S, g)) (hst : S.step l = some S') (f : ℕ) :
    Lts.PartStep EchoAt.next .receiving (S.co.CallAt f) (S'.co.CallAt f) (g f) (S.note l g f) := by
  rcases S.note_cases l g with ⟨c, sid, via, rfl, hrun⟩ | hnote
  · exact State.session_part h hst hrun f
  rw [hnote]
  cases State.evolves hst with
  | stays hs | child hs =>
    refine .stays fun b hb => ?_
    obtain ⟨sid, s, hsid, hrest⟩ := hb
    exact ⟨sid, s, hs ▸ hsid, hrest⟩
  | starts hs =>
    by_cases hf : f = S.co.nextFrame
    · refine .begins (h.empty f hf.ge) fun b hb => ?_
      rcases hb.of_update hs with ⟨u, e, -, hb⟩ | ⟨sid', u, -, hu, hf', -⟩
      · cases e
        exact hb.symm
      · exact absurd (hf'.trans hf) (h.frames.lt sid' u hu).ne
    · refine .stays fun b hb => ?_
      rcases hb.of_update hs with ⟨u, e, hu, -⟩ | ⟨sid', u, -, hu⟩
      · cases e
        exact absurd hu.symm hf
      · exact ⟨sid', u, hu⟩
  | @resumes _ sid s o hsid hpc hs =>
    refine .stays fun b hb => ?_
    rcases hb.of_update hs with ⟨u, e, hu, hb⟩ | ⟨sid', u, -, hu⟩
    · cases e
      refine ⟨sid, s, hsid, hu, ?_⟩
      rw [← hb]
      simp [Session.echoAt, hpc]
    · exact ⟨sid', u, hu⟩
  | @moves sid via s c act hrun hsid hact hs =>
    have hpart := State.session_part h hst hrun f
    rwa [hnote] at hpart

end Server

theorem Logged.Reached.fresh {x : Logged} (h : x.Reached) : x.Fresh := by
  refine Lts.Reach.inv (I := Logged.Fresh) h ⟨frames_start, fun _ _ => rfl⟩ ?_
  rintro ⟨S, g⟩ l ⟨S', g'⟩ hi - hst
  obtain ⟨hst, rfl⟩ := Lts.withLog_cases hst
  exact hi.step hst

/-- The log of every call is a trace of the machine. -/
theorem Logged.Reached.follows {x : Logged} (h : x.Reached) (f : ℕ) :
    Lts.Follows EchoAt.next .receiving (x.1.co.CallAt f) (x.2 f) := by
  refine Lts.Reach.follows (J := Logged.Fresh) (V := fun S => S.co.CallAt) h
    (fun _ hy => Logged.Reached.fresh hy) ?_ ?_ f
  · rintro f a ⟨sid, s, hs, -⟩
    cases hs
  · intro S g l S' hfr hst f
    exact State.part hfr hst f

/-- Every run has logs. -/
theorem Logged.exists_log {ok : State → Label Choice → Prop} {S : State}
    (h : Lts.Reach State.step ok State.start S) : ∃ g, Logged.Reached (S, g) := by
  obtain ⟨g, hg⟩ := h.exists_log State.note fun _ => []
  exact ⟨g, hg.mono fun _ _ _ => trivial⟩

/-- **Every call of `echo_loop` is a sequential one.** In every run of the server, whatever the
order in which its coroutines are resumed, the completed operations of every call of `echo_loop`,
with the ranges passed to the kernel, form a trace of the sequential machine; the trace leads to the
place where the session is, with the values its variables have. -/
theorem calls_refine {x : Logged} (h : x.Reached) :
    (∀ f, ∃ a, Lts.trace EchoAt.next .receiving (x.2 f) = some a) ∧
      ∀ sid s, x.1.co.sessions sid = some s →
        Lts.trace EchoAt.next .receiving (x.2 s.frame) = some s.echoAt := by
  refine ⟨fun f => ?_, fun sid s hs => (h.follows s.frame).trace_eq ⟨sid, s, hs, rfl, rfl⟩⟩
  obtain ⟨a, ha, -⟩ := h.follows f
  exact ⟨a, ha⟩

/-- A client sends `q`, a newline and `ab`; its child prints `cat`, a newline and `ab`; the reply is
sent. -/
def echoRun : List (Label Choice) :=
  listenRun ++ connectRun 2 4 ++ flushRun 2 ++
    [.epollWait [(4, EPOLLIN)], .next, .co (.sys (.bytes [113, 10, 97, 98] []))] ++
    spawnRun 3 5 100 ++
    [.co (.sys (.bytes [99, 97, 116, 10, 97, 98] [])), .co .go, .co (.sys (.count 2))]

/-- Its log. -/
def echoLog : List Io :=
  [.recv (some [113, 10, 97, 98]), .writepipe [97, 98] (some 1),
    .readpipe (.bytes [99, 97, 116, 10, 97, 98]) [] false, .send [97, 98] (some 2)]

/-- The run leads to the wait for the child, with this log. -/
theorem echoRun_logged :
    ∃ x : Logged, x.Reached ∧ x.2 0 = echoLog ∧ ∃ s, x.1.co.sessions 0 = some s ∧ s.frame = 0 ∧
      s.pc = .call .whaitforprocesstodie := by
  obtain ⟨x, h, hp⟩ := Lts.exists_reach (Lts.withLog State.step State.note) (fun _ _ => True)
    (State.start, fun _ => []) echoRun (fun _ _ => true) (fun _ _ _ => trivial)
    (fun x => decide (x.2 0 = echoLog) && (x.1.co.sessions 0).any fun s =>
      s.frame = 0 ∧ s.pc = .call .whaitforprocesstodie) (by decide +kernel)
  obtain ⟨hlog, hany⟩ := Bool.and_eq_true_iff.1 hp
  obtain ⟨s, hs, hpc⟩ := (Option.any_eq_true _ _).1 hany
  exact ⟨x, h, of_decide_eq_true hlog, s, hs, of_decide_eq_true hpc⟩

theorem echoLog_smooth : Io.Smooth echoLog where
  short := by simp [Io.Short, echoLog, ReadResult.content, buffSize]
  text := by simp [echoLog, ReadResult.content]
  counts := by simp [echoLog]

/-- At the end of this run the session is at the wait, with these variables. -/
theorem calls_refine_echo : ∃ x : Logged, ∃ s, x.Reached ∧ x.1.co.sessions 0 = some s ∧
    s.pc = .call .whaitforprocesstodie ∧ x.2 s.frame = echoLog ∧
    Lts.trace EchoAt.next .receiving echoLog = some s.echoAt := by
  obtain ⟨x, h, hlog, s, hs, hf, hpc⟩ := echoRun_logged
  have hlog' : x.2 s.frame = echoLog := by rw [hf, hlog]
  exact ⟨x, s, h, hs, hpc, hlog', hlog' ▸ (calls_refine h).2 0 s hs⟩

/-- The call `f` of `echo_loop` has sent its reply: it waits for its child, or has done so. -/
def Logged.Answered (x : Logged) (f : ℕ) : Prop :=
  .whaitforprocesstodie ∈ x.2 f ∨ ∃ v, x.1.co.CallAt f (.waiting v)

theorem Logged.answered_of_pc {x : Logged} {sid : ℕ} {s : Session}
    (hs : x.1.co.sessions sid = some s) (hpc : s.pc = .call .whaitforprocesstodie) :
    x.Answered s.frame :=
  Or.inr ⟨s.vars, sid, s, hs, rfl, by simp [Session.echoAt, hpc]⟩

/-- **What the server replies.** In every run, a call of `echo_loop` that has come to wait for its
child without filling its buffer has sent exactly what the two loops of `echo_loop` send on their
own after the same `recv`, for the results that its own `readpipe`s and `send`s have had. -/
theorem server_replies {x : Logged} (h : x.Reached) {f : ℕ} (hend : x.Answered f)
    (hshort : Io.Short (x.2 f)) : Io.Replied (x.2 f) := by
  obtain ⟨a, ha, hat⟩ := h.follows f
  rcases hend with hw | ⟨v, hv⟩
  · exact trace_replied ha hw hshort
  · exact trace_replies ((h.follows f).trace_eq hv) hshort

/-- The reply of `echoRun`. -/
theorem server_replies_ab : ∃ x : Logged, x.Reached ∧ x.Answered 0 ∧
    EchoReplies [] [113, 10, 97, 98] [(.bytes [99, 97, 116, 10, 97, 98], false)]
      (Io.answers [some 2]) [97, 98] := by
  obtain ⟨x, h, hlog, s, hs, hf, hpc⟩ := echoRun_logged
  have hend : x.Answered 0 := hf ▸ Logged.answered_of_pc hs hpc
  have hreplied := server_replies h hend (hlog ▸ echoLog_smooth.short)
  rw [hlog] at hreplied
  exact ⟨x, h, hend, hreplied⟩

/-- **The server echoes.** In every run, let a call of `echo_loop` come to wait for its child, its
reads having given no NUL and never a full buffer and its `send`s counts of at most what they were
passed. Then the bytes sent are those that were read from its own child, less their first line, and
the bytes written to that child are the beginning of the data of its own `recv`; so if the child has
printed one line, as it does for the word `cat`, and echoed the data, the reply is the data. -/
theorem server_echoes {x : Logged} (h : x.Reached) {f : ℕ} (hend : x.Answered f)
    (hsm : Io.Smooth (x.2 f)) (hlen : (Io.readBytes (x.2 f)).length < 2 ^ 64) :
    Io.sentBytes (x.2 f) = Io.reply (x.2 f) ∧ Io.Feeds (x.2 f) ∧
      ∀ line data, newline ∉ line → Io.readBytes (x.2 f) = line ++ newline :: data →
        Io.sentBytes (x.2 f) = data := by
  have hboth : Io.sentBytes (x.2 f) = Io.reply (x.2 f) ∧ Io.Feeds (x.2 f) := by
    obtain ⟨a, ha, -⟩ := h.follows f
    rcases hend with hw | ⟨v, hv⟩
    · exact trace_echoed ha hw hsm hlen
    · exact trace_echoes ((h.follows f).trace_eq hv) hsm hlen
  obtain ⟨hsent, hfeeds⟩ := hboth
  refine ⟨hsent, hfeeds, fun line data hline hdata => ?_⟩
  rw [hsent]
  exact stripFirstLine_cut (v := { merged := Io.readBytes (x.2 f) }) hline hdata

/-- The client of `echoRun` gets the rest of its request back. -/
theorem server_echoes_ab :
    ∃ x : Logged, x.Reached ∧ x.Answered 0 ∧ Io.sentBytes (x.2 0) = [97, 98] := by
  obtain ⟨x, h, hlog, s, hs, hf, hpc⟩ := echoRun_logged
  have hend : x.Answered 0 := hf ▸ Logged.answered_of_pc hs hpc
  have hlen : (Io.readBytes (x.2 0)).length < 2 ^ 64 := by
    rw [hlog]
    decide
  exact ⟨x, h, hend, (server_echoes h hend (hlog ▸ echoLog_smooth) hlen).2.2 [99, 97, 116] [97, 98]
    (by decide) (by rw [hlog]; decide)⟩

end EpollCoroutine
