import EpollCoroutine.Lib.History
import EpollCoroutine.Server.Descriptors
import EpollCoroutine.Task.Reclaim

/-!
# The coroutines of the server are tasks

The server runs together with the machine of `include/task.hh`, which does what `main`, `accept`,
`client_socket_handler` and the `co_await`s do with their tasks.

* `Tasks`: the machine, and which of its frames belong to whom. Frame `0` is that of `accept`.
* `Tasks.follow`: the actions of a step of the server.
* `Tasks.Shows`, `Tasks.Describes`: all frames, and where they are.
* `Shows.session`, `Shows.ends`, `Shows.setOperation`, `Shows.opens`, `Shows.returns`: how the
  frames change.
-/

namespace EpollCoroutine

open Coroutine (Machine Action Exit Frame Place)

/-! ### Actions in a row -/

namespace Coroutine.Machine

variable {V : Type} {M M' : Machine V} {f g c : Coroutine.Handle} {rest : List Coroutine.Handle}

/-- The actions `as`, one after the other. What `done` reads of a destroyed frame makes no
difference (`Frame.destroysOnDrop_eq`). -/
def acts (M : Machine V) (as : List (Action V)) : Option (Machine V) :=
  Lts.trace (fun M a => M.step ⟨a, false⟩) M as

theorem acts_nil : M.acts [] = some M := rfl

theorem acts_cons {a : Action V} {as : List (Action V)} (h : M.step ⟨a, false⟩ = some M') :
    M.acts (a :: as) = M'.acts as := by
  simp [acts, Lts.trace, h]

theorem acts_cons_iff {a : Action V} {as : List (Action V)} : M.acts (a :: as) = some M' ↔
    ∃ M₁, M.step ⟨a, false⟩ = some M₁ ∧ M₁.acts as = some M' := by
  simp [acts, Lts.trace, Option.bind_eq_some_iff]

theorem acts_reach {as : List (Action V)} (h : M.acts as = some M') :
    Lts.Reach step (fun _ _ => True) M M' :=
  Lts.trace_inv (I := fun _ N => Lts.Reach step (fun _ _ => True) M N) _ M .refl
    (fun _ _ _ _ _ hr hst => hr.tail trivial hst) h

/-- What has been done to the handles stays on record. -/
theorem uses_subset {l : Coroutine.Label V} (hs : M.step l = some M') : M.uses ⊆ M'.uses := by
  cases step_cases hs with
  | call | await | detach | resume | finishDestroyed => exact List.subset_append_left _ _
  | drop | endExpr =>
    rw [dropTasks_uses]
    exact List.subset_append_left _ _
  | suspend | suspendDestroyed | wake => exact List.Subset.refl _
  | @finish _ f rest e =>
    cases hw : (M.frame f).waiter with
    | none =>
      rw [finish_uses_of_none hw]
      exact List.subset_append_left _ _
    | some g =>
      rw [finish_uses_of_waiter hw]
      exact List.subset_append_left _ _

theorem reach_uses {ok : Machine V → Coroutine.Label V → Prop} (h : Lts.Reach step ok M M') :
    M.uses ⊆ M'.uses :=
  h.inv (I := fun N => M.uses ⊆ N.uses) (List.Subset.refl _)
    fun _ _ _ hi _ hs => List.Subset.trans hi (uses_subset hs)

/-- Actions that drop no task of a variable are applied to live frames. -/
theorem Safe.acts {as : List (Action V)} (h : M.Safe) (hok : M.Ok)
    (has : ∀ f, Action.drop f ∉ as) (hs : M.acts as = some M') : M'.Safe := by
  induction as generalizing M with
  | nil => exact Option.some.inj hs ▸ h
  | cons a as ih =>
    obtain ⟨M₁, hstep, hrest⟩ := acts_cons_iff.1 hs
    have hdrop : DropsInTime M ⟨a, false⟩ := fun f hf =>
      absurd (hf ▸ List.mem_cons_self) (has f)
    exact ih (h.step hok hdrop hstep) (hok.step hstep)
      (fun f hf => has f (List.mem_cons_of_mem a hf)) hrest

/-! ### Frames -/

/-- The end of a full expression that has awaited one task. -/
theorem dropTemp_frame (h : M.Linked) (hg : M.place g = .running)
    (htemps : (M.frame g).temps = [c]) (hc : (M.frame c).temps = [])
    (hdet : (M.frame c).mDetached = false) (x : Coroutine.Handle) :
    (M.dropTasks (some g) (M.frame g).temps false).frame x =
      if x = g then { M.frame g with temps := [] }
      else if x = c then { M.frame c with place := .destroyed, held := false }
      else M.frame x := by
  have hmem : c ∈ (M.frame g).temps := by rw [htemps]; exact List.mem_singleton_self c
  have hne : g ≠ c := (h.waiter_lt c g (h.temp g c hmem).1).ne
  have hlt : c < M.next := h.lt_next (h.temp g c hmem).2.1
  have hdropped : ∀ x, x ∈ M.dropped (M.frame g).temps false ↔ x = c := by
    intro x
    rw [htemps]
    constructor
    · intro hx
      exact List.mem_singleton.1 (h.dropped_sub (fun y hy => by
        rw [List.mem_singleton.1 hy]
        exact hc) hx)
    · rintro rfl
      exact h.mem_dropped.2 ⟨hlt, Or.inl ⟨List.mem_singleton_self _, hdet⟩⟩
  rw [dropTasks_frame]
  by_cases hxg : x = g
  · subst hxg
    rw [if_neg (fun hx => hne ((hdropped _).1 hx)), if_pos rfl, htemps]
    simp [hne]
  · by_cases hxc : x = c
    · subst hxc
      rw [if_pos ((hdropped _).2 rfl), if_neg hxg, if_pos rfl]
      simp [hc]
    · have hog : ¬ some g = some x := by simpa using Ne.symm hxg
      rw [if_neg (fun hx => hxc ((hdropped _).1 hx)), if_neg hxg, if_neg hxc, htemps, if_neg hog]
      simp [hxc]

/-- The task of a detached coroutine is dropped. -/
theorem dropDetached_frame (h : M.Linked) (hdet : (M.frame f).mDetached = true)
    (x : Coroutine.Handle) :
    (M.dropTasks none [f] false).frame x =
      if x = f then { M.frame f with held := false } else M.frame x := by
  have hdropped : x ∉ M.dropped [f] false := h.dropped_detached fun y hy => by
    rw [List.mem_singleton.1 hy]
    exact hdet
  rw [dropTasks_frame, if_neg hdropped]
  by_cases hx : x = f
  · subst hx
    simp
  · simp [hx]

end Coroutine.Machine

/-! ### The tasks of the server -/

/-- The machine, with the frames of the last `listen.accept()` and of the `client_socket_handler`
and the `echo_loop` of each session. -/
structure Tasks where
  machine : Machine Bool
  operation : Coroutine.Handle
  handler : ℕ → Coroutine.Handle
  echo : ℕ → Coroutine.Handle

/-- How `echo_loop` has ended. -/
def Pc.ended : Pc → Option (Exit Bool)
  | .done thrown => some (if thrown then .threw else .returned false)
  | _ => none

namespace Tasks

/-- `main` begins. -/
def start : Tasks := ⟨.start, 0, fun _ => 0, fun _ => 0⟩

variable (t : Tasks)

/-- Actions of the running coroutine. -/
def acts (as : List (Action Bool)) : Option Tasks :=
  (t.machine.acts as).map fun M => { t with machine := M }

/-- A step of the `accept` coroutine: `main` calls and resumes it and it calls `listen.accept()`;
this suspends; it returns a `Socket`, and the handler of the new session is called and detached. -/
def acceptor (co : Coros) (c : Choice) : Option Tasks :=
  let n := t.machine.next
  match co.acceptor, c with
  | .boot, .boot _ _ true _ =>
    (t.acts [.call, .resume n, .await]).map fun t' => { t' with operation := n + 1 }
  | .call, .sys .wouldBlock => t.acts [.suspend]
  | .made _, .object _ _ =>
    (t.acts [.finish (.returned true), .endExpr, .call, .detach n, .await]).map fun t' =>
      { t' with
        handler := Function.update t.handler co.nextFrame n
        echo := Function.update t.echo co.nextFrame (n + 1) }
  | _, _ => some t

/-- `detach` returns to the `accept` coroutine, if this has started the session. The task is
dropped, and `listen.accept()` is called again. -/
def back (sid : ℕ) (via : Bool) : Option Tasks :=
  if via then (t.acts [.drop (t.handler sid), .await]).map fun t' =>
    { t' with operation := t.machine.next }
  else some t

/-- A step of a session: `echo_loop` may end, is called again or suspends, or
`client_socket_handler` ends. -/
def session (sid : ℕ) (via : Bool) : After → Option Tasks
  | .running s => t.acts (s.pc.ended.toList.map .finish)
  | .again _ => (t.acts [.endExpr, .await]).map fun t' =>
      { t' with echo := Function.update t.echo sid t.machine.next }
  | .suspended _ => (t.acts [.suspend]).bind fun t' => t'.back sid via
  | .ended => (t.acts [.endExpr, .finish (.returned true)]).bind fun t' => t'.back sid via
  | .exited => some t

/-- A coroutine that `run` has resumed. -/
def resumed : Running → Option Tasks
  | .idle => some t
  | .acceptor => t.acts [.wake t.operation]
  | .session sid _ => t.acts [.wake (t.echo sid)]

/-- What the coroutines do in the step `l` of the server from `S` to `S'`. -/
def follow (S : State) (l : Label Choice) (S' : State) : Option Tasks :=
  match S.co.running, l with
  | .idle, _ => t.resumed S'.co.running
  | .acceptor, .co c => t.acceptor S.co c
  | .session sid via, .co c => (S.co.sessions sid).bind fun s =>
      (s.step S.w sid S.co.nextFrame c).bind fun act => t.session sid via act.after
  | _, _ => some t

end Tasks

/-! ### All frames -/

/-- Where the body of `Socket::accept` is. -/
def AcceptPc.place : AcceptPc → Place
  | .susp _ => .suspended
  | _ => .running

/-- Where the body of `echo_loop` is. -/
def Pc.place : Pc → Place
  | .susp _ => .suspended
  | .done _ => .final
  | _ => .running

/-- The frame of `accept`, which awaits `op`. -/
def acceptFrame (op : Option Coroutine.Handle) : Frame Bool where
  place := op.elim .running .awaiting
  temps := op.toList
  held := true
  started := true

/-- The frame of `listen.accept()`. -/
def operationFrame (pc : AcceptPc) : Frame Bool where
  place := pc.place
  waiter := some 0
  started := true

/-- The frame of `client_socket_handler`, which awaits `echo`; `caller` says that `detach` has not
returned. -/
def handlerFrame (pc : Pc) (echo : Coroutine.Handle) (caller : Bool) : Frame Bool where
  place := if pc.ended.isSome then .running else .awaiting echo
  temps := [echo]
  mDetached := true
  held := caller
  started := true

/-- The frame of `echo_loop`. After an exception it has no result. -/
def echoFrame (pc : Pc) (handler : Coroutine.Handle) : Frame Bool where
  place := pc.place
  waiter := some handler
  result := pc.ended.bind Exit.value
  started := true
  ended := pc.ended

/-- The session whose `detach` has not returned to `accept`. -/
def Running.caller : Running → Option ℕ
  | .session sid true => some sid
  | _ => none

namespace Tasks

/-- What `accept` awaits. -/
def awaited (t : Tasks) : Option ℕ → Option Coroutine.Handle
  | none => some t.operation
  | some _ => none

/-- The bodies that run, innermost first. -/
def bodies (t : Tasks) (co : Coros) : List Coroutine.Handle :=
  match co.running with
  | .idle => []
  | .acceptor => [t.operation]
  | .session sid via =>
    ((co.sessions sid).map fun s =>
      if s.pc.ended.isSome then t.handler sid else t.echo sid).toList ++ if via then [0] else []

/-- The frames of the `accept` coroutine at `pc` and of the sessions, while the session `caller` has
the thread of the `accept` coroutine. -/
structure Shows (t : Tasks) (pc : AcceptPc) (sessions : ℕ → Option Session) (caller : Option ℕ) :
    Prop where
  accept : t.machine.frame 0 = acceptFrame (t.awaited caller)
  operation : ∀ f ∈ t.awaited caller, t.machine.frame f = operationFrame pc
  handler : ∀ sid s, sessions sid = some s →
    t.machine.frame (t.handler sid) = handlerFrame s.pc (t.echo sid) (decide (caller = some sid))
  echo : ∀ sid s, sessions sid = some s →
    t.machine.frame (t.echo sid) = echoFrame s.pc (t.handler sid)
  inj : ∀ sid sid' s s', sessions sid = some s → sessions sid' = some s' →
    t.handler sid = t.handler sid' → sid = sid'
  live : ∀ f, t.machine.place f ≠ .destroyed → f = 0 ∨ f ∈ t.awaited caller ∨
    ∃ sid s, sessions sid = some s ∧ (f = t.handler sid ∨ f = t.echo sid)

/-- All frames of a server that has called `accept`, and the bodies that run. -/
structure Describes (t : Tasks) (co : Coros) : Prop where
  shows : t.Shows co.acceptor co.sessions co.running.caller
  stack : t.machine.stack = t.bodies co

variable {t t' : Tasks} {pc : AcceptPc} {sessions : ℕ → Option Session} {caller : Option ℕ}
  {sid sid' : ℕ} {s s' : Session} {f e : Coroutine.Handle}

/-! The frames are different ones. -/

theorem Shows.operation_ne (h : t.Shows pc sessions caller) (hf : f ∈ t.awaited caller) :
    f ≠ 0 := by
  rintro rfl
  have heq := (h.operation 0 hf).symm.trans h.accept
  simpa [operationFrame, acceptFrame] using congrArg Frame.waiter heq

theorem Shows.handler_ne (h : t.Shows pc sessions caller) (hs : sessions sid = some s) :
    t.handler sid ≠ 0 ∧ (∀ f ∈ t.awaited caller, t.handler sid ≠ f) ∧
      ∀ sid' s', sessions sid' = some s' → t.handler sid ≠ t.echo sid' := by
  have hdet : (t.machine.frame (t.handler sid)).mDetached = true := by
    rw [h.handler sid s hs]
    rfl
  refine ⟨fun heq => ?_, fun f hf heq => ?_, fun sid' s' hs' heq => ?_⟩
  · rw [heq, h.accept] at hdet
    cases hdet
  · rw [heq, h.operation f hf] at hdet
    cases hdet
  · rw [heq, h.echo sid' s' hs'] at hdet
    cases hdet

theorem Shows.echo_ne (h : t.Shows pc sessions caller) (hs : sessions sid = some s) :
    t.echo sid ≠ 0 ∧ ∀ f ∈ t.awaited caller, t.echo sid ≠ f := by
  have hwait : (t.machine.frame (t.echo sid)).waiter = some (t.handler sid) := by
    rw [h.echo sid s hs]
    rfl
  refine ⟨fun heq => ?_, fun f hf heq => ?_⟩
  · rw [heq, h.accept] at hwait
    cases hwait
  · rw [heq, h.operation f hf] at hwait
    exact (h.handler_ne hs).1 (Option.some.inj hwait).symm

theorem Shows.echo_inj (h : t.Shows pc sessions caller) (hs : sessions sid = some s)
    (hs' : sessions sid' = some s') (heq : t.echo sid = t.echo sid') : sid = sid' := by
  refine h.inj sid sid' s s' hs hs' ?_
  have hframe := (h.echo sid s hs).symm.trans ((congrArg t.machine.frame heq).trans
    (h.echo sid' s' hs'))
  simpa [echoFrame] using congrArg Frame.waiter hframe

/-- All of these frames are live. -/
theorem Shows.place_ne (h : t.Shows pc sessions caller) :
    t.machine.place 0 ≠ .destroyed ∧
      (∀ f ∈ t.awaited caller, t.machine.place f ≠ .destroyed) ∧
      ∀ sid s, sessions sid = some s → t.machine.place (t.handler sid) ≠ .destroyed ∧
        t.machine.place (t.echo sid) ≠ .destroyed := by
  refine ⟨?_, fun f hf => ?_, fun sid s hs => ⟨?_, ?_⟩⟩
  · rw [Machine.place, h.accept, acceptFrame]
    cases t.awaited caller <;> simp
  · rw [Machine.place, h.operation f hf, operationFrame]
    cases pc <;> simp [AcceptPc.place]
  · rw [Machine.place, h.handler sid s hs, handlerFrame]
    dsimp only
    split_ifs <;> simp
  · rw [Machine.place, h.echo sid s hs, echoFrame]
    cases s.pc <;> simp [Pc.place]

/-! ### One session changes -/

/-- The handler and the `echo_loop` of one session, which may be a new call. -/
theorem Shows.session (h : t.Shows pc sessions caller) (hs : sessions sid = some s)
    (hop : t'.operation = t.operation) (hhandler : t'.handler = t.handler)
    (hecho : t'.echo = Function.update t.echo sid e)
    (hnew : e = t.echo sid ∨
      t.machine.place e = .destroyed ∧ t'.machine.place (t.echo sid) = .destroyed)
    (hh : t'.machine.frame (t.handler sid) =
      handlerFrame s'.pc e (decide (caller = some sid)))
    (he : t'.machine.frame e = echoFrame s'.pc (t.handler sid))
    (hframe : ∀ f, f ≠ t.handler sid → f ≠ t.echo sid → f ≠ e →
      t'.machine.frame f = t.machine.frame f) :
    t'.Shows pc (Function.update sessions sid (some s')) caller := by
  have haw : t'.awaited caller = t.awaited caller := by
    cases caller <;> simp [awaited, hop]
  have hsame : ∀ f, t.machine.place f ≠ .destroyed → f ≠ t.handler sid → f ≠ t.echo sid →
      t'.machine.frame f = t.machine.frame f := by
    intro f hf h1 h2
    refine hframe f h1 h2 ?_
    rintro rfl
    rcases hnew with heq | hd
    · exact h2 heq
    · exact hf hd.1
  obtain ⟨h0, hop', hsess⟩ := h.place_ne
  refine ⟨?_, fun f hf => ?_, fun sid₁ s₁ hs₁ => ?_, fun sid₁ s₁ hs₁ => ?_,
    fun sid₁ sid₂ s₁ s₂ hs₁ hs₂ heq => ?_, fun f hf => ?_⟩
  · rw [haw, hsame 0 h0 (h.handler_ne hs).1.symm (h.echo_ne hs).1.symm]
    exact h.accept
  · rw [haw] at hf
    rw [hsame f (hop' f hf) ((h.handler_ne hs).2.1 f hf).symm ((h.echo_ne hs).2 f hf).symm]
    exact h.operation f hf
  · rw [hhandler, hecho]
    rw [Function.update_apply] at hs₁ ⊢
    split_ifs at hs₁ ⊢ with hsid
    · subst hsid
      cases hs₁
      exact hh
    · rw [hsame _ (hsess sid₁ s₁ hs₁).1 (fun heq => hsid (h.inj sid₁ sid s₁ s hs₁ hs heq))
        ((h.handler_ne hs₁).2.2 sid s hs)]
      exact h.handler sid₁ s₁ hs₁
  · rw [hhandler, hecho]
    rw [Function.update_apply] at hs₁ ⊢
    split_ifs at hs₁ ⊢ with hsid
    · subst hsid
      cases hs₁
      exact he
    · rw [hsame _ (hsess sid₁ s₁ hs₁).2 ((h.handler_ne hs).2.2 sid₁ s₁ hs₁).symm
        (fun heq => hsid (h.echo_inj hs₁ hs heq))]
      exact h.echo sid₁ s₁ hs₁
  · have hold : ∀ sid₀ s₀, Function.update sessions sid (some s') sid₀ = some s₀ →
        ∃ s, sessions sid₀ = some s := by
      intro sid₀ s₀ hs₀
      rw [Function.update_apply] at hs₀
      split_ifs at hs₀ with hsid
      · exact ⟨s, hsid ▸ hs⟩
      · exact ⟨s₀, hs₀⟩
    obtain ⟨r₁, hr₁⟩ := hold sid₁ s₁ hs₁
    obtain ⟨r₂, hr₂⟩ := hold sid₂ s₂ hs₂
    rw [hhandler] at heq
    exact h.inj sid₁ sid₂ r₁ r₂ hr₁ hr₂ heq
  · rw [haw, hhandler, hecho]
    by_cases hfe : f = e
    · exact Or.inr (Or.inr ⟨sid, s', by simp, Or.inr (by simp [hfe])⟩)
    by_cases hfh : f = t.handler sid
    · exact Or.inr (Or.inr ⟨sid, s', by simp, Or.inl hfh⟩)
    by_cases hfo : f = t.echo sid
    · rcases hnew with heq | hd
      · exact absurd (hfo.trans heq.symm) hfe
      · exact absurd (hfo ▸ hd.2) hf
    rw [Machine.place, hframe f hfh hfo hfe] at hf
    rcases h.live f hf with h1 | h1 | ⟨sid₁, s₁, hs₁, h1⟩
    · exact Or.inl h1
    · exact Or.inr (Or.inl h1)
    · have hsid : sid₁ ≠ sid := by
        rintro rfl
        exact h1.elim hfh hfo
      refine Or.inr (Or.inr ⟨sid₁, s₁, ?_, ?_⟩)
      · rw [Function.update_of_ne hsid]
        exact hs₁
      · rw [Function.update_of_ne hsid]
        exact h1

/-- The session is over. -/
theorem Shows.ends (h : t.Shows pc sessions caller) (hs : sessions sid = some s)
    (hop : t'.operation = t.operation) (hhandler : t'.handler = t.handler)
    (hecho : t'.echo = t.echo)
    (hh : t'.machine.place (t.handler sid) = .destroyed)
    (he : t'.machine.place (t.echo sid) = .destroyed)
    (hframe : ∀ f, f ≠ t.handler sid → f ≠ t.echo sid → t'.machine.frame f = t.machine.frame f) :
    t'.Shows pc (Function.update sessions sid none) caller := by
  have haw : t'.awaited caller = t.awaited caller := by
    cases caller <;> simp [awaited, hop]
  have hold : ∀ sid₀ s₀, Function.update sessions sid none sid₀ = some s₀ →
      sid₀ ≠ sid ∧ sessions sid₀ = some s₀ := by
    intro sid₀ s₀ hs₀
    rw [Function.update_apply] at hs₀
    split_ifs at hs₀ with hsid
    exact ⟨hsid, hs₀⟩
  refine ⟨?_, fun f hf => ?_, fun sid₁ s₁ hs₁ => ?_, fun sid₁ s₁ hs₁ => ?_,
    fun sid₁ sid₂ s₁ s₂ hs₁ hs₂ heq => ?_, fun f hf => ?_⟩
  · rw [haw, hframe 0 (h.handler_ne hs).1.symm (h.echo_ne hs).1.symm]
    exact h.accept
  · rw [haw] at hf
    rw [hframe f ((h.handler_ne hs).2.1 f hf).symm ((h.echo_ne hs).2 f hf).symm]
    exact h.operation f hf
  · obtain ⟨hsid, hs₁⟩ := hold sid₁ s₁ hs₁
    rw [hhandler, hecho, hframe _ (fun heq => hsid (h.inj sid₁ sid s₁ s hs₁ hs heq))
      ((h.handler_ne hs₁).2.2 sid s hs)]
    exact h.handler sid₁ s₁ hs₁
  · obtain ⟨hsid, hs₁⟩ := hold sid₁ s₁ hs₁
    rw [hhandler, hecho, hframe _ ((h.handler_ne hs).2.2 sid₁ s₁ hs₁).symm
      (fun heq => hsid (h.echo_inj hs₁ hs heq))]
    exact h.echo sid₁ s₁ hs₁
  · rw [hhandler] at heq
    exact h.inj sid₁ sid₂ s₁ s₂ (hold sid₁ s₁ hs₁).2 (hold sid₂ s₂ hs₂).2 heq
  · have hfh : f ≠ t.handler sid := fun e => hf (e ▸ hh)
    have hfe : f ≠ t.echo sid := fun e => hf (e ▸ he)
    rw [Machine.place, hframe f hfh hfe] at hf
    rw [haw, hhandler, hecho]
    rcases h.live f hf with h1 | h1 | ⟨sid₁, s₁, hs₁, h1⟩
    · exact Or.inl h1
    · exact Or.inr (Or.inl h1)
    · have hsid : sid₁ ≠ sid := by
        rintro rfl
        exact h1.elim hfh hfe
      exact Or.inr (Or.inr ⟨sid₁, s₁, by rw [Function.update_of_ne hsid]; exact hs₁, h1⟩)

/-! ### `accept` and `listen.accept()` -/

/-- `listen.accept()` suspends or goes on. -/
theorem Shows.setOperation {pc' : AcceptPc} (h : t.Shows pc sessions none)
    (hop : t'.operation = t.operation) (hhandler : t'.handler = t.handler)
    (hecho : t'.echo = t.echo)
    (ho : t'.machine.frame t.operation = operationFrame pc')
    (hframe : ∀ f, f ≠ t.operation → t'.machine.frame f = t.machine.frame f) :
    t'.Shows pc' sessions none := by
  have haw : t'.awaited none = t.awaited none := by simp [awaited, hop]
  refine ⟨?_, fun f hf => ?_, fun sid s hs => ?_, fun sid s hs => ?_, ?_, fun f hf => ?_⟩
  · rw [haw, hframe 0 (h.operation_ne rfl).symm]
    exact h.accept
  · rw [haw] at hf
    cases hf
    exact ho
  · rw [hhandler, hecho, hframe _ ((h.handler_ne hs).2.1 _ rfl)]
    exact h.handler sid s hs
  · rw [hhandler, hecho, hframe _ ((h.echo_ne hs).2 _ rfl)]
    exact h.echo sid s hs
  · rw [hhandler]
    exact h.inj
  · rw [haw, hhandler, hecho]
    by_cases hfo : f = t.operation
    · exact Or.inr (Or.inl (congrArg some hfo.symm))
    · rw [Machine.place, hframe f hfo] at hf
      exact h.live f hf

/-- `listen.accept()` has returned, and a new session runs inside `detach`. -/
theorem Shows.opens {pc' : AcceptPc} {n m : Coroutine.Handle} (h : t.Shows pc sessions none)
    (hs : sessions sid = none) (hn : t.machine.place n = .destroyed)
    (hm : t.machine.place m = .destroyed)
    (hhandler : t'.handler = Function.update t.handler sid n)
    (hecho : t'.echo = Function.update t.echo sid m)
    (h0 : t'.machine.frame 0 = acceptFrame none)
    (ho : t'.machine.place t.operation = .destroyed)
    (hh : t'.machine.frame n = handlerFrame s.pc m true)
    (he : t'.machine.frame m = echoFrame s.pc n)
    (hframe : ∀ f, f ≠ 0 → f ≠ t.operation → f ≠ n → f ≠ m →
      t'.machine.frame f = t.machine.frame f) :
    t'.Shows pc' (Function.update sessions sid (some s)) (some sid) := by
  have hne : ∀ sid₀ s₀, sessions sid₀ = some s₀ → sid₀ ≠ sid := by
    rintro sid₀ s₀ hs₀ rfl
    rw [hs] at hs₀
    cases hs₀
  have hsame : ∀ f, t.machine.place f ≠ .destroyed → f ≠ 0 → f ≠ t.operation →
      t'.machine.frame f = t.machine.frame f := fun f hf h0 ho =>
    hframe f h0 ho (fun e => hf (e ▸ hn)) fun e => hf (e ▸ hm)
  obtain ⟨-, -, hlive⟩ := h.place_ne
  refine ⟨h0, fun f hf => (by cases hf), fun sid₁ s₁ hs₁ => ?_, fun sid₁ s₁ hs₁ => ?_,
    fun sid₁ sid₂ s₁ s₂ hs₁ hs₂ heq => ?_, fun f hf => ?_⟩
  · rw [hhandler, hecho]
    rw [Function.update_apply] at hs₁ ⊢
    split_ifs at hs₁ ⊢ with hsid
    · subst hsid
      cases hs₁
      simpa using hh
    · have hdec : decide (some sid = some sid₁) = decide ((none : Option ℕ) = some sid₁) := by
        simp [Ne.symm hsid]
      rw [hsame _ (hlive sid₁ s₁ hs₁).1 (h.handler_ne hs₁).1 ((h.handler_ne hs₁).2.1 _ rfl),
        Function.update_of_ne hsid, hdec]
      exact h.handler sid₁ s₁ hs₁
  · rw [hhandler, hecho]
    rw [Function.update_apply] at hs₁ ⊢
    split_ifs at hs₁ ⊢ with hsid
    · subst hsid
      cases hs₁
      simpa using he
    · rw [hsame _ (hlive sid₁ s₁ hs₁).2 (h.echo_ne hs₁).1 ((h.echo_ne hs₁).2 _ rfl),
        Function.update_of_ne hsid]
      exact h.echo sid₁ s₁ hs₁
  · -- the handler of the new session has a new frame
    have hfresh : ∀ sid₀ s₀, sessions sid₀ = some s₀ → t.handler sid₀ ≠ n := fun sid₀ s₀ hs₀ e =>
      (hlive sid₀ s₀ hs₀).1 (e ▸ hn)
    rw [hhandler] at heq
    simp only [Function.update_apply] at heq hs₁ hs₂
    split_ifs at heq hs₁ hs₂ with h1 h2 h2
    · exact h1.trans h2.symm
    · exact absurd heq.symm (hfresh sid₂ s₂ hs₂)
    · exact absurd heq (hfresh sid₁ s₁ hs₁)
    · exact h.inj sid₁ sid₂ s₁ s₂ hs₁ hs₂ heq
  · rw [hhandler, hecho]
    by_cases hf0 : f = 0
    · exact Or.inl hf0
    by_cases hfn : f = n
    · exact Or.inr (Or.inr ⟨sid, s, by simp, Or.inl (by simp [hfn])⟩)
    by_cases hfm : f = m
    · exact Or.inr (Or.inr ⟨sid, s, by simp, Or.inr (by simp [hfm])⟩)
    have hfo : f ≠ t.operation := fun e => hf (e ▸ ho)
    rw [Machine.place, hframe f hf0 hfo hfn hfm] at hf
    rcases h.live f hf with h1 | h1 | ⟨sid₁, s₁, hs₁, h1⟩
    · exact Or.inl h1
    · exact absurd (Option.some.inj h1).symm hfo
    · have hsid := hne sid₁ s₁ hs₁
      refine Or.inr (Or.inr ⟨sid₁, s₁, ?_, ?_⟩)
      · rw [Function.update_of_ne hsid]
        exact hs₁
      · rw [Function.update_of_ne hsid, Function.update_of_ne hsid]
        exact h1

/-- `detach` has returned: the task is gone, and `accept` awaits a new call of `listen.accept()`. -/
theorem Shows.returns {n : Coroutine.Handle} (h : t.Shows pc sessions (some sid))
    (hn : t.machine.place n = .destroyed) (hop : t'.operation = n)
    (hhandler : t'.handler = t.handler)
    (hecho : t'.echo = t.echo) (h0 : t'.machine.frame 0 = acceptFrame (some n))
    (ho : t'.machine.frame n = operationFrame pc)
    (hh : ∀ s, sessions sid = some s →
      t'.machine.frame (t.handler sid) = handlerFrame s.pc (t.echo sid) false)
    (hd : sessions sid = none → t.machine.place (t.handler sid) = .destroyed ∧
      t'.machine.place (t.handler sid) = .destroyed)
    (hframe : ∀ f, f ≠ 0 → f ≠ n → f ≠ t.handler sid → t'.machine.frame f = t.machine.frame f) :
    t'.Shows pc sessions none := by
  have hsame : ∀ f, t.machine.place f ≠ .destroyed → f ≠ 0 →
      (∀ s, sessions sid = some s → f ≠ t.handler sid) →
      t'.machine.frame f = t.machine.frame f := by
    intro f hf hf0 hfs
    refine hframe f hf0 (fun e => hf (e ▸ hn)) ?_
    cases hs : sessions sid with
    | none => exact fun e => hf (e ▸ (hd hs).1)
    | some s => exact hfs s hs
  obtain ⟨-, -, hlive⟩ := h.place_ne
  refine ⟨?_, fun f hf => ?_, fun sid₁ s₁ hs₁ => ?_, fun sid₁ s₁ hs₁ => ?_, ?_, fun f hf => ?_⟩
  · rw [h0, awaited, hop]
  · rw [awaited, hop] at hf
    cases hf
    exact ho
  · rw [hhandler, hecho]
    by_cases hsid : sid₁ = sid
    · subst hsid
      exact hh s₁ hs₁
    · have hdec : decide ((none : Option ℕ) = some sid₁) = decide (some sid = some sid₁) := by
        simp [Ne.symm hsid]
      rw [hsame _ (hlive sid₁ s₁ hs₁).1 (h.handler_ne hs₁).1
        (fun s hs e => hsid (h.inj sid₁ sid s₁ s hs₁ hs e)), hdec]
      exact h.handler sid₁ s₁ hs₁
  · rw [hhandler, hecho, hsame _ (hlive sid₁ s₁ hs₁).2 (h.echo_ne hs₁).1
      (fun s hs => ((h.handler_ne hs).2.2 sid₁ s₁ hs₁).symm)]
    exact h.echo sid₁ s₁ hs₁
  · rw [hhandler]
    exact h.inj
  · rw [hhandler, hecho, awaited, hop]
    by_cases hf0 : f = 0
    · exact Or.inl hf0
    by_cases hfn : f = n
    · exact Or.inr (Or.inl (congrArg some hfn.symm))
    by_cases hfh : f = t.handler sid
    · cases hs : sessions sid with
      | none => exact absurd (hfh ▸ (hd hs).2) hf
      | some s => exact Or.inr (Or.inr ⟨sid, s, hs, Or.inl hfh⟩)
    rw [Machine.place, hframe f hf0 hfn hfh] at hf
    rcases h.live f hf with h1 | h1 | h1
    · exact Or.inl h1
    · cases h1
    · exact Or.inr (Or.inr h1)

end Tasks

end EpollCoroutine
