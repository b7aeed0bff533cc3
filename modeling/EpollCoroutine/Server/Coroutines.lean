import EpollCoroutine.Server.Tasks

/-!
# What the coroutines of the server do with their tasks

Every step of the server is followed by the machine of `include/task.hh`, action by action.

* `Describes.resume`, `Ok.acceptor`, `Describes.session`: the actions of a step are possible, and
  lead to the frames of the next state.
* `tasks_follow`: this holds in every run.
* `tasks_live`, `task_dangles`: when `~task` looks at a frame that is gone.
* `frames_counted`: the number of frames.
-/

namespace EpollCoroutine

open Coroutine (Machine Action Exit Frame Place)

namespace Tasks

variable {t t' : Tasks} {pc : AcceptPc} {sessions : ℕ → Option Session} {caller : Option ℕ}
  {sid : ℕ} {s s' : Session}

/-! ### The actions of each step -/

theorem acts_of {as : List (Action Bool)} {M : Machine Bool} (h : t.machine.acts as = some M) :
    t.acts as = some { t with machine := M } := by
  rw [acts, h]
  rfl

/-- `main` calls `accept`, which calls `listen.accept()`. -/
theorem describes_boot {co' : Coros} (hpc : co'.acceptor = .call) (hrun : co'.running = .acceptor)
    (hs : ∀ sid, co'.sessions sid = none) :
    ∃ t', (Tasks.start.acts [.call, .resume 0, .await]).map
      (fun t => { t with operation := 1 }) = some t' ∧ t'.Describes co' := by
  refine ⟨_, rfl, ⟨by rw [hrun]; rfl, fun f hf => ?_, fun sid s h => ?_, fun sid s h => ?_,
    fun sid sid' s s' h => ?_, fun f hf => ?_⟩, ?_⟩
  · rw [hrun] at hf
    cases hf
    rw [hpc]
    rfl
  · rw [hs sid] at h
    cases h
  · rw [hs sid] at h
    cases h
  · rw [hs sid] at h
    cases h
  · match f with
    | 0 => exact Or.inl rfl
    | 1 => exact Or.inr (Or.inl (by rw [hrun]; rfl))
    | f + 2 => exact absurd rfl hf
  · rw [bodies, hrun]
    rfl

/-- `listen.accept()` suspends. -/
theorem Describes.blocks {co co' : Coros} (h : t.Describes co) (hrun : co.running = .acceptor)
    (hpc : co.acceptor = .call) {n : ℕ} (hpc' : co'.acceptor = .susp n)
    (hrun' : co'.running = .idle) (hs : co'.sessions = co.sessions) :
    ∃ t', t.acts [.suspend] = some t' ∧ t'.Describes co' := by
  have hshows := h.shows
  rw [hrun] at hshows
  have hframe := hshows.operation t.operation rfl
  have hstack : t.machine.stack = [t.operation] := by rw [h.stack, bodies, hrun]
  have hplace : t.machine.place t.operation = .running := by
    rw [Machine.place, hframe, hpc]
    rfl
  have hstep : t.machine.step ⟨.suspend, false⟩ = some (t.machine.pause t.operation []) := by
    simp [Machine.step, hstack, hplace]
  refine ⟨_, acts_of (Machine.acts_cons hstep), ?_, ?_⟩
  · rw [hrun', hs]
    refine hshows.setOperation rfl rfl rfl ?_ fun f hf => ?_
    · show Function.update t.machine.frame t.operation _ t.operation = _
      rw [Function.update_self, hframe, hpc']
      rfl
    · exact Function.update_of_ne hf _ _
  · rw [bodies, hrun']
    rfl

/-- The event loop resumes a coroutine. -/
theorem Describes.resume {co co' : Coros} {hd : Handle} (h : t.Describes co)
    (hidle : co.running = .idle) (hr : co.resume hd = some co') :
    ∃ t', t.resumed co'.running = some t' ∧ t'.Describes co' := by
  have hshows := h.shows
  have hstack := h.stack
  rw [hidle] at hshows
  rw [bodies, hidle] at hstack
  rcases Coros.resume_cases hr with ⟨n, -, hpc, rfl⟩ | ⟨sid, s, o, -, hs, hpc, rfl⟩
  · have hframe := hshows.operation t.operation rfl
    have hplace : t.machine.place t.operation = .suspended := by
      rw [Machine.place, hframe, hpc]
      rfl
    have hstep : t.machine.step ⟨.wake t.operation, false⟩ =
        some (t.machine.wake t.operation) := by
      simp [Machine.step, hplace]
    refine ⟨_, acts_of (Machine.acts_cons hstep), ?_, ?_⟩
    · refine hshows.setOperation rfl rfl rfl ?_ fun f hf => ?_
      · show Function.update t.machine.frame t.operation _ t.operation = _
        rw [Function.update_self, hframe]
        rfl
      · exact Function.update_of_ne hf _ _
    · show t.operation :: t.machine.stack = _
      rw [hstack]
      rfl
  · have hecho := hshows.echo sid s hs
    have hplace : t.machine.place (t.echo sid) = .suspended := by
      rw [Machine.place, hecho, echoFrame, hpc]
      rfl
    have hstep : t.machine.step ⟨.wake (t.echo sid), false⟩ =
        some (t.machine.wake (t.echo sid)) := by
      simp [Machine.step, hplace]
    refine ⟨_, acts_of (Machine.acts_cons hstep), ?_, ?_⟩
    · refine hshows.session hs rfl rfl (Function.update_eq_self _ _).symm (Or.inl rfl) ?_ ?_
        fun f _ hf _ => ?_
      · show Function.update t.machine.frame (t.echo sid) _ (t.handler sid) = _
        rw [Function.update_of_ne ((hshows.handler_ne hs).2.2 sid s hs), hshows.handler sid s hs,
          hpc]
        rfl
      · show Function.update t.machine.frame (t.echo sid) _ (t.echo sid) = _
        rw [Function.update_self, hecho, hpc]
        rfl
      · exact Function.update_of_ne hf _ _
    · show t.echo sid :: t.machine.stack = _
      rw [hstack, bodies]
      simp [Coros.setSession, Pc.ended]

/-- `listen.accept()` returns, and the handler of the new session is called and detached. -/
theorem Describes.opens {co co' : Coros} {fd : Fd} (h : t.Describes co) (hok : t.machine.Ok)
    (hrun : co.running = .acceptor) (hpc : co.acceptor = .made fd)
    (hnone : co.sessions sid = none) (hs' : s'.pc = .call .recv)
    (hrun' : co'.running = .session sid true)
    (hs : co'.sessions = Function.update co.sessions sid (some s')) :
    ∃ t', (t.acts [.finish (.returned true), .endExpr, .call, .detach t.machine.next, .await]).map
        (fun t' => { t' with
          handler := Function.update t.handler sid t.machine.next
          echo := Function.update t.echo sid (t.machine.next + 1) }) = some t' ∧
      t'.Describes co' := by
  have hshows := h.shows
  rw [hrun] at hshows
  set M := t.machine with hM
  set n := M.next with hn
  have hfresh : ∀ f, n ≤ f → M.place f = .destroyed := fun f hf => by
    rw [Machine.place, hok.linked.fresh f hf]
    rfl
  have hframe := hshows.operation t.operation rfl
  have hne := hshows.operation_ne (f := t.operation) rfl
  have hstack : M.stack = [t.operation] := by rw [hM, h.stack, bodies, hrun]
  have hplace : M.place t.operation = .running := by
    rw [Machine.place, hframe, hpc]
    rfl
  have htemps : (M.frame t.operation).temps = [] := by rw [hframe]; rfl
  have hlt : ∀ f, M.place f ≠ .destroyed → f < n := fun f hf => hok.linked.lt_next hf
  have hopn : t.operation < n := hlt _ (by rw [hplace]; simp)
  have h0n : 0 < n := hlt 0 hshows.place_ne.1
  -- `Socket::accept` ends
  set M₁ := M.finish t.operation [] (.returned true) with hM₁
  have hstep₁ : M.step ⟨.finish (.returned true), false⟩ = some M₁ := by
    simp [Machine.step, hstack, hplace, htemps, hM₁]
  have hframe₁ := Machine.finish_frame_of_waiter (M := M) (f := t.operation) (g := 0)
    (by rw [hframe]; rfl) [] (.returned true)
  rw [← hM₁] at hframe₁
  have hstack₁ : M₁.stack = [0] := by
    rw [hM₁, Machine.finish_stack, hframe]
    rfl
  have hnext₁ : M₁.next = n := Machine.finish_next _ _ _
  -- its task is destroyed
  set M₂ := M₁.dropTasks (some 0) (M₁.frame 0).temps false with hM₂
  have hplace₁ : M₁.place 0 = .running := by rw [Machine.place, hframe₁, if_pos rfl]
  have hstep₂ : M₁.step ⟨.endExpr, false⟩ = some M₂ := by
    simp [Machine.step, hstack₁, hplace₁, hM₂]
  have hframe₂ := Machine.dropTemp_frame (hok.step hstep₁).linked hplace₁ (c := t.operation)
    (by rw [hframe₁, if_pos rfl, hshows.accept]; rfl)
    (by rw [hframe₁, if_neg hne, if_pos rfl, hframe]; rfl)
    (by rw [hframe₁, if_neg hne, if_pos rfl, hframe]; rfl)
  rw [← hM₂] at hframe₂
  have hstack₂ : M₂.stack = [0] := hstack₁
  have hnext₂ : M₂.next = n := hnext₁
  -- the handler is called, detached, and calls `echo_loop`
  set M₃ := M₂.call with hM₃
  have hframe₃ : ∀ x, M₃.frame x =
      if x = n then { place := .initial, held := true } else M₂.frame x := by
    intro x
    rw [hM₃, Machine.call_frame, hnext₂]
  have hstack₃ : M₃.stack = [0] := hstack₂
  have hnext₃ : M₃.next = n + 1 := congrArg (· + 1) hnext₂
  set M₄ := M₃.begin n true with hM₄
  have hstep₄ : M₃.step ⟨.detach n, false⟩ = some M₄ := by
    simp [Machine.step, hframe₃, hM₄]
  have hframe₄ : ∀ x, M₄.frame x = if x = n then
      { place := .running, held := true, started := true, mDetached := true }
      else M₂.frame x := by
    intro x
    show Function.update M₃.frame n _ x = _
    rw [Function.update_apply, hframe₃, hframe₃, if_pos rfl]
    split_ifs <;> rfl
  have hstack₄ : M₄.stack = [n, 0] := congrArg (n :: ·) hstack₃
  have hstep₅ : M₄.step ⟨.await, false⟩ = some (M₄.await n [0]) := by
    simp [Machine.step, hstack₄, Machine.place, hframe₄]
  have hframe₅ := Machine.await_frame M₄ n [0]
  have hnext₄ : M₄.next = n + 1 := hnext₃
  rw [hnext₄] at hframe₅
  have hacts : t.machine.acts [.finish (.returned true), .endExpr, .call, .detach n, .await] =
      some (M₄.await n [0]) := by
    have hstep₃ : M₂.step ⟨.call, false⟩ = some M₃ := rfl
    rw [Machine.acts_cons hstep₁, Machine.acts_cons hstep₂, Machine.acts_cons hstep₃,
      Machine.acts_cons hstep₄, Machine.acts_cons hstep₅, Machine.acts_nil]
  rw [acts_of hacts]
  refine ⟨_, rfl, ?_, ?_⟩
  · rw [hrun', hs]
    have h0 : (0 : Coroutine.Handle) ≠ n ∧ (0 : Coroutine.Handle) ≠ n + 1 :=
      ⟨h0n.ne, (h0n.trans (Nat.lt_succ_self n)).ne⟩
    have ho : t.operation ≠ n ∧ t.operation ≠ n + 1 :=
      ⟨hopn.ne, (hopn.trans (Nat.lt_succ_self n)).ne⟩
    refine hshows.opens (n := n) (m := n + 1) hnone (hfresh n le_rfl) (hfresh (n + 1) n.le_succ)
      rfl rfl ?_ ?_ ?_ ?_ fun f hf0 hfo hfn hfm => ?_
    · show (M₄.await n [0]).frame 0 = _
      rw [hframe₅, if_neg h0.2, if_neg h0.1, hframe₄, if_neg h0.1, hframe₂, if_pos rfl, hframe₁,
        if_pos rfl, hshows.accept]
      rfl
    · show ((M₄.await n [0]).frame t.operation).place = _
      rw [hframe₅, if_neg ho.2, if_neg ho.1, hframe₄, if_neg ho.1, hframe₂, if_neg hne, if_pos rfl]
    · show (M₄.await n [0]).frame n = _
      rw [hframe₅, if_neg (Nat.lt_succ_self n).ne, if_pos rfl, hframe₄, if_pos rfl, hs']
      rfl
    · show (M₄.await n [0]).frame (n + 1) = _
      rw [hframe₅, if_pos rfl, hs']
      rfl
    · show (M₄.await n [0]).frame f = _
      rw [hframe₅, if_neg hfm, if_neg hfn, hframe₄, if_neg hfn, hframe₂, if_neg hf0, if_neg hfo,
        hframe₁, if_neg hf0, if_neg hfo]
  · show M₄.next :: [0] = _
    rw [hnext₄, bodies, hrun', hs]
    simp [hs', Pc.ended]

/-- `detach` returns. -/
theorem Shows.back {via : Bool} (h : t.Shows pc sessions (if via then some sid else none))
    (hok : t.machine.Ok) (hpc : via = true → pc = .call)
    (hstack : t.machine.stack = if via then [0] else [])
    (hdet : (t.machine.frame (t.handler sid)).mDetached = true)
    (hheld : (t.machine.frame (t.handler sid)).held = via)
    (hgone : sessions sid = none → t.machine.place (t.handler sid) = .destroyed) :
    ∃ t', t.back sid via = some t' ∧ t'.Shows pc sessions none ∧
      t'.machine.stack = if via then [t'.operation] else [] := by
  cases via with
  | false => exact ⟨t, rfl, h, hstack⟩
  | true =>
    have h : t.Shows pc sessions (some sid) := h
    have hstack : t.machine.stack = [0] := hstack
    set M := t.machine with hM
    set n := M.next with hn
    set hd := t.handler sid with hhd
    have hn0 : M.place n = .destroyed := by
      rw [Machine.place, hok.linked.fresh n le_rfl]
      rfl
    have hplace : M.place 0 = .running := by
      rw [Machine.place, h.accept]
      rfl
    have hd0 : hd ≠ 0 := by
      intro e
      rw [e, h.accept] at hdet
      cases hdet
    have hne : (0 : Coroutine.Handle) ≠ n := (hok.linked.lt_next h.place_ne.1).ne
    have hhn : hd ≠ n := by
      intro e
      rw [e, hok.linked.fresh n le_rfl] at hdet
      cases hdet
    set M₁ := M.dropTasks none [hd] false with hM₁
    have hstep₁ : M.step ⟨.drop hd, false⟩ = some M₁ := by
      simp [Machine.step, hheld, hM₁]
    have hframe₁ := Machine.dropDetached_frame hok.linked hdet
    rw [← hM₁] at hframe₁
    have hstack₁ : M₁.stack = [0] := hstack
    have hplace₁ : M₁.place 0 = .running := by
      rw [Machine.place, hframe₁, if_neg hd0.symm]
      exact hplace
    have hstep₂ : M₁.step ⟨.await, false⟩ = some (M₁.await 0 []) := by
      simp [Machine.step, hstack₁, hplace₁]
    have hframe₂ : ∀ x, (M₁.await 0 []).frame x =
        if x = n then { place := .running, waiter := some 0, started := true }
        else if x = 0 then
          { M₁.frame 0 with place := .awaiting n, temps := n :: (M₁.frame 0).temps }
        else M₁.frame x := Machine.await_frame M₁ 0 []
    have hacts : t.machine.acts [.drop hd, .await] = some (M₁.await 0 []) := by
      rw [Machine.acts_cons hstep₁, Machine.acts_cons hstep₂, Machine.acts_nil]
    rw [Tasks.back, if_pos rfl, acts_of hacts]
    refine ⟨_, rfl, h.returns hn0 rfl rfl rfl ?_ ?_ (fun s hs => ?_) (fun hs => ⟨hgone hs, ?_⟩)
      fun f hf0 hfn hfh => ?_, rfl⟩
    · show (M₁.await 0 []).frame 0 = _
      rw [hframe₂, if_neg hne, if_pos rfl, hframe₁, if_neg hd0.symm, h.accept]
      rfl
    · show (M₁.await 0 []).frame n = _
      rw [hframe₂, if_pos rfl, hpc rfl]
      rfl
    · show (M₁.await 0 []).frame hd = _
      rw [hframe₂, if_neg hhn, if_neg hd0, hframe₁, if_pos rfl, hhd, h.handler sid s hs]
      rfl
    · show ((M₁.await 0 []).frame hd).place = _
      rw [hframe₂, if_neg hhn, if_neg hd0, hframe₁, if_pos rfl]
      exact hgone hs
    · show (M₁.await 0 []).frame f = _
      rw [hframe₂, if_neg hfn, if_neg hf0, hframe₁, if_neg hfh]

end Tasks

/-! ### The steps of a session -/

theorem Pc.ended_of_running {pc : Pc} (h : pc.place = .running) : pc.ended = none := by
  cases pc <;> first | rfl | cases h

theorem Pc.ended_of_suspended {pc : Pc} (h : pc.place = .suspended) : pc.ended = none := by
  cases pc <;> first | rfl | cases h

theorem Pc.running_of_ended {pc : Pc} (h : pc.ended = none) (hs : pc.place ≠ .suspended) :
    pc.place = .running := by
  cases pc <;> simp_all [Pc.ended, Pc.place]

theorem Pc.final_of_ended {pc : Pc} {e : Exit Bool} (h : pc.ended = some e) :
    pc.place = .final := by
  cases pc <;> first | rfl | cases h

theorem Pc.ended_of_final {pc : Pc} (h : pc.place = .final) : ∃ thrown, pc = .done thrown := by
  cases pc <;> first | exact ⟨_, rfl⟩ | cases h

/-- Where `echo_loop` is before and after a step. -/
def After.Places (pc : Pc) : After → Prop
  | .running s' => pc.place = .running ∧ s'.pc.place ≠ .suspended
  | .again s' => pc.place = .final ∧ s'.pc.place = .running
  | .suspended s' => pc.place = .running ∧ s'.pc.place = .suspended
  | .ended => pc.place = .final
  | .exited => True

theorem Session.StepCase.places {w : World Handle} {sid fresh : ℕ} {s : Session} {c : Choice}
    {act : Act} (h : Session.StepCase w sid fresh s c act) : act.after.Places s.pc := by
  have hcomplete : ∀ o r d, (s.complete o r d).pc.place ≠ .suspended := by
    intro o r d
    rcases Session.complete_pc s o r d with ⟨-, e | e⟩ | ⟨-, e⟩ | ⟨-, e | e | e⟩ | ⟨-, e | e⟩ |
      ⟨-, e⟩ <;> rw [e] <;> simp [Pc.place]
  cases h with
  | value hpc => exact ⟨by rw [hpc]; rfl, hcomplete _ _ _⟩
  | retry hpc => exact ⟨by rw [hpc]; rfl, hcomplete _ _ _⟩
  | attachRd hpc | attachPw hpc =>
    refine ⟨by rw [hpc]; rfl, ?_⟩
    dsimp only
    split_ifs <;> simp [Pc.place]
  | finishReading hpc =>
    refine ⟨by rw [hpc]; rfl, ?_⟩
    rcases Session.sendHead_pc { s.setPtr .readEnd none with vars := s.vars.stripFirstLine } with
      e | e <;> rw [e] <;> simp [Pc.place]
  | cleanup hpc =>
    refine ⟨by rw [hpc]; rfl, ?_⟩
    rw [Session.setPtr, hpc]
    simp [Pc.place]
  | error => trivial
  | close hpc =>
    show s.pc.place = .final
    rw [hpc]
    rfl
  | _ hpc => exact ⟨by rw [hpc]; rfl, by simp [Pc.place]⟩

namespace Tasks

section Steps

variable {t t' : Tasks} {sid : ℕ} {s s' : Session} {co co' : Coros} {via : Bool}

/-- The bodies that were running when the session got the thread. -/
def callers (via : Bool) : List Coroutine.Handle := if via then [0] else []

theorem caller_session (sid : ℕ) (via : Bool) :
    (Running.session sid via).caller = if via then some sid else none := by
  cases via <;> rfl

theorem Describes.stack_echo (h : t.Describes co) (hrun : co.running = .session sid via)
    (hs : co.sessions sid = some s) (hp : s.pc.place = .running) :
    t.machine.stack = t.echo sid :: callers via := by
  rw [h.stack, bodies, hrun]
  simp [hs, Pc.ended_of_running hp, callers]

theorem Describes.stack_handler (h : t.Describes co) (hrun : co.running = .session sid via)
    (hs : co.sessions sid = some s) (hp : s.pc.place = .final) :
    t.machine.stack = t.handler sid :: callers via := by
  obtain ⟨thrown, hpc⟩ := Pc.ended_of_final hp
  rw [h.stack, bodies, hrun]
  simp [hs, hpc, Pc.ended, callers]

/-- `echo_loop` goes on, or ends. -/
theorem Describes.runs (h : t.Describes co) (hrun : co.running = .session sid via)
    (hs : co.sessions sid = some s) (hp : s.pc.place = .running)
    (hp' : s'.pc.place ≠ .suspended) (hacc : co'.acceptor = co.acceptor)
    (hrun' : co'.running = .session sid via)
    (hs' : co'.sessions = Function.update co.sessions sid (some s')) :
    ∃ t', t.acts (s'.pc.ended.toList.map .finish) = some t' ∧ t'.Describes co' := by
  have hshows := h.shows
  have hstack := h.stack_echo hrun hs hp
  have hpend := Pc.ended_of_running hp
  have hecho := hshows.echo sid s hs
  have hhandler := hshows.handler sid s hs
  rw [hrun] at hshows
  cases hend : s'.pc.ended with
  | none =>
    have hplace := Pc.running_of_ended hend hp'
    refine ⟨t, rfl, ?_, ?_⟩
    · rw [hrun', hacc, hs']
      refine hshows.session hs rfl rfl (Function.update_eq_self _ _).symm (Or.inl rfl) ?_ ?_
        fun _ _ _ _ => rfl
      · rw [hshows.handler sid s hs, handlerFrame, handlerFrame, hpend, hend]
      · rw [hecho, echoFrame, echoFrame, hp, hplace, hpend, hend]
    · rw [hstack, bodies, hrun', hs']
      simp [hend, callers]
  | some e =>
    have hplace := Pc.final_of_ended hend
    have hrunning : t.machine.place (t.echo sid) = .running := by
      rw [Machine.place, hecho]
      exact hp
    have htemps : (t.machine.frame (t.echo sid)).temps = [] := by rw [hecho]; rfl
    have hne := (hshows.handler_ne hs).2.2 sid s hs
    have hstep : t.machine.step ⟨.finish e, false⟩ =
        some (t.machine.finish (t.echo sid) (callers via) e) := by
      simp [Machine.step, hstack, hrunning, htemps]
    have hframe := Machine.finish_frame_of_waiter (M := t.machine) (f := t.echo sid)
      (g := t.handler sid) (by rw [hecho]; rfl) (callers via) e
    refine ⟨_, acts_of (Machine.acts_cons hstep), ?_, ?_⟩
    · rw [hrun', hacc, hs']
      refine hshows.session hs rfl rfl (Function.update_eq_self _ _).symm (Or.inl rfl) ?_ ?_
        fun f hfh hfe _ => ?_
      · rw [hframe, if_pos rfl, hshows.handler sid s hs, handlerFrame, handlerFrame, hpend, hend]
        rfl
      · rw [hframe, if_neg hne.symm, if_pos rfl, hecho, echoFrame, echoFrame, hpend, hend, hplace]
        cases e <;> rfl
      · rw [hframe, if_neg hfh, if_neg hfe]
    · show (t.machine.finish (t.echo sid) (callers via) e).stack = _
      rw [Machine.finish_stack, hecho, bodies, hrun', hs']
      simp [hend, callers, echoFrame]

/-- The task of the `echo_loop` that has ended is destroyed. -/
theorem Describes.endExpr (h : t.Describes co) (hok : t.machine.Ok)
    (hrun : co.running = .session sid via) (hs : co.sessions sid = some s)
    (hp : s.pc.place = .final) :
    ∃ M, t.machine.step ⟨.endExpr, false⟩ = some M ∧ M.stack = t.handler sid :: callers via ∧
      M.next = t.machine.next ∧ ∀ x, M.frame x =
        if x = t.handler sid then
          { place := .running, mDetached := true, held := via, started := true }
        else if x = t.echo sid then
          { t.machine.frame (t.echo sid) with place := .destroyed, held := false }
        else t.machine.frame x := by
  obtain ⟨thrown, hpc⟩ := Pc.ended_of_final hp
  have hshows := h.shows
  have hstack := h.stack_handler hrun hs hp
  rw [hrun] at hshows
  have hhandler := hshows.handler sid s hs
  have hecho := hshows.echo sid s hs
  have hplace : t.machine.place (t.handler sid) = .running := by
    rw [Machine.place, hhandler, hpc]
    rfl
  have hframe := Machine.dropTemp_frame hok.linked hplace (c := t.echo sid)
    (by rw [hhandler]; rfl) (by rw [hecho]; rfl) (by rw [hecho]; rfl)
  refine ⟨t.machine.dropTasks (some (t.handler sid)) (t.machine.frame (t.handler sid)).temps false,
    by simp [Machine.step, hstack, hplace], hstack, rfl, fun x => ?_⟩
  rw [hframe x]
  split_ifs
  · rw [hhandler, hpc]
    cases via <;> simp [handlerFrame, Pc.ended, Running.caller]
  · rfl
  · rfl

/-- `echo_loop` is called again. -/
theorem Describes.again (h : t.Describes co) (hok : t.machine.Ok)
    (hrun : co.running = .session sid via) (hs : co.sessions sid = some s)
    (hp : s.pc.place = .final) (hp' : s'.pc.place = .running) (hacc : co'.acceptor = co.acceptor)
    (hrun' : co'.running = .session sid via)
    (hs' : co'.sessions = Function.update co.sessions sid (some s')) :
    ∃ t', (t.acts [.endExpr, .await]).map (fun t' =>
        { t' with echo := Function.update t.echo sid t.machine.next }) = some t' ∧
      t'.Describes co' := by
  obtain ⟨M, hstep, hstack, hnext, hframe⟩ := h.endExpr hok hrun hs hp
  have hshows := h.shows
  rw [hrun] at hshows
  obtain ⟨-, -, hlive⟩ := hshows.place_ne
  have hpend := Pc.ended_of_running hp'
  have hne := (hshows.handler_ne hs).2.2 sid s hs
  have hhn : t.handler sid ≠ t.machine.next := (hok.linked.lt_next (hlive sid s hs).1).ne
  have hen : t.echo sid ≠ t.machine.next := (hok.linked.lt_next (hlive sid s hs).2).ne
  have hplace : M.place (t.handler sid) = .running := by rw [Machine.place, hframe, if_pos rfl]
  have hstep₂ : M.step ⟨.await, false⟩ = some (M.await (t.handler sid) (callers via)) := by
    simp [Machine.step, hstack, hplace]
  have hframe₂ := Machine.await_frame M (t.handler sid) (callers via)
  rw [hnext] at hframe₂
  have hacts : t.machine.acts [.endExpr, .await] =
      some (M.await (t.handler sid) (callers via)) := by
    rw [Machine.acts_cons hstep, Machine.acts_cons hstep₂, Machine.acts_nil]
  rw [acts_of hacts]
  refine ⟨_, rfl, ?_, ?_⟩
  · rw [hrun', hacc, hs']
    refine hshows.session (e := t.machine.next) hs rfl rfl rfl (Or.inr ⟨?_, ?_⟩) ?_ ?_
      fun f hfh hfe hfn => ?_
    · rw [Machine.place, hok.linked.fresh _ le_rfl]
      rfl
    · show ((M.await (t.handler sid) (callers via)).frame (t.echo sid)).place = _
      rw [hframe₂, if_neg hen, if_neg hne.symm, hframe, if_neg hne.symm, if_pos rfl]
    · show (M.await (t.handler sid) (callers via)).frame (t.handler sid) = _
      rw [hframe₂, if_neg hhn, if_pos rfl, hframe, if_pos rfl, handlerFrame, hpend]
      cases via <;> simp [Running.caller]
    · show (M.await (t.handler sid) (callers via)).frame t.machine.next = _
      rw [hframe₂, if_pos rfl, echoFrame, hpend, hp']
      rfl
    · show (M.await (t.handler sid) (callers via)).frame f = _
      rw [hframe₂, if_neg hfn, if_neg hfh, hframe, if_neg hfh, if_neg hfe]
  · show M.next :: callers via = _
    rw [hnext, bodies, hrun', hs']
    simp [hpend, callers]

/-- The session has given the thread back, and is now `next`; `accept` has not gone on. -/
structure Yields (t : Tasks) (co : Coros) (sid : ℕ) (via : Bool) (next : Option Session) :
    Prop where
  ok : t.machine.Ok
  shows : t.Shows co.acceptor (Function.update co.sessions sid next)
    (if via then some sid else none)
  stack : t.machine.stack = callers via
  detached : (t.machine.frame (t.handler sid)).mDetached = true
  held : (t.machine.frame (t.handler sid)).held = via
  gone : next = none → t.machine.place (t.handler sid) = .destroyed

/-- `echo_loop` suspends. -/
theorem Describes.suspends (h : t.Describes co) (hok : t.machine.Ok)
    (hrun : co.running = .session sid via) (hs : co.sessions sid = some s)
    (hp : s.pc.place = .running) (hp' : s'.pc.place = .suspended) :
    ∃ t₁, t.acts [.suspend] = some t₁ ∧ t₁.Yields co sid via (some s') := by
  have hshows := h.shows
  have hstack := h.stack_echo hrun hs hp
  rw [hrun] at hshows
  have hhandler := hshows.handler sid s hs
  have hecho := hshows.echo sid s hs
  have hpend := Pc.ended_of_running hp
  have hpend' := Pc.ended_of_suspended hp'
  have hne := (hshows.handler_ne hs).2.2 sid s hs
  have hrunning : t.machine.place (t.echo sid) = .running := by
    rw [Machine.place, hecho]
    exact hp
  have hstep : t.machine.step ⟨.suspend, false⟩ =
      some (t.machine.pause (t.echo sid) (callers via)) := by
    simp [Machine.step, hstack, hrunning]
  set t₁ : Tasks := { t with machine := t.machine.pause (t.echo sid) (callers via) } with ht₁
  have hframe : ∀ x, t₁.machine.frame x =
      if x = t.echo sid then { t.machine.frame (t.echo sid) with place := .suspended }
      else t.machine.frame x := fun x => Function.update_apply _ _ _ x
  have hshows₁ : t₁.Shows co.acceptor (Function.update co.sessions sid (some s'))
      (Running.session sid via).caller := by
    refine hshows.session hs rfl rfl (Function.update_eq_self _ _).symm (Or.inl rfl) ?_ ?_
      fun f _ hfe _ => ?_
    · rw [hframe, if_neg hne, hhandler, handlerFrame, handlerFrame, hpend, hpend']
    · rw [hframe, if_pos rfl, hecho, echoFrame, echoFrame, hpend, hpend', hp']
    · rw [hframe, if_neg hfe]
  have hhandler₁ : t₁.machine.frame (t₁.handler sid) =
      handlerFrame s.pc (t.echo sid) (decide ((Running.session sid via).caller = some sid)) := by
    show t₁.machine.frame (t.handler sid) = _
    rw [hframe, if_neg hne, hhandler]
  refine ⟨t₁, acts_of (Machine.acts_cons hstep), hok.step hstep, ?_, rfl, ?_, ?_, by simp⟩
  · rw [← caller_session]
    exact hshows₁
  · rw [hhandler₁]
    rfl
  · rw [hhandler₁]
    cases via <;> simp [handlerFrame, Running.caller]

/-- `client_socket_handler` ends, and its frame is destroyed at the final suspend. -/
theorem Describes.ends (h : t.Describes co) (hok : t.machine.Ok)
    (hrun : co.running = .session sid via) (hs : co.sessions sid = some s)
    (hp : s.pc.place = .final) :
    ∃ t₁, t.acts [.endExpr, .finish (.returned true)] = some t₁ ∧ t₁.Yields co sid via none := by
  obtain ⟨M, hstep, hstack, -, hframe⟩ := h.endExpr hok hrun hs hp
  have hshows := h.shows
  rw [hrun] at hshows
  have hne := (hshows.handler_ne hs).2.2 sid s hs
  have hplace : M.place (t.handler sid) = .running := by rw [Machine.place, hframe, if_pos rfl]
  have htemps : (M.frame (t.handler sid)).temps = [] := by rw [hframe, if_pos rfl]
  have hwait : (M.frame (t.handler sid)).waiter = none := by rw [hframe, if_pos rfl]
  have hstep₂ : M.step ⟨.finish (.returned true), false⟩ =
      some (M.finish (t.handler sid) (callers via) (.returned true)) := by
    simp [Machine.step, hstack, hplace, htemps]
  have hframe₂ := Machine.finish_frame_of_none hwait (callers via) (.returned true)
  set t₁ : Tasks := { t with machine := M.finish (t.handler sid) (callers via) (.returned true) }
    with ht₁
  have hhandler₁ : t₁.machine.frame (t₁.handler sid) =
      { place := .destroyed
        result := some true
        mDetached := true
        held := via
        started := true
        ended := some (.returned true) } := by
    show (M.finish _ _ _).frame (t.handler sid) = _
    rw [hframe₂, if_pos rfl, hframe, if_pos rfl]
    rfl
  have hshows₁ : t₁.Shows co.acceptor (Function.update co.sessions sid none)
      (Running.session sid via).caller := by
    refine hshows.ends hs rfl rfl rfl ?_ ?_ fun f hfh hfe => ?_
    · exact congrArg Frame.place hhandler₁
    · show ((M.finish _ _ _).frame (t.echo sid)).place = _
      rw [hframe₂, if_neg hne.symm, hframe, if_neg hne.symm, if_pos rfl]
    · show (M.finish _ _ _).frame f = _
      rw [hframe₂, if_neg hfh, hframe, if_neg hfh, if_neg hfe]
  refine ⟨t₁, acts_of ?_, (hok.step hstep).step hstep₂, ?_, ?_, by rw [hhandler₁],
    by rw [hhandler₁], fun _ => congrArg Frame.place hhandler₁⟩
  · rw [Machine.acts_cons hstep, Machine.acts_cons hstep₂, Machine.acts_nil]
  · rw [← caller_session]
    exact hshows₁
  · rw [ht₁, Machine.finish_stack, hwait]
    rfl

/-- Then `accept` goes on, if it has started the session. -/
theorem Yields.back {next : Option Session} (h : t.Yields co sid via next)
    (hvia : via = true → co.acceptor = .call) (hacc : co'.acceptor = co.acceptor)
    (hrun' : co'.running = Coros.back via)
    (hs' : co'.sessions = Function.update co.sessions sid next) :
    ∃ t', t.back sid via = some t' ∧ t'.Describes co' := by
  obtain ⟨t', hback, hshows, hstack⟩ := h.shows.back h.ok hvia h.stack h.detached h.held
    fun hnone => h.gone (by simpa using hnone)
  refine ⟨t', hback, ?_, ?_⟩
  · rw [hrun', hacc, hs']
    cases via <;> exact hshows
  · rw [hstack, bodies, hrun']
    cases via <;> rfl

/-! ### Runs -/

/-- The frames are as described, from the call of `accept` on. -/
structure Ok (S : State) (t : Tasks) : Prop where
  reach : Lts.Reach Machine.step (fun _ _ => True) Machine.start t.machine
  boot : S.co.acceptor = .boot → t = start
  describes : S.co.acceptor ≠ .boot → t.Describes S.co

theorem Describes.congr (h : t.Describes co) (hacc : co'.acceptor = co.acceptor)
    (hrun : co'.running = co.running) (hs : co'.sessions = co.sessions) : t.Describes co' := by
  refine ⟨?_, ?_⟩
  · rw [hacc, hrun, hs]
    exact h.shows
  · rw [h.stack, bodies, bodies, hrun, hs]

/-- The `accept` coroutine goes on. -/
theorem Describes.accepts (h : t.Describes co) (hrun : co.running = .acceptor)
    (hpc : co.acceptor.place = .running) (hpc' : co'.acceptor.place = .running)
    (hrun' : co'.running = .acceptor) (hs : co'.sessions = co.sessions) : t.Describes co' := by
  have hshows := h.shows
  rw [hrun] at hshows
  refine ⟨?_, ?_⟩
  · rw [hrun', hs]
    refine hshows.setOperation rfl rfl rfl ?_ fun _ _ => rfl
    rw [hshows.operation _ rfl, operationFrame, operationFrame, hpc, hpc']
  · rw [h.stack, bodies, bodies, hrun, hrun']

theorem acts_machine {as : List (Action Bool)} (h : t.acts as = some t') :
    t.machine.acts as = some t'.machine ∧ t'.handler = t.handler := by
  obtain ⟨M, hM, rfl⟩ := Option.map_eq_some_iff.1 h
  exact ⟨hM, rfl⟩

/-- Writing down handles makes no difference. -/
theorem acts_map_machine {as : List (Action Bool)} {f : Tasks → Tasks}
    (h : (t.acts as).map f = some t') (hf : ∀ x, (f x).machine = x.machine) :
    t.machine.acts as = some t'.machine := by
  obtain ⟨t₁, ht₁, rfl⟩ := Option.map_eq_some_iff.1 h
  rw [hf]
  exact (acts_machine ht₁).1

theorem back_reach (h : t.back sid via = some t') :
    Lts.Reach Machine.step (fun _ _ => True) t.machine t'.machine := by
  unfold back at h
  split_ifs at h
  · exact Machine.acts_reach (acts_map_machine h fun _ => rfl)
  · cases h
    exact .refl

/-- The machine makes steps of its own only. -/
theorem follow_reach {S S' : State} {l : Label Choice} (h : t.follow S l S' = some t') :
    Lts.Reach Machine.step (fun _ _ => True) t.machine t'.machine := by
  unfold follow at h
  split at h
  · unfold resumed at h
    split at h
    · cases h
      exact .refl
    · exact Machine.acts_reach (acts_machine h).1
    · exact Machine.acts_reach (acts_machine h).1
  · unfold acceptor at h
    split at h
    · exact Machine.acts_reach (acts_map_machine h fun _ => rfl)
    · exact Machine.acts_reach (acts_machine h).1
    · exact Machine.acts_reach (acts_map_machine h fun _ => rfl)
    · cases h
      exact .refl
  · obtain ⟨s, -, h⟩ := Option.bind_eq_some_iff.1 h
    obtain ⟨act, -, h⟩ := Option.bind_eq_some_iff.1 h
    unfold session at h
    split at h
    · exact Machine.acts_reach (acts_machine h).1
    · exact Machine.acts_reach (acts_map_machine h fun _ => rfl)
    · obtain ⟨t₁, ht₁, h⟩ := Option.bind_eq_some_iff.1 h
      exact (Machine.acts_reach (acts_machine ht₁).1).trans (back_reach h)
    · obtain ⟨t₁, ht₁, h⟩ := Option.bind_eq_some_iff.1 h
      exact (Machine.acts_reach (acts_machine ht₁).1).trans (back_reach h)
    · cases h
      exact .refl
  · cases h
    exact .refl

/-- A step of the `accept` coroutine. -/
theorem Ok.acceptor {S : State} {c : Choice} {m : Move Handle Coros} (hok : t.Ok S)
    (hob : ObjectsOk S.w S.co) (hm : Coros.StepCase S.w S.co c m)
    (hrun : S.co.running = .acceptor) :
    ∃ t', t.acceptor S.co c = some t' ∧ (m.next.acceptor = .boot → t' = start) ∧
      (m.next.acceptor ≠ .boot → t'.Describes m.next) := by
  -- outside of `boot` the frames are described before and after
  have hdesc : ∀ {pc}, S.co.acceptor = pc → pc ≠ .boot → t.Describes S.co := fun hpc hne =>
    hok.describes (hpc ▸ hne)
  cases hm with
  | @boot p fd ok _ hpc =>
    have hstart := hok.boot hpc
    subst hstart
    have hboots : { S.co with listen := p, acceptor := .call : Coros }.running = .acceptor := hrun
    obtain ⟨t', ht', hd⟩ := describes_boot rfl hboots (hob.boot hpc)
    refine ⟨t', ?_, by simp, fun _ => hd⟩
    simp only [Tasks.acceptor, hpc]
    exact ht'
  | bootFail _ hpc =>
    exact ⟨t, by simp only [Tasks.acceptor, hpc], fun _ => hok.boot hpc, fun hne => absurd hpc hne⟩
  | acceptOk _ hpc =>
    refine ⟨t, by simp only [Tasks.acceptor, hpc], by simp, fun _ => ?_⟩
    exact (hdesc hpc (by simp)).accepts hrun (by rw [hpc]; rfl) rfl hrun rfl
  | acceptBlock _ hpc =>
    have hblocks : { S.co with
        acceptor := .susp S.co.acceptNo
        acceptNo := S.co.acceptNo + 1
        running := .idle : Coros }.running = .idle := rfl
    obtain ⟨t', ht', hd⟩ := (hdesc hpc (by simp)).blocks hrun hpc rfl hblocks rfl
    exact ⟨t', by simp only [Tasks.acceptor, hpc]; exact ht', by simp, fun _ => hd⟩
  | acceptFail _ hpc =>
    exact ⟨t, by simp only [Tasks.acceptor, hpc], by simp [hpc], fun _ => hdesc hpc (by simp)⟩
  | retryOk _ hpc | retryFail _ hpc =>
    refine ⟨t, by simp only [Tasks.acceptor, hpc], by simp, fun _ => ?_⟩
    exact (hdesc hpc (by simp)).accepts hrun (by rw [hpc]; rfl) rfl hrun rfl
  | @made fd p ok _ hpc =>
    have hnone := Coros.sessions_nextFrame hob.fresh
    have hopens : { S.co.setSession S.co.nextFrame (some (.start S.co.nextFrame p)) with
        acceptor := .call
        nextFrame := S.co.nextFrame + 1
        running := .session S.co.nextFrame true : Coros }.running =
        .session S.co.nextFrame true := rfl
    obtain ⟨t', ht', hd⟩ := (hdesc hpc (by simp)).opens (Machine.ok_reach hok.reach) hrun hpc hnone
      rfl hopens rfl
    exact ⟨t', by simp only [Tasks.acceptor, hpc]; exact ht', by simp, fun _ => hd⟩
  | session hrun' =>
    rw [hrun] at hrun'
    cases hrun'

/-- A step of a session. -/
theorem Describes.session {after : After} (h : t.Describes co) (hok : t.machine.Ok)
    (hrun : co.running = .session sid via) (hs : co.sessions sid = some s)
    (hvia : via = true → co.acceptor = .call) (hp : after.Places s.pc)
    (hacc : co'.acceptor = co.acceptor) (hrun' : co'.running = (co.settle sid via after).running)
    (hs' : co'.sessions = (co.settle sid via after).sessions) :
    ∃ t', t.session sid via after = some t' ∧ t'.Describes co' := by
  rw [Coros.settle_sessions hs] at hs'
  cases after with
  | running s' => exact h.runs hrun hs hp.1 hp.2 hacc (hrun'.trans hrun) hs'
  | again s' => exact h.again hok hrun hs hp.1 hp.2 hacc (hrun'.trans hrun) hs'
  | suspended s' =>
    obtain ⟨t₁, ht₁, hy⟩ := h.suspends hok hrun hs hp.1 hp.2
    rw [Tasks.session, ht₁, Option.bind_some]
    exact hy.back hvia hacc hrun' hs'
  | ended =>
    obtain ⟨t₁, ht₁, hy⟩ := h.ends hok hrun hs hp
    rw [Tasks.session, ht₁, Option.bind_some]
    exact hy.back hvia hacc hrun' hs'
  | exited =>
    refine ⟨t, rfl, h.congr hacc hrun' (hs'.trans ?_)⟩
    rw [After.next, ← hs, Function.update_eq_self]

/-- A coroutine is resumed, or nothing changes. -/
theorem Ok.idle {S S' : State} {l : Label Choice} (h : t.Ok S) (hth : ThreadsOk S)
    (hidle : S.co.running = .idle)
    (hco : S'.co = S.co ∨ ∃ hd, S.co.resume hd = some S'.co) :
    ∃ t', t.follow S l S' = some t' ∧ t'.Ok S' := by
  obtain ⟨n, hn⟩ := hth.waiting.acceptor (Or.inl hidle)
  have hd := h.describes (by rw [hn]; simp)
  have hfollow : t.follow S l S' = t.resumed S'.co.running := by
    unfold follow
    rw [hidle]
  rw [hfollow]
  rcases hco with hco | ⟨hd', hr⟩
  · rw [hco, hidle]
    exact ⟨t, rfl, h.reach, by rw [hco]; exact h.boot, by rw [hco]; exact h.describes⟩
  · obtain ⟨t', ht', hd'⟩ := hd.resume hidle hr
    refine ⟨t', ht', h.reach.trans (follow_reach (hfollow.trans ht')), fun hb => ?_, fun _ => hd'⟩
    rcases Coros.resume_cases hr with ⟨_, -, -, e⟩ | ⟨_, _, _, -, -, -, e⟩
    · rw [e] at hb
      cases hb
    · rw [e] at hb
      rw [show S.co.acceptor = .boot from hb] at hn
      cases hn

/-- One step of the server. -/
theorem Ok.step {S S' : State} {l : Label Choice} (h : t.Ok S) (hth : ThreadsOk S)
    (hs : S.step l = some S') : ∃ t', t.follow S l S' = some t' ∧ t'.Ok S' := by
  cases Server.step_cases hs with
  | wait hctl _ hS | batchEnd hctl hS | unmanaged hctl _ hS | noIn hctl _ _ hS | noOut hctl _ hS
  | sendNull hctl _ _ _ hS | flushEnd hctl hS | recvNull hctl _ _ _ _ hS | flush hctl _ hS =>
    exact h.idle hth (hth.idle (by rw [hctl]; rfl)) (Or.inl (by rw [hS]))
  | recv hctl _ _ _ _ hco hS | send hctl _ _ _ hco hS =>
    exact h.idle hth (hth.idle (by rw [hctl]; rfl)) (Or.inr ⟨_, by rw [hS]; exact hco⟩)
  | env hco hS =>
    subst hS
    obtain ⟨pid, pr, -, -, rfl⟩ := Coros.env_cases hco
    have hkept : t.Ok { S with co := { S.co with procs := pr } } :=
      ⟨h.reach, h.boot, fun hb => (h.describes hb).congr rfl rfl rfl⟩
    refine ⟨t, ?_, hkept⟩
    unfold follow
    cases hrun : S.co.running <;> simp [resumed]
  | @co k c m w' hctl hm hw hS =>
    have hco : S'.co = m.next := by rw [hS]
    cases hrun : S.co.running with
    | idle =>
      simp only [server, Coros.step, hrun] at hm
      cases hm
    | acceptor =>
      obtain ⟨t', ht', hb, hd⟩ := h.acceptor hth.objects (Coros.step_cases hm) hrun
      have hfollow : t.follow S (.co c) S' = some t' := by
        unfold follow
        rw [hrun]
        exact ht'
      refine ⟨t', hfollow, h.reach.trans (follow_reach hfollow), ?_, ?_⟩
      · rw [hco]
        exact hb
      · rw [hco]
        exact hd
    | session sid via =>
      simp only [server, Coros.step, hrun, Coros.sessionStep] at hm
      obtain ⟨s, hsid, hm⟩ := Option.bind_eq_some_iff.1 hm
      obtain ⟨act, hact, hm⟩ := Option.bind_eq_some_iff.1 hm
      obtain ⟨pr, -, rfl⟩ := Option.map_eq_some_iff.1 hm
      have hb : S.co.acceptor ≠ .boot := fun e => by simp [hth.objects.boot e sid] at hsid
      have hacc : S'.co.acceptor = S.co.acceptor := by
        rw [hco]
        exact S.co.settle_acceptor sid via act.after
      obtain ⟨t', ht', hd⟩ := (h.describes hb).session (Machine.ok_reach h.reach) hrun hsid
        (fun e => hth.waiting.via sid (e ▸ hrun)) (Session.step_cases hact).places
        hacc (by rw [hco]) (by rw [hco])
      have hfollow : t.follow S (.co c) S' = some t' := by
        unfold follow
        rw [hrun]
        simp only [hsid, hact, Option.bind_some]
        exact ht'
      exact ⟨t', hfollow, h.reach.trans (follow_reach hfollow),
        fun e => absurd (hacc.symm.trans e) hb, fun _ => hd⟩

end Steps

end Tasks

/-! ### Every run -/

/-- The server with its tasks. -/
def State.withTasks : State × Tasks → Label Choice → Option (State × Tasks) :=
  Lts.observed State.step fun S l S' t => t.follow S l S'

/-- The state is reached with these tasks, by steps that meet the guard. -/
def Tasks.Reached (ok : State → Label Choice → Prop) (x : State × Tasks) : Prop :=
  Lts.Reach State.withTasks (fun x l => ok x.1 l) (State.start, Tasks.start) x

theorem Tasks.Ok.start : Tasks.start.Ok State.start :=
  ⟨.refl, fun _ => rfl, fun hb => absurd rfl hb⟩

section Runs

variable {ok : State → Label Choice → Prop} {S S' : State} {t t' : Tasks} {l : Label Choice}

theorem Tasks.Reached.state {x : State × Tasks} (h : Tasks.Reached ok x) :
    Lts.Reach State.step ok State.start x.1 := Lts.Reach.of_observed h

theorem Tasks.Reached.tasks {x : State × Tasks} (h : Tasks.Reached ok x) : x.2.Ok x.1 :=
  Lts.Reach.observed_related (R := fun S t => t.Ok S) h .start
    fun _ _ _ _ hr hok hst => hok.step (threadsOk_reach hr) hst

theorem Tasks.Reached.possible {x : State × Tasks} (h : Tasks.Reached ok x)
    (hs : x.1.step l = some S') : ∃ t', State.withTasks x l = some (S', t') :=
  Lts.Reach.observed_possible (R := fun S t => t.Ok S) h .start
    (fun _ _ _ _ hr hok hst => hok.step (threadsOk_reach hr) hst) hs

/-- **The coroutines of the server are tasks.** In every run of the server, whatever the guard,
every step can be followed by the tasks: each `co_await`, `detach`, suspension, resumption, end of a
body and `~task` of the source is a step that the machine of `include/task.hh` can make at that
moment. And however the state was reached, the machine is in a state that a run of tasks reaches,
from the call of `accept` on its frames and the bodies that run are those described, and whatever
the server does next the tasks can follow. -/
theorem tasks_follow (h : Lts.Reach State.step ok State.start S) :
    (∃ t, Tasks.Reached ok (S, t)) ∧ ∀ t, Tasks.Reached ok (S, t) →
      Lts.Reach Machine.step (fun _ _ => True) Machine.start t.machine ∧
      (S.co.acceptor ≠ .boot → t.Describes S.co) ∧
      ∀ l S', S.step l = some S' → ∃ t', State.withTasks (S, t) l = some (S', t') := by
  obtain ⟨t, ht, -⟩ := h.exists_observed (R := fun S t => Tasks.Ok S t) .start
    fun _ _ _ _ hr hok hst => hok.step (threadsOk_reach hr) hst
  refine ⟨⟨t, ht⟩, fun t ht => ⟨ht.tasks.reach, ht.tasks.describes, fun l S' hst => ?_⟩⟩
  exact ht.possible hst

/-- One connection has started its child and waits, with `accept` and `listen.accept()`, the handler
and `echo_loop`; then `run` resumes it. -/
theorem tasks_follow_reader : ∃ (S S' : State) (t t' : Tasks),
    S.co.sessions 0 ≠ none ∧ t.machine.stack = [] ∧ t.Describes S.co ∧
      S.step .next = some S' ∧ S'.co.running = .session 0 false ∧
      State.withTasks (S, t) .next = some (S', t') := by
  obtain ⟨S, h, hp⟩ := Lts.exists_reach State.step (fun _ _ => True) State.start
    (readRun ++ [.epollWait [(7, EPOLLIN)]]) (fun _ _ => true) (fun _ _ _ => trivial)
    (fun S => decide (S.co.acceptor ≠ .boot ∧ S.co.running = .idle ∧ (S.co.sessions 0).isSome ∧
      ∃ S' ∈ S.step .next, S'.co.running = .session 0 false)) (by decide)
  obtain ⟨hb, hidle, hs, S', hst, hrun⟩ := of_decide_eq_true hp
  obtain ⟨t, ht⟩ := (tasks_follow h).1
  obtain ⟨-, hdescribes, hnext⟩ := (tasks_follow h).2 t ht
  obtain ⟨t', ht'⟩ := hnext .next S' hst
  have hd := hdescribes hb
  refine ⟨S, S', t, t', Option.isSome_iff_ne_none.1 hs, ?_, hd, hst, hrun, ht'⟩
  rw [hd.stack, Tasks.bodies, hidle]

/-! ### Frames that are gone -/

/-- A session ends inside the `detach` that has started it. -/
def State.endsInDetach (S : State) (l : Label Choice) : Bool :=
  match S.co.running, l with
  | .session sid true, .co c =>
    ((S.co.sessions sid).bind fun s => s.step S.w sid S.co.nextFrame c).any fun act =>
      match act.after with
      | .ended => true
      | _ => false
  | _, _ => false

namespace Tasks

variable {sid : ℕ} {s : Session} {co : Coros} {via : Bool}

/-- The task of a session that has suspended is dropped in time. -/
theorem Yields.safe (h : t.Yields co sid via (some s)) (hsafe : t.machine.Safe)
    (hb : t.back sid via = some t') : t'.machine.Safe := by
  unfold Tasks.back at hb
  split_ifs at hb
  · have hframe := h.shows.handler sid s (Function.update_self _ _ _)
    obtain ⟨M₁, hstep, hrest⟩ := Machine.acts_cons_iff.1 (acts_map_machine hb fun _ => rfl)
    have hdrop : t.machine.DropsInTime ⟨.drop (t.handler sid), false⟩ := by
      intro f hf _
      cases hf
      refine ⟨by rw [hframe]; rfl, fun hdet => ?_⟩
      rw [h.detached] at hdet
      cases hdet
    exact (hsafe.step h.ok hdrop hstep).acts (h.ok.step hstep) (by simp) hrest
  · cases hb
    exact hsafe

theorem Ok.safe (h : t.Ok S) (hth : ThreadsOk S) (hl : S.endsInDetach l = false)
    (hsafe : t.machine.Safe) (hf : t.follow S l S' = some t') : t'.machine.Safe := by
  have hok := Machine.ok_reach h.reach
  unfold follow at hf
  split at hf
  · unfold resumed at hf
    split at hf
    · cases hf
      exact hsafe
    · exact hsafe.acts hok (by simp) (acts_machine hf).1
    · exact hsafe.acts hok (by simp) (acts_machine hf).1
  · unfold Tasks.acceptor at hf
    split at hf
    · exact hsafe.acts hok (by simp) (acts_map_machine hf fun _ => rfl)
    · exact hsafe.acts hok (by simp) (acts_machine hf).1
    · exact hsafe.acts hok (by simp) (acts_map_machine hf fun _ => rfl)
    · cases hf
      exact hsafe
  · rename_i sid via c hrun
    obtain ⟨s, hs, hf⟩ := Option.bind_eq_some_iff.1 hf
    obtain ⟨act, hact, hf⟩ := Option.bind_eq_some_iff.1 hf
    have hplaces := (Session.step_cases hact).places
    have hd := h.describes fun e => by simp [hth.objects.boot e sid] at hs
    cases hafter : act.after with
    | running s' =>
      rw [hafter] at hf
      exact hsafe.acts hok (by simp) (acts_machine hf).1
    | again s' =>
      rw [hafter] at hf
      exact hsafe.acts hok (by simp) (acts_map_machine hf fun _ => rfl)
    | suspended s' =>
      rw [hafter] at hf hplaces
      obtain ⟨t₁, ht₁, hy⟩ := hd.suspends hok hrun hs hplaces.1 hplaces.2
      rw [Tasks.session, ht₁, Option.bind_some] at hf
      exact hy.safe (hsafe.acts hok (by simp) (acts_machine ht₁).1) hf
    | ended =>
      rw [hafter] at hf hplaces
      obtain ⟨t₁, ht₁, -⟩ := hd.ends hok hrun hs hplaces
      rw [Tasks.session, ht₁, Option.bind_some] at hf
      cases via with
      | true => simp [State.endsInDetach, hrun, hs, hact, hafter] at hl
      | false =>
        cases hf
        exact hsafe.acts hok (by simp) (acts_machine ht₁).1
    | exited =>
      rw [hafter] at hf
      cases hf
      exact hsafe
  · cases hf
    exact hsafe

end Tasks

theorem Tasks.reach_machine {ok : State × Tasks → Label Choice → Prop} {x y : State × Tasks}
    (h : Lts.Reach State.withTasks ok x y) :
    Lts.Reach Machine.step (fun _ _ => True) x.2.machine y.2.machine :=
  h.inv (I := fun z => Lts.Reach Machine.step (fun _ _ => True) x.2.machine z.2.machine) .refl
    fun _ _ _ hr _ hst => hr.trans (Tasks.follow_reach (Lts.observed_cases hst).2)

/-- **No operation on a frame that is gone.** In every run of the server in which no session ends
inside the `detach` that has started it, no `resume`, `done`, `promise` or `destroy` of `task` or
`final_awaiter` is applied to a destroyed frame. -/
theorem tasks_live (h : Tasks.Reached (fun S l => S.endsInDetach l = false) (S, t)) :
    ∀ u ∈ t.machine.uses, u.place ≠ .destroyed := by
  have hJ : ∀ x, Tasks.Reached (fun S l => S.endsInDetach l = false) x →
      x.2.Ok x.1 ∧ ThreadsOk x.1 := fun x hr => ⟨hr.tasks, threadsOk_reach hr.state⟩
  have hinv : t.machine.Safe := h.inv_of (I := fun x => x.2.machine.Safe) hJ Machine.Safe.start
    fun x l x' hok _ hsafe hl hst => hok.1.safe hok.2 hl hsafe (Lts.observed_cases hst).2
  exact hinv.uses

/-- One connection that has started its child. -/
theorem tasks_live_reader : ∃ (S : State) (t : Tasks), S.co.sessions 0 ≠ none ∧
    t.machine.uses ≠ [] ∧ ∀ u ∈ t.machine.uses, u.place ≠ .destroyed := by
  obtain ⟨⟨S, t⟩, h, hp⟩ := Lts.exists_reach State.withTasks
    (fun x l => x.1.endsInDetach l = false) (State.start, Tasks.start) readRun
    (fun x l => !x.1.endsInDetach l) (fun x l hl => by simpa using hl)
    (fun x => decide ((x.1.co.sessions 0).isSome ∧ x.2.machine.uses ≠ [])) (by decide)
  obtain ⟨hs, hu⟩ := of_decide_eq_true hp
  exact ⟨S, t, Option.isSome_iff_ne_none.1 hs, hu, tasks_live h⟩

/-- **`~task` looks at a frame that is gone.** In every run, after a step in which a session ends
inside the `detach` that has started it, `done()` has been called on the destroyed frame of its
handler. -/
theorem task_dangles {ok : State × Tasks → Label Choice → Prop} {S'' : State} {t'' : Tasks}
    (h : Tasks.Reached (fun _ _ => True) (S, t)) (hl : S.endsInDetach l = true)
    (hst : State.withTasks (S, t) l = some (S', t'))
    (h' : Lts.Reach State.withTasks ok (S', t') (S'', t'')) :
    ∃ sid, S.co.running = .session sid true ∧
      ⟨.done, t.handler sid, .destroyed⟩ ∈ t''.machine.uses := by
  have hok : t.machine.Ok := Machine.ok_reach h.tasks.reach
  have hth : ThreadsOk S := threadsOk_reach h.state
  have hf : t.follow S l S' = some t' := (Lts.observed_cases hst).2
  unfold State.endsInDetach at hl
  split at hl
  · rename_i sid c hrun
    refine ⟨sid, hrun, ?_⟩
    obtain ⟨act, hact, hended⟩ := (Option.any_eq_true _ _).1 hl
    obtain ⟨s, hs, hact⟩ := Option.bind_eq_some_iff.1 hact
    have hafter : act.after = .ended := by
      cases hafter : act.after <;> rw [hafter] at hended <;> first | rfl | cases hended
    have hplaces := (Session.step_cases hact).places
    rw [hafter] at hplaces
    have hd := h.tasks.describes fun e => by simp [hth.objects.boot e sid] at hs
    obtain ⟨t₁, ht₁, hy⟩ := hd.ends hok hrun hs hplaces
    have hback : t₁.back sid true = some t' := by
      unfold Tasks.follow at hf
      rw [hrun] at hf
      simpa [hs, hact, hafter, Tasks.session, ht₁] using hf
    obtain ⟨M₁, hdrop, hrest⟩ :=
      Machine.acts_cons_iff.1 (Tasks.acts_map_machine hback fun _ => rfl)
    have huse : ⟨.done, t₁.handler sid, .destroyed⟩ ∈ M₁.uses := by
      cases Machine.step_cases hdrop with
      | drop =>
        rw [Machine.dropTasks_uses]
        refine List.mem_append_right _ (List.mem_append_left _ (List.mem_flatMap.2
          ⟨t₁.handler sid, List.mem_append_left _ (List.mem_singleton_self _), ?_⟩))
        simp [Machine.usesOf, hy.gone rfl]
    rw [← (Tasks.acts_machine ht₁).2]
    exact Machine.reach_uses ((Machine.acts_reach hrest).trans (Tasks.reach_machine h')) huse
  · cases hl

/-- A client whose request is already there is accepted, and `pipe` fails. -/
theorem task_dangles_pipe : ∃ t : Tasks, ⟨.done, 2, .destroyed⟩ ∈ t.machine.uses := by
  obtain ⟨⟨S, t⟩, ⟨S', t'⟩, ⟨S'', t''⟩, h, hst, h', hp⟩ := Lts.exists_reach_step_reach
    State.withTasks (fun _ _ => True) (fun _ _ => True) (State.start, Tasks.start)
    (listenRun ++ [.epollWait [(3, EPOLLIN)], .next, .co (.opened 4), .co (.object 2 true),
      .co (.sys (.bytes [97] [])), .co .failed]) (.co .go) [.co (.sys .wouldBlock)]
    (fun _ _ => true) (fun _ _ _ => trivial) (fun _ _ => true) (fun _ _ _ => trivial)
    (fun x _ _ => decide (x.1.endsInDetach (.co .go) = true ∧ x.2.handler 0 = 2 ∧
      x.1.co.running = .session 0 true)) (by decide)
  obtain ⟨hl, hh, hrun⟩ := of_decide_eq_true hp
  obtain ⟨sid, hrun', hu⟩ := task_dangles h hl hst h'
  rw [hrun] at hrun'
  cases hrun'
  exact ⟨t'', hh ▸ hu⟩

/-! ### The number of frames -/

/-- The frames that are live. -/
theorem Tasks.Shows.live_eq {pc : AcceptPc} {sessions : ℕ → Option Session} {caller : Option ℕ}
    (h : t.Shows pc sessions caller) (k : Finset ℕ)
    (hk : ∀ sid, sid ∈ k ↔ (sessions sid).isSome) :
    {f | t.machine.place f ≠ .destroyed} =
      ↑(insert 0 ((t.awaited caller).toFinset ∪ (k.image t.handler ∪ k.image t.echo))) := by
  obtain ⟨h0, hop, hlive⟩ := h.place_ne
  ext f
  simp only [Set.mem_ofPred_eq, Finset.coe_insert, Set.mem_insert_iff, Finset.mem_coe,
    Finset.mem_union, Option.mem_toFinset, Finset.mem_image]
  constructor
  · intro hf
    rcases h.live f hf with h1 | h1 | ⟨sid, s, hs, h1⟩
    · exact Or.inl h1
    · exact Or.inr (Or.inl h1)
    · have hsid : sid ∈ k := (hk sid).2 (by rw [hs]; rfl)
      refine Or.inr (Or.inr ?_)
      exact h1.imp (fun e => ⟨sid, hsid, e.symm⟩) fun e => ⟨sid, hsid, e.symm⟩
  · rintro (rfl | h1 | ⟨sid, hsid, rfl⟩ | ⟨sid, hsid, rfl⟩)
    · exact h0
    · exact hop f h1
    · obtain ⟨s, hs⟩ := Option.isSome_iff_exists.1 ((hk sid).1 hsid)
      exact (hlive sid s hs).1
    · obtain ⟨s, hs⟩ := Option.isSome_iff_exists.1 ((hk sid).1 hsid)
      exact (hlive sid s hs).2

theorem Tasks.Shows.live_card {pc : AcceptPc} {sessions : ℕ → Option Session} {caller : Option ℕ}
    (h : t.Shows pc sessions caller) (k : Finset ℕ)
    (hk : ∀ sid, sid ∈ k ↔ (sessions sid).isSome) :
    {f | t.machine.place f ≠ .destroyed}.ncard =
      1 + 2 * k.card + (t.awaited caller).elim 0 fun _ => 1 := by
  have hsome : ∀ sid ∈ k, ∃ s, sessions sid = some s := fun sid hsid =>
    Option.isSome_iff_exists.1 ((hk sid).1 hsid)
  have hhandler : (k.image t.handler).card = k.card := by
    refine Finset.card_image_of_injOn fun sid hsid sid' hsid' e => ?_
    obtain ⟨s, hs⟩ := hsome sid hsid
    obtain ⟨s', hs'⟩ := hsome sid' hsid'
    exact h.inj sid sid' s s' hs hs' e
  have hecho : (k.image t.echo).card = k.card := by
    refine Finset.card_image_of_injOn fun sid hsid sid' hsid' e => ?_
    obtain ⟨s, hs⟩ := hsome sid hsid
    obtain ⟨s', hs'⟩ := hsome sid' hsid'
    exact h.echo_inj hs hs' e
  have hdisj : Disjoint (k.image t.handler) (k.image t.echo) := by
    refine Finset.disjoint_left.2 fun f hf hf' => ?_
    obtain ⟨sid, hsid, rfl⟩ := Finset.mem_image.1 hf
    obtain ⟨sid', hsid', e⟩ := Finset.mem_image.1 hf'
    obtain ⟨s, hs⟩ := hsome sid hsid
    obtain ⟨s', hs'⟩ := hsome sid' hsid'
    exact (h.handler_ne hs).2.2 sid' s' hs' e.symm
  have hop : Disjoint (t.awaited caller).toFinset (k.image t.handler ∪ k.image t.echo) := by
    refine Finset.disjoint_left.2 fun f hf hf' => ?_
    rw [Option.mem_toFinset] at hf
    rcases Finset.mem_union.1 hf' with hf' | hf' <;> obtain ⟨sid, hsid, e⟩ := Finset.mem_image.1 hf'
    · obtain ⟨s, hs⟩ := hsome sid hsid
      exact (h.handler_ne hs).2.1 f hf e
    · obtain ⟨s, hs⟩ := hsome sid hsid
      exact (h.echo_ne hs).2 f hf e
  have h0 : 0 ∉ (t.awaited caller).toFinset ∪ (k.image t.handler ∪ k.image t.echo) := by
    intro hmem
    rcases Finset.mem_union.1 hmem with hmem | hmem
    · exact h.operation_ne (Option.mem_toFinset.1 hmem) rfl
    · rcases Finset.mem_union.1 hmem with hmem | hmem <;>
        obtain ⟨sid, hsid, e⟩ := Finset.mem_image.1 hmem
      · obtain ⟨s, hs⟩ := hsome sid hsid
        exact (h.handler_ne hs).1 e
      · obtain ⟨s, hs⟩ := hsome sid hsid
        exact (h.echo_ne hs).1 e
  rw [h.live_eq k hk, Set.ncard_coe_finset, Finset.card_insert_of_notMem h0,
    Finset.card_union_of_disjoint hop, Finset.card_union_of_disjoint hdisj, hhandler, hecho,
    Option.card_toFinset]
  cases t.awaited caller <;> simp only [Option.elim_none, Option.elim_some, Pi.one_apply] <;> ring

/-- **The number of frames.** In every run, from the call of `accept` on, there are exactly two
frames for each connection that is served, and those of `accept` and `listen.accept()`; the latter
is missing while a session runs inside the `detach` that has started it. -/
theorem frames_counted (h : Tasks.Reached ok (S, t)) (hb : S.co.acceptor ≠ .boot) :
    {f | t.machine.place f ≠ .destroyed}.ncard =
      1 + 2 * S.co.served.ncard + if S.co.running.caller.isSome then 0 else 1 := by
  have hfresh := (threadsOk_reach h.state).objects.fresh
  rw [Coros.served_eq hfresh, Set.ncard_coe_finset]
  rw [(h.tasks.describes hb).shows.live_card _ fun sid => ?_]
  · cases S.co.running.caller <;> rfl
  · simp only [Finset.mem_filter, Finset.mem_range]
    refine ⟨And.right, fun hs => ⟨?_, hs⟩⟩
    obtain ⟨s, hs⟩ := Option.isSome_iff_exists.1 hs
    exact hfresh sid s hs

/-- Two connections that wait for a request. -/
theorem frames_counted_two : ∃ (S : State) (t : Tasks),
    ((S.co.sessions 0).isSome ∧ (S.co.sessions 1).isSome ∧ S.co.running.caller = none) ∧
    {f | t.machine.place f ≠ .destroyed}.ncard =
      1 + 2 * S.co.served.ncard + if S.co.running.caller.isSome then 0 else 1 := by
  obtain ⟨⟨S, t⟩, h, hp⟩ := Lts.exists_reach State.withTasks (fun _ _ => True)
    (State.start, Tasks.start)
    (listenRun ++ connectRun 2 4 ++ flushRun 2 ++ connectRun 3 5 ++ flushRun 3)
    (fun _ _ => true) (fun _ _ _ => trivial)
    (fun x => decide (x.1.co.acceptor ≠ .boot ∧ (x.1.co.sessions 0).isSome ∧
      (x.1.co.sessions 1).isSome ∧ x.1.co.running.caller = none)) (by decide)
  obtain ⟨hb, hrest⟩ := of_decide_eq_true hp
  have hr : Tasks.Reached (fun _ _ => True) (S, t) := h
  exact ⟨S, t, hrest, frames_counted hr hb⟩

end Runs

end EpollCoroutine
