import EpollCoroutine.Server.Moves

/-!
# Sessions and their children

* `Coros.Evolves`: what a step of the server does to its sessions and its child processes.
* `Frames`: every call of `echo_loop` has its own number.
* `Forked`: from `fork` to the end of the wait a session has a child that has not been reaped; so
  every `kill` hits such a child (`kill_hits_child`).
* `Session.abandons`: the ways to leave `echo_loop` after the `fork` without `waitpid`. A run
  without them leaves no zombie behind (`child_reaped`).
-/

namespace EpollCoroutine

/-! ### Steps -/

/-- What a step does to the sessions, the numbering and the processes. -/
inductive Coros.Evolves (w : World Handle) (co co' : Coros) : Label Choice → Prop
  | stays {l : Label Choice} (hs : co'.sessions = co.sessions) (hn : co'.nextFrame = co.nextFrame)
      (hp : co'.procs = co.procs) : Evolves w co co' l
  | starts {l : Label Choice} {p : Addr}
      (hs : co'.sessions =
        Function.update co.sessions co.nextFrame (some (.start co.nextFrame p)))
      (hn : co'.nextFrame = co.nextFrame + 1) (hp : co'.procs = co.procs) : Evolves w co co' l
  | resumes {l : Label Choice} {sid : ℕ} {s : Session} {o : Op} (hsid : co.sessions sid = some s)
      (hpc : s.pc = .susp o)
      (hs : co'.sessions = Function.update co.sessions sid (some { s with pc := .retry o }))
      (hn : co'.nextFrame = co.nextFrame) (hp : co'.procs = co.procs) : Evolves w co co' l
  | moves {sid : ℕ} {via : Bool} {s : Session} {c : Choice} {act : Act}
      (hrun : co.running = .session sid via) (hsid : co.sessions sid = some s)
      (hact : Session.StepCase w sid co.nextFrame s c act)
      (hs : co'.sessions = Function.update co.sessions sid (act.after.next s))
      (hn : co.nextFrame ≤ co'.nextFrame)
      (hagain : ∀ s', act.after = .again s' → co.nextFrame < co'.nextFrame)
      (hp : co.procs.apply s w.table act.effect = some co'.procs) : Evolves w co co' (.co c)
  | child {l : Label Choice} {pid : Pid} (hs : co'.sessions = co.sessions)
      (hn : co'.nextFrame = co.nextFrame) (hp : co.procs.childStep pid = some co'.procs) :
      Evolves w co co' l

theorem Coros.resume_evolves {w : World Handle} {co co' : Coros} {x : Handle} (l : Label Choice)
    (h : co.resume x = some co') : co.Evolves w co' l := by
  rcases resume_cases h with ⟨n, -, -, rfl⟩ | ⟨sid, s, o, -, hs, hpc, rfl⟩
  · exact .stays rfl rfl rfl
  · exact .resumes hs hpc rfl rfl rfl

theorem Coros.step_evolves {w : World Handle} {co : Coros} {c : Choice} {m : Move Handle Coros}
    (h : co.step c w = some m) : co.Evolves w m.next (.co c) := by
  cases step_cases h with
  | boot | bootFail | acceptOk | acceptBlock | acceptFail | retryOk | retryFail =>
    exact .stays rfl rfl rfl
  | made => exact .starts rfl rfl rfl
  | @session sid via s _ act pr hrun hs hact hpr =>
    refine .moves hrun hs hact (settle_sessions hs via act.after) ?_ (fun s' e => ?_) hpr
    · cases act.after with
      | again => exact Nat.le_succ _
      | _ => exact le_rfl
    · rw [e]
      exact Nat.lt_succ_self _

/-- Every step of the server is one of these. -/
theorem State.evolves {S S' : State} {l : Label Choice} (h : S.step l = some S') :
    S.co.Evolves S.w S'.co l := by
  cases Server.step_cases h with
  | wait _ _ hS | batchEnd _ hS | unmanaged _ _ hS | noIn _ _ _ hS | recvNull _ _ _ _ _ hS
  | noOut _ _ hS | sendNull _ _ _ _ hS | flushEnd _ hS | flush _ _ hS =>
    subst hS
    exact .stays rfl rfl rfl
  | recv _ _ _ _ _ hco hS | send _ _ _ _ hco hS =>
    subst hS
    exact Coros.resume_evolves _ hco
  | co _ hm _ hS =>
    subst hS
    exact Coros.step_evolves hm
  | env hco hS =>
    subst hS
    obtain ⟨pid, pr, -, hpr, rfl⟩ := Coros.env_cases hco
    exact .child rfl rfl hpr

/-! ### Frames -/

/-- The calls of `echo_loop` that are in progress have different numbers, and the next number is
new. -/
structure Frames (co : Coros) : Prop where
  lt : ∀ sid s, co.sessions sid = some s → s.frame < co.nextFrame
  le : ∀ sid s, co.sessions sid = some s → sid ≤ s.frame
  inj : ∀ sid sid' s s', co.sessions sid = some s → co.sessions sid' = some s' →
    s.frame = s'.frame → sid = sid'

section Steps

variable {w : World Handle} {co co' : Coros} {l : Label Choice} {sid fresh : ℕ} {s s' : Session}
  {c : Choice} {act : Act}

theorem Session.StepCase.frame (h : Session.StepCase w sid fresh s c act)
    (hs' : act.after.next s = some s') :
    s'.frame = s.frame ∨ (act.after = .again s' ∧ s'.frame = fresh) := by
  cases h with
  | value | retry => cases hs'; exact Or.inl (Session.complete_rest _ _ _ _).2.1
  | again => cases hs'; exact Or.inr ⟨rfl, rfl⟩
  | close => cases hs'
  | _ => cases hs'; exact Or.inl rfl

/-- One session is replaced, and keeps its number or gets a new one. -/
theorem Frames.update (h : Frames co) (hsid : ∀ s, co.sessions sid = some s → s'.frame = s.frame ∨
      s'.frame = co.nextFrame) (hnew : co.sessions sid = none → s'.frame = co.nextFrame)
    (hs : co'.sessions = Function.update co.sessions sid (some s')) (hle : sid ≤ s'.frame)
    (hn : co.nextFrame ≤ co'.nextFrame) (hlt : s'.frame = co.nextFrame → s'.frame < co'.nextFrame) :
    Frames co' := by
  have hcase : (∃ s, co.sessions sid = some s ∧ s'.frame = s.frame) ∨ s'.frame = co.nextFrame := by
    cases hold : co.sessions sid with
    | none => exact Or.inr (hnew hold)
    | some s => exact (hsid s hold).imp_left fun e => ⟨s, rfl, e⟩
  -- nobody else has the number of the new state
  have hother : ∀ sid' t, sid' ≠ sid → co.sessions sid' = some t → s'.frame ≠ t.frame := by
    intro sid' t hne ht e
    rcases hcase with ⟨s, hold, e'⟩ | e'
    · exact hne (h.inj sid sid' s t hold ht (e'.symm.trans e)).symm
    · have := h.lt sid' t ht
      omega
  refine ⟨fun sid' t ht => ?_, fun sid' t ht => ?_, fun sid₁ sid₂ t₁ t₂ h₁ h₂ e => ?_⟩
  · rw [hs, Function.update_apply] at ht
    split_ifs at ht
    · cases ht
      rcases hcase with ⟨s, hold, e'⟩ | e'
      · have := h.lt sid s hold
        omega
      · exact hlt e'
    · exact (h.lt sid' t ht).trans_le hn
  · rw [hs, Function.update_apply] at ht
    split_ifs at ht with e
    · cases ht
      exact e ▸ hle
    · exact h.le sid' t ht
  · rw [hs, Function.update_apply] at h₁ h₂
    split_ifs at h₁ h₂ with e₁ e₂ e₂
    · rw [e₁, e₂]
    · cases h₁
      exact absurd e (hother sid₂ t₂ e₂ h₂)
    · cases h₂
      exact absurd e.symm (hother sid₁ t₁ e₁ h₁)
    · exact h.inj sid₁ sid₂ t₁ t₂ h₁ h₂ e

theorem Frames.step (h : Frames co) (he : co.Evolves w co' l) : Frames co' := by
  cases he with
  | stays hs hn | child hs hn => 
    exact ⟨by rw [hs, hn]; exact h.lt, by rw [hs]; exact h.le, by rw [hs]; exact h.inj⟩
  | starts hs hn =>
    refine h.update (fun s hold => ?_) (fun _ => rfl) hs le_rfl (by omega) (fun _ => ?_)
    · exact Or.inr rfl
    · rw [hn]
      exact Nat.lt_succ_self _
  | @resumes _ sid s o hsid hpc hs hn =>
    refine h.update (fun t ht => ?_) (fun e => ?_) hs (h.le sid s hsid) hn.ge fun e => ?_
    · rw [hsid] at ht
      cases ht
      exact Or.inl rfl
    · rw [hsid] at e
      cases e
    · exact absurd e (h.lt sid s hsid).ne
  | @moves sid via s c act hrun hsid hact hs hn hagain =>
    cases hnext : act.after.next s with
    | none =>
      rw [hnext] at hs
      refine ⟨fun sid' t ht => ?_, fun sid' t ht => ?_, fun sid₁ sid₂ t₁ t₂ h₁ h₂ => ?_⟩
      · rw [hs, Function.update_apply] at ht
        split_ifs at ht
        exact (h.lt sid' t ht).trans_le hn
      · rw [hs, Function.update_apply] at ht
        split_ifs at ht
        exact h.le sid' t ht
      · rw [hs, Function.update_apply] at h₁ h₂
        split_ifs at h₁ h₂
        exact h.inj sid₁ sid₂ t₁ t₂ h₁ h₂
    | some s' =>
      rw [hnext] at hs
      have hframe := hact.frame hnext
      have hle : sid ≤ s'.frame := by
        have h1 := h.le sid s hsid
        have h2 := h.lt sid s hsid
        rcases hframe with e | ⟨-, e⟩ <;> omega
      refine h.update (fun t ht => ?_) (fun e => ?_) hs hle hn fun e => ?_
      · rw [hsid] at ht
        cases ht
        exact hframe.imp_right And.right
      · rw [hsid] at e
        cases e
      · rcases hframe with e' | ⟨ha, -⟩
        · exact absurd (e'.symm.trans e) (h.lt sid s hsid).ne
        · rw [e]
          exact hagain s' ha

end Steps

theorem frames_start : Frames Coros.start :=
  ⟨fun sid s hs => (by cases hs), fun sid s hs => (by cases hs),
    fun sid sid' s s' hs => (by cases hs)⟩

theorem frames_reach {ok : State → Label Choice → Prop} {S : State}
    (h : Lts.Reach State.step ok State.start S) : Frames S.co :=
  h.inv (I := fun S => Frames S.co) frames_start fun _ _ _ hi _ hst => hi.step (State.evolves hst)

/-! ### Children -/

/-- The places from the `fork` of a call of `echo_loop` to the end of its wait for the child. -/
def Pc.forked : Pc → Bool
  | .call o | .susp o | .retry o => decide (o ≠ .recv)
  | .pidfdOpen | .attachPw _ | .closeEnds | .finishwriting | .finishReading => true
  | _ => false

/-- A session between `fork` and the end of the wait has a child. -/
def Forked (co : Coros) : Prop :=
  ∀ sid s, co.sessions sid = some s → s.pc.forked →
    ∃ c, co.procs.children s.forkedProcesId = some c ∧ c.frame = s.frame

section Steps

variable {w : World Handle} {co co' : Coros} {l : Label Choice} {sid fresh : ℕ} {s s' : Session}
  {c : Choice} {act : Act}

theorem Session.opEffect_cases (s : Session) (o : Op) (r : Sys) :
    s.opEffect o r = .none ∨ (o = .whaitforprocesstodie ∧
      ((r.completes ∧ s.opEffect o r = .reaped s.forkedProcesId) ∨
        s.opEffect o r = .killed s.forkedProcesId)) := by
  cases o with
  | whaitforprocesstodie =>
    cases h : r.completes <;> simp [Session.opEffect, h]
  | _ => exact Or.inl rfl

/-- The effects of the steps. -/
theorem Session.StepCase.effect (h : Session.StepCase w sid fresh s c act) :
    act.effect = .none ∨ (s.pc = .finishwriting ∧ act.effect = .finishedWriting) ∨
    (∃ pid, s.pc = .fork ∧ act.effect = .forked pid) ∨
    ((s.pc = .call .whaitforprocesstodie ∨ s.pc = .retry .whaitforprocesstodie) ∧
      (act.effect = .reaped s.forkedProcesId ∨ act.effect = .killed s.forkedProcesId)) := by
  cases h with
  | @value o _ r hpc | @block o _ r hpc | @retry o _ r hpc =>
    rcases s.opEffect_cases o r with e | ⟨rfl, e⟩
    · exact Or.inl e
    · exact Or.inr (Or.inr (Or.inr ⟨by simp [hpc], e.imp_left And.right⟩))
  | fork hpc => exact Or.inr (Or.inr (Or.inl ⟨_, hpc, rfl⟩))
  | finishwriting hpc => exact Or.inr (Or.inl ⟨hpc, rfl⟩)
  | _ => exact Or.inl rfl

/-- How a session comes to have a child, and keeps it. -/
theorem Session.StepCase.forked (h : Session.StepCase w sid fresh s c act)
    (hs' : act.after.next s = some s') (hf : s'.pc.forked) :
    s'.frame = s.frame ∧
      ((s.pc = .fork ∧ act.effect = .forked s'.forkedProcesId) ∨
        (s.pc.forked ∧ s'.forkedProcesId = s.forkedProcesId ∧
          ∀ pid, act.effect ≠ .reaped pid ∧ act.effect ≠ .forked pid)) := by
  -- an operation that has not reaped the child
  have hop : ∀ {o r}, (s.pc = .call o ∨ s.pc = .retry o) →
      ∀ dr, (s.complete o r dr).pc.forked → s.pc.forked ∧ s.opEffect o r = .none := by
    intro o r hpc dr hf
    rcases Session.complete_pc s o r dr with ⟨rfl, e | e⟩ | ⟨rfl, e⟩ | ⟨rfl, e | e | e⟩ |
      ⟨rfl, e | e⟩ | ⟨rfl, e⟩ <;> rw [e] at hf <;> rcases hpc with hpc | hpc <;>
      simp_all [Pc.forked, Session.opEffect]
  cases h with
  | @value o p r hpc =>
    cases hs'
    obtain ⟨h1, h2⟩ := hop (Or.inl hpc) _ hf
    obtain ⟨-, e1, -, e2, -⟩ := Session.complete_rest s o r (s.doneReading w)
    exact ⟨e1, Or.inr ⟨h1, e2, by simp [h2]⟩⟩
  | @retry o p r hpc =>
    cases hs'
    obtain ⟨h1, h2⟩ := hop (Or.inr hpc) _ hf
    obtain ⟨-, e1, -, e2, -⟩ := Session.complete_rest s o r (s.doneReading w)
    exact ⟨e1, Or.inr ⟨h1, e2, by simp [h2]⟩⟩
  | @block o p r hpc _ _ hr hb =>
    cases hs'
    refine ⟨rfl, Or.inr ⟨by rw [hpc]; exact hf, rfl, fun pid => ?_⟩⟩
    rcases s.opEffect_cases o r with e | ⟨rfl, ⟨hr', -⟩ | e⟩
    · simp [e]
    · rw [hr] at hr'
      cases hr'
    · simp [e]
  | fork hpc => cases hs'; exact ⟨rfl, Or.inl ⟨hpc, rfl⟩⟩
  | error => cases hs'; exact ⟨rfl, Or.inr ⟨hf, rfl, by simp⟩⟩
  | pidfdOpen hpc | attachPw hpc | closeEnds hpc | finishwriting hpc | finishReading hpc =>
    cases hs'
    exact ⟨rfl, Or.inr ⟨by rw [hpc]; rfl, rfl, by simp⟩⟩
  | cleanup hpc => cases hs'; exact ⟨rfl, Or.inr ⟨hf, rfl, by simp⟩⟩
  | attachRd =>
    cases hs'
    simp only [Pc.forked] at hf
    split_ifs at hf
  | close => cases hs'
  | pipeW | pipeWFail | pipeR | pipeRFail | attachWr | forkFail | pidfdFail | cleaned | again =>
    cases hs'
    simp [Pc.forked] at hf

/-- What the effect of a step does to the children. -/
theorem Procs.apply_children {pr pr' : Procs} {table : Fd → Option File} {e : Effect}
    (h : pr.apply s table e = some pr') :
    (pr'.children = pr.children ∧ ∀ pid, e ≠ .forked pid ∧ e ≠ .reaped pid) ∨
    (∃ pid, e = .forked pid ∧ pr.children pid = none ∧ pr'.children =
      Function.update pr.children pid (some ⟨s.frame, table, childActions s.mFdW s.mFdR⟩)) ∨
    ∃ pid, e = .reaped pid ∧ pr'.children = Function.update pr.children pid none := by
  cases e with
  | forked pid =>
    simp only [Procs.apply] at h
    split_ifs at h with hfree
    cases h
    exact Or.inr (Or.inl ⟨pid, rfl, Option.isNone_iff_eq_none.1 hfree.2, rfl⟩)
  | reaped pid =>
    simp only [Procs.apply] at h
    split_ifs at h
    cases h
    exact Or.inr (Or.inr ⟨pid, rfl, rfl⟩)
  | none | killed | finishedWriting => cases h; exact Or.inl ⟨rfl, by simp⟩

/-- Only the wait for the process reaps. -/
theorem Session.StepCase.reaps (h : Session.StepCase w sid fresh s c act) {pid : Pid}
    (he : act.effect = .reaped pid) : s.pc.forked ∧ pid = s.forkedProcesId := by
  rcases h.effect with e | ⟨-, e⟩ | ⟨pid', -, e⟩ | ⟨hpc, e | e⟩ <;> rw [he] at e <;> cases e
  rcases hpc with hpc | hpc <;> rw [hpc] <;> exact ⟨rfl, rfl⟩

theorem Session.StepCase.forks (h : Session.StepCase w sid fresh s c act) {pid : Pid}
    (he : act.effect = .forked pid) :
    act.after.next s = some { s with forkedProcesId := pid, pc := .pidfdOpen } := by
  cases h with
  | fork hpc => cases he; rfl
  | @value o _ r | @block o _ r | @retry o _ r =>
    rcases s.opEffect_cases o r with e | ⟨-, ⟨-, e⟩ | e⟩ <;> rw [e] at he <;> cases he
  | _ => cases he

/-- A child takes the first of its actions. -/
theorem Procs.childStep_cases {pr pr' : Procs} {pid : Pid} (h : pr.childStep pid = some pr') :
    ∃ c a rest, pr.children pid = some c ∧ c.todo = a :: rest ∧
      pr' = { pr with
        children := Function.update pr.children pid
          (some { c with table := a.apply c.table, todo := rest }) } := by
  unfold Procs.childStep at h
  split at h
  · cases h
  · rename_i c hc
    split at h
    · cases h
    · rename_i a rest htodo
      cases h
      exact ⟨c, a, rest, hc, htodo, rfl⟩

/-- A child process goes on towards `exec` and stays a child. -/
theorem Procs.childStep_frame {pr pr' : Procs} {pid : Pid} (h : pr.childStep pid = some pr') :
    pr'.kills = pr.kills ∧ pr'.finished = pr.finished ∧
      ∀ pid', (pr'.children pid').map Child.frame = (pr.children pid').map Child.frame := by
  obtain ⟨c, a, rest, hc, -, rfl⟩ := Procs.childStep_cases h
  refine ⟨rfl, rfl, fun pid' => ?_⟩
  simp only [Function.update_apply]
  split_ifs with e
  · rw [e, hc]
    rfl
  · rfl

/-- Only the frames of the children matter. -/
theorem Forked.congr (h : Forked co) (hs : co'.sessions = co.sessions)
    (hp : ∀ pid, (co'.procs.children pid).map Child.frame = (co.procs.children pid).map Child.frame) :
    Forked co' := by
  intro sid s hsid hf
  rw [hs] at hsid
  obtain ⟨c, hc, e⟩ := h sid s hsid hf
  have hc' := hp s.forkedProcesId
  rw [hc, Option.map_some] at hc'
  obtain ⟨c', hc', e'⟩ := Option.map_eq_some_iff.1 hc'
  exact ⟨c', hc', e'.trans e⟩

theorem Forked.step (h : Forked co) (hfr : Frames co) (he : co.Evolves w co' l) : Forked co' := by
  cases he with
  | stays hs _ hp => exact h.congr hs fun pid => by rw [hp]
  | child hs _ hp => exact h.congr hs (Procs.childStep_frame hp).2.2
  | starts hs _ hp =>
    intro sid s hsid hf
    rw [hs, Function.update_apply] at hsid
    rw [hp]
    split_ifs at hsid
    · cases hsid
      simp [Session.start, Pc.forked] at hf
    · exact h sid s hsid hf
  | @resumes _ sid s o hsid hpc hs _ hp =>
    intro sid' t ht hf
    rw [hs, Function.update_apply] at ht
    rw [hp]
    split_ifs at ht
    · cases ht
      exact h sid s hsid (by rw [hpc]; exact hf)
    · exact h sid' t ht hf
  | @moves sid via s c act hrun hsid hact hs _ _ hp =>
    intro sid' t ht hf
    rw [hs, Function.update_apply] at ht
    split_ifs at ht with e
    · subst e
      obtain ⟨hframe, ⟨hpc, heff⟩ | ⟨hf', hpid, heff⟩⟩ := hact.forked ht hf
      · rcases Procs.apply_children hp with ⟨-, hno⟩ | ⟨pid, e, -, hch⟩ | ⟨pid, e, -⟩
        · exact absurd heff (hno _).1
        · rw [heff] at e
          cases e
          exact ⟨_, by rw [hch, Function.update_self], hframe.symm⟩
        · rw [heff] at e
          cases e
      · obtain ⟨c, hc, ec⟩ := h sid' s hsid hf'
        rw [hpid, hframe]
        refine ⟨c, ?_, ec⟩
        rcases Procs.apply_children hp with ⟨hch, -⟩ | ⟨pid, e, -⟩ | ⟨pid, e, -⟩
        · rw [hch]
          exact hc
        · exact absurd e (heff pid).2
        · exact absurd e (heff pid).1
    · -- another session: its child is not the one that is new or reaped
      obtain ⟨c, hc, ec⟩ := h sid' t ht hf
      refine ⟨c, ?_, ec⟩
      rcases Procs.apply_children hp with ⟨hch, -⟩ | ⟨pid, -, hfree, hch⟩ | ⟨pid, heff, hch⟩
      · rw [hch]
        exact hc
      · have hne : t.forkedProcesId ≠ pid := by
          rintro rfl
          rw [hfree] at hc
          cases hc
        rw [hch, Function.update_of_ne hne]
        exact hc
      · obtain ⟨hf', rfl⟩ := hact.reaps heff
        have hne : t.forkedProcesId ≠ s.forkedProcesId := by
          intro e'
          obtain ⟨c', hc', ec'⟩ := h sid s hsid hf'
          rw [e', hc'] at hc
          cases hc
          exact e (hfr.inj sid' sid t s ht hsid (ec.symm.trans ec'))
        rw [hch, Function.update_of_ne hne]
        exact hc

end Steps

theorem forked_reach {ok : State → Label Choice → Prop} {S : State}
    (h : Lts.Reach State.step ok State.start S) : Forked S.co := by
  refine h.inv_of (J := fun S => Frames S.co) (I := fun S => Forked S.co)
    (fun _ => frames_reach) ?_ ?_
  · intro sid s hs
    cases hs
  · intro S l S' hfr _ hi _ hst
    exact hi.step hfr (State.evolves hst)

/-! ### Kills -/

theorem Procs.apply_kills {pr pr' : Procs} {s : Session} {table : Fd → Option File} {e : Effect}
    (h : pr.apply s table e = some pr') :
    pr'.kills = pr.kills ∨
      ∃ pid, e = .killed pid ∧ pr'.kills = (pid, (pr.children pid).isSome) :: pr.kills := by
  cases e with
  | killed pid => cases h; exact Or.inr ⟨pid, rfl, rfl⟩
  | forked pid | reaped pid =>
    simp only [Procs.apply] at h
    split_ifs at h
    cases h
    exact Or.inl rfl
  | none | finishedWriting => cases h; exact Or.inl rfl

theorem kills_step {w : World Handle} {co co' : Coros} {l : Label Choice} (hf : Forked co)
    (h : ∀ k ∈ co.procs.kills, k.2 = true) (he : co.Evolves w co' l) :
    ∀ k ∈ co'.procs.kills, k.2 = true := by
  cases he with
  | stays _ _ hp | starts _ _ hp | resumes _ _ _ _ hp => rw [hp]; exact h
  | child _ _ hp => rw [(Procs.childStep_frame hp).1]; exact h
  | @moves sid via s c act hrun hsid hact hs hn hagain hp =>
    rcases Procs.apply_kills hp with e | ⟨pid, heff, e⟩
    · rw [e]
      exact h
    · rw [e]
      intro k hk
      rcases List.mem_cons.1 hk with rfl | hk
      · -- the session that kills has its child
        rcases hact.effect with e | ⟨-, e⟩ | ⟨pid', -, e⟩ | ⟨hpc, e | e⟩ <;>
          rw [heff] at e <;> cases e
        obtain ⟨c, hc, -⟩ := hf sid s hsid (by rcases hpc with hpc | hpc <;> rw [hpc] <;> rfl)
        simp [hc]
      · exact h k hk

/-- **A kill hits a child.** In every run, whatever the system calls do and however often the
coroutines are resumed: every process that `DyingProcessWaitOperation` has killed was at that moment
a child of the server that had not been reaped. -/
theorem kill_hits_child {S : State} (h : Lts.Reach State.step (fun _ _ => True) State.start S)
    (pid : Pid) (hit : Bool) (hk : (pid, hit) ∈ S.co.procs.kills) : hit = true := by
  have hall : ∀ k ∈ S.co.procs.kills, k.2 = true := by
    refine h.inv_of (J := fun S => Forked S.co) (I := fun S => ∀ k ∈ S.co.procs.kills, k.2 = true)
      (fun _ => forked_reach) ?_ ?_
    · intro k hk
      cases hk
    · intro S l S' hf _ hi _ hst
      exact kills_step hf hi (State.evolves hst)
  exact hall _ hk

/-- The session has sent the reply and waits; its child is alive and is killed. -/
theorem kill_hits_child_alive : ∃ S : State, (100, true) ∈ S.co.procs.kills ∧
    ∀ hit, (100, hit) ∈ S.co.procs.kills → hit = true := by
  obtain ⟨S, h, hp⟩ := Lts.exists_reach State.step (fun _ _ => True) State.start
    (readRun ++ [.epollWait [(7, EPOLLIN)], .next, .co (.sys (.bytes [99, 97, 116, 10, 97] [])),
      .co .go, .co (.sys (.count 1)), .co (.sys .alive)])
    (fun _ _ => true) (fun _ _ _ => trivial)
    (fun S => decide ((100, true) ∈ S.co.procs.kills)) (by decide)
  exact ⟨S, of_decide_eq_true hp, fun hit hk => kill_hits_child h 100 hit hk⟩

/-! ### Zombies -/

namespace Session

/-- Nothing has been read from the pipe so far, and the result `r` of `readpipe` adds nothing. -/
def readsNothing (s : Session) (r : Sys) : Bool :=
  match r with
  | .bytes l after => (s.vars.merged ++ cstr (filled l ++ after)).isEmpty
  | _ => s.vars.merged.isEmpty

/-- The session gives its child up: `pidfd_open` fails after the `fork`, or its descriptor cannot be
registered; the read loop asks for the last character of an empty string; or the process wait was
woken before the child has died. -/
def abandons (w : World Handle) (s : Session) (c : Choice) : Bool :=
  match s.pc, c with
  | .pidfdOpen, .failed => true
  | .attachPw fd, .object _ ok => !w.addSucceeds fd ok
  | .call .readpipe, .sys r => r.completes && s.readsNothing r
  | .retry .readpipe, .sys r => s.readsNothing r
  | .retry .whaitforprocesstodie, .sys r => !r.completes
  | _, _ => false

/-- The read loop throws exactly when nothing has been read. -/
theorem complete_readpipe_throws {s : Session} {r : Sys} {dr : Bool}
    (h : (s.complete .readpipe r dr).pc = .cleanup true) : s.readsNothing r := by
  have hread : ∀ (q : ReadResult) (after : Bytes), (s.afterRead q after dr).pc = .cleanup true →
      s.vars.merged ++ cstr (filled q.content ++ after) = [] := by
    intro q after hpc
    unfold afterRead EchoVars.readBody at hpc
    cases hlast : (s.vars.merged ++ cstr (filled q.content ++ after)).getLast? with
    | none => exact List.getLast?_eq_none_iff.1 hlast
    | some c =>
      rw [hlast] at hpc
      dsimp only at hpc
      split_ifs at hpc
  cases r with
  | bytes l after => simpa [readsNothing, ReadResult.content] using hread (.bytes l) after h
  | _ =>
    have hnil := hread .failed [] h
    simp only [List.append_eq_nil_iff] at hnil
    simp [readsNothing, hnil.1]

/-- A session that has a child and does not give it up keeps it or reaps it. -/
theorem StepCase.keeps {w : World Handle} {sid fresh : ℕ} {s : Session} {c : Choice} {act : Act}
    (h : StepCase w sid fresh s c act) (hab : s.abandons w c = false) (hf : s.pc.forked)
    (hr : ∀ pid, act.effect ≠ .reaped pid) :
    ∃ s', act.after.next s = some s' ∧ s'.frame = s.frame ∧
      s'.forkedProcesId = s.forkedProcesId ∧ s'.pc.forked := by
  -- an operation has returned
  have hop : ∀ {o r dr}, (s.pc = .call o ∧ r.completes ∨ s.pc = .retry o) → c = .sys r →
      s.opEffect o r = act.effect →
      (s.complete o r dr).frame = s.frame ∧ (s.complete o r dr).forkedProcesId = s.forkedProcesId ∧
        (s.complete o r dr).pc.forked := by
    rintro o r dr hpc rfl heff
    obtain ⟨-, e1, -, e2, -⟩ := complete_rest s o r dr
    refine ⟨e1, e2, ?_⟩
    rcases complete_pc s o r dr with ⟨rfl, -⟩ | ⟨rfl, e⟩ | ⟨rfl, e | e | e⟩ |
      ⟨rfl, e | e⟩ | ⟨rfl, -⟩
    · rcases hpc with ⟨hpc, -⟩ | hpc <;> simp [hpc, Pc.forked] at hf
    · rw [e]; rfl
    · rw [e]; rfl
    · rw [e]; rfl
    · have hnothing := complete_readpipe_throws e
      rcases hpc with ⟨hpc, hc⟩ | hpc
      · simp [abandons, hpc, hc, hnothing] at hab
      · simp [abandons, hpc, hnothing] at hab
    · rw [e]; rfl
    · rw [e]; rfl
    · have hc : r.completes := by
        rcases hpc with ⟨-, hc⟩ | hpc
        · exact hc
        · simpa [abandons, hpc] using hab
      refine absurd heff.symm ?_
      simpa [opEffect, hc] using hr s.forkedProcesId
  cases h with
  | value hpc _ _ hc => exact ⟨_, rfl, hop (Or.inl ⟨hpc, hc⟩) rfl rfl⟩
  | retry hpc => exact ⟨_, rfl, hop (Or.inr hpc) rfl rfl⟩
  | block hpc => exact ⟨_, rfl, rfl, rfl, by rw [hpc] at hf; exact hf⟩
  | error => exact ⟨_, rfl, rfl, rfl, hf⟩
  | pidfdOpen | closeEnds | finishwriting => exact ⟨_, rfl, rfl, rfl, rfl⟩
  | pidfdFail hpc => simp [abandons, hpc] at hab
  | attachPw hpc =>
    simp only [abandons, hpc, Bool.not_eq_false'] at hab
    exact ⟨_, rfl, rfl, rfl, by simp [hab, Pc.forked]⟩
  | finishReading =>
    refine ⟨_, rfl, rfl, rfl, ?_⟩
    rcases sendHead_pc { s.setPtr .readEnd none with vars := s.vars.stripFirstLine } with e | e <;>
      rw [e] <;> rfl
  | pipeW hpc | pipeWFail hpc | pipeR hpc | pipeRFail hpc | attachRd hpc | attachWr hpc | fork hpc
  | forkFail hpc | cleanup hpc | cleaned hpc | close hpc | again hpc =>
    simp [hpc, Pc.forked] at hf

end Session

/-- The running session gives its child up. -/
def State.abandons (S : State) : Label Choice → Bool
  | .co c =>
    match S.co.running with
    | .session sid _ => (S.co.sessions sid).any fun s => s.abandons S.w c
    | _ => false
  | _ => false

/-- Every child belongs to a session that will wait for it. -/
def Attended (co : Coros) : Prop :=
  ∀ pid c, co.procs.children pid = some c →
    ∃ sid s, co.sessions sid = some s ∧ s.frame = c.frame ∧ s.forkedProcesId = pid ∧ s.pc.forked

theorem Attended.congr {co co' : Coros} (h : Attended co) (hs : co'.sessions = co.sessions)
    (hp : ∀ pid, (co'.procs.children pid).map Child.frame = (co.procs.children pid).map Child.frame) :
    Attended co' := by
  intro pid c hc
  have hc' := hp pid
  rw [hc, Option.map_some, eq_comm] at hc'
  obtain ⟨c', hc', e⟩ := Option.map_eq_some_iff.1 hc'
  obtain ⟨sid, s, hsid, hframe, hrest⟩ := h pid c' hc'
  exact ⟨sid, s, by rw [hs]; exact hsid, hframe.trans e, hrest⟩

theorem Attended.step {w : World Handle} {co co' : Coros} {l : Label Choice} (h : Attended co)
    (hfr : Frames co) (he : co.Evolves w co' l)
    (hab : ∀ sid via s c, co.running = .session sid via → co.sessions sid = some s → l = .co c →
      s.abandons w c = false) : Attended co' := by
  cases he with
  | stays hs _ hp => exact h.congr hs fun pid => by rw [hp]
  | child hs _ hp => exact h.congr hs (Procs.childStep_frame hp).2.2
  | starts hs _ hp =>
    intro pid c hc
    rw [hp] at hc
    obtain ⟨sid, s, hsid, hrest⟩ := h pid c hc
    refine ⟨sid, s, ?_, hrest⟩
    have hne : sid ≠ co.nextFrame := by
      have h1 := hfr.le sid s hsid
      have h2 := hfr.lt sid s hsid
      omega
    rw [hs, Function.update_of_ne hne]
    exact hsid
  | @resumes _ sid s o hsid hpc hs _ hp =>
    intro pid c hc
    rw [hp] at hc
    obtain ⟨sid', t, ht, hframe, hpid, hf⟩ := h pid c hc
    by_cases e : sid' = sid
    · subst e
      rw [hsid] at ht
      cases ht
      rw [hpc] at hf
      exact ⟨sid', { s with pc := .retry o }, by rw [hs, Function.update_self], hframe, hpid, hf⟩
    · exact ⟨sid', t, by rw [hs, Function.update_of_ne e]; exact ht, hframe, hpid, hf⟩
  | @moves sid via s c act hrun hsid hact hs _ _ hp =>
    have hnot := hab sid via s c hrun hsid rfl
    -- a child that was there before and is not reaped now
    have hold : ∀ {pid c}, co.procs.children pid = some c →
        (∀ pid', act.effect = .reaped pid' → pid' ≠ pid) →
        ∃ sid s, co'.sessions sid = some s ∧ s.frame = c.frame ∧ s.forkedProcesId = pid ∧
          s.pc.forked := by
      intro pid c hc hreap
      obtain ⟨sid', t, ht, hframe, hpid, hf⟩ := h pid c hc
      by_cases e : sid' = sid
      · subst e
        rw [hsid] at ht
        cases ht
        obtain ⟨s', hs', e1, e2, hf'⟩ := hact.keeps hnot hf fun pid' heff => by
          have := (hact.reaps heff).2
          exact hreap pid' heff (this.trans hpid)
        exact ⟨sid', s', by rw [hs, Function.update_self, hs'], e1.trans hframe, e2.trans hpid, hf'⟩
      · exact ⟨sid', t, by rw [hs, Function.update_of_ne e]; exact ht, hframe, hpid, hf⟩
    intro pid c hc
    rcases Procs.apply_children hp with ⟨hch, hno⟩ | ⟨pid', heff, hfree, hch⟩ | ⟨pid', heff, hch⟩
    · rw [hch] at hc
      exact hold hc fun pid' e => absurd e (hno pid').2
    · rw [hch, Function.update_apply] at hc
      split_ifs at hc with e
      · subst e
        cases hc
        exact ⟨sid, { s with forkedProcesId := pid, pc := .pidfdOpen },
          by rw [hs, Function.update_self, hact.forks heff], rfl, rfl, rfl⟩
      · exact hold hc fun pid'' e' => by rw [heff] at e'; cases e'
    · rw [hch, Function.update_apply] at hc
      split_ifs at hc with e
      exact hold hc fun pid'' e' => by
        rw [heff] at e'
        cases e'
        exact fun e'' => e e''.symm

/-- **No child outlives its session.** In every run in which no session gives its child up: as long
as a child has not been reaped, the call of `echo_loop` that forked it has not completed. -/
theorem child_reaped {S : State}
    (h : Lts.Reach State.step (fun S l => S.abandons l = false) State.start S)
    (pid : Pid) (c : Child)
    (hc : S.co.procs.children pid = some c) :
    ∃ sid s, S.co.sessions sid = some s ∧ s.frame = c.frame ∧ ∀ t, s.pc ≠ .done t := by
  have hatt : Attended S.co := by
    refine h.inv_of (J := fun S => Frames S.co) (I := fun S => Attended S.co)
      (fun _ => frames_reach) ?_ ?_
    · intro pid c hc
      cases hc
    · intro S l S' hfr _ hi hl hst
      refine hi.step hfr (State.evolves hst) ?_
      rintro sid via s c hrun hsid rfl
      simpa [State.abandons, hrun, hsid] using hl
  obtain ⟨sid, s, hsid, hframe, -, hf⟩ := hatt pid c hc
  refine ⟨sid, s, hsid, hframe, fun t e => ?_⟩
  rw [e] at hf
  cases hf

/-- While the session waits for the output of its child, the child is there. -/
theorem child_reaped_reader : ∃ (S : State) (c : Child), S.co.procs.children 100 = some c ∧
    ∃ sid s, S.co.sessions sid = some s ∧ s.frame = c.frame ∧ ∀ t, s.pc ≠ .done t := by
  obtain ⟨S, h, hp⟩ := Lts.exists_reach State.step (fun S l => S.abandons l = false) State.start
    readRun (fun S l => !S.abandons l) (fun S l hl => by simpa using hl)
    (fun S => (S.co.procs.children 100).isSome) (by decide)
  obtain ⟨c, hc⟩ := Option.isSome_iff_exists.1 hp
  exact ⟨S, c, hc, child_reaped h 100 c hc⟩

/-- A zombie: `pidfd_open` fails after the `fork`, and `echo_loop` completes without `waitpid`. -/
theorem child_not_reaped :
    ¬ ∀ S : State, Lts.Reach State.step (fun _ _ => True) State.start S →
      ∀ pid c, S.co.procs.children pid = some c →
        ∃ sid s, S.co.sessions sid = some s ∧ s.frame = c.frame ∧ ∀ t, s.pc ≠ .done t := by
  intro hall
  obtain ⟨S, h, hp⟩ := Lts.exists_reach State.step (fun _ _ => True) State.start
    (listenRun ++ connectRun 2 4 ++ flushRun 2 ++
      [.epollWait [(4, EPOLLIN)], .next, .co (.sys (.bytes [97] [])), .co (.pipe 5 6),
        .co (.pipe 7 8), .co (.object 3 true), .co (.object 4 true), .co (.forked 100),
        .co .failed, .co .go, .co .go, .co .go])
    (fun _ _ => true) (fun _ _ _ => trivial)
    (fun S => decide ((∃ c ∈ S.co.procs.children 100, c.frame = 0) ∧
      ∃ s ∈ S.co.sessions 0, s.frame = 0 ∧ s.pc = .done false)) (by decide)
  obtain ⟨⟨c, hc, hc0⟩, s, hs, hs0, hpc⟩ := of_decide_eq_true hp
  obtain ⟨sid, t, ht, hframe, hrun⟩ := hall S h 100 c hc
  have hsid := (frames_reach h).inj sid 0 t s ht hs (by rw [hframe, hc0, hs0])
  subst hsid
  rw [Option.mem_def.1 hs] at ht
  cases ht
  exact hrun false hpc

end EpollCoroutine
