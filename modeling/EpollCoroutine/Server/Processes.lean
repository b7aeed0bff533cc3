import EpollCoroutine.Lib.Accounts
import EpollCoroutine.Server.Descriptors

/-!
# Who waits for which process

A child process exists from the `fork` to the `waitpid` that reaps it. The session that has forked
it has its process id meanwhile, unless it gives it up (`Session.abandons`).

* `Coros.pids`: the children that a session has to wait for.
* `Session.StepCase.pids_turnover`: what a step of a session does to them.
* `children_kept`: in runs in which no session gives its child up, the children and the sessions
  between `fork` and `waitpid` correspond to each other.
* `child_orphaned`: a child that is given up stays for ever, and no session ever has it.
-/

namespace EpollCoroutine

open Accounts

/-- The process is a child of the server that has not been reaped. -/
def Coros.IsChild (co : Coros) (pid : Pid) : Prop := (co.procs.children pid).isSome

/-- The child that a session has to wait for. -/
def Session.pids (s : Session) : Multiset Pid := if s.pc.forked then {s.forkedProcesId} else 0

/-- The children that the session `sid` has to wait for. -/
def Coros.pids (co : Coros) (sid : ℕ) : Multiset Pid := (co.sessions sid).elim 0 Session.pids

section Steps

variable {w : World Handle} {co co' : Coros} {l : Label Choice} {sid fresh : ℕ} {s s' : Session}
  {c : Choice} {act : Act}

theorem Session.pids_of_forked (h : s.pc.forked) : s.pids = {s.forkedProcesId} := if_pos h

theorem Session.pids_of_not_forked (h : s.pc.forked = false) : s.pids = 0 := by
  simp [pids, h]

/-- Nothing has been read: the read loop throws. -/
theorem Session.complete_readsNothing {r : Sys} (h : s.readsNothing r) (d : Bool) :
    (s.complete .readpipe r d).pc = .cleanup true := by
  have hread : ∀ (q : ReadResult) (after : Bytes),
      s.vars.merged ++ cstr (filled q.content ++ after) = [] →
      (s.afterRead q after d).pc = .cleanup true := by
    intro q after hnil
    unfold afterRead EchoVars.readBody
    simp [hnil]
  cases r with
  | bytes l after =>
    exact hread (.bytes l) after (by simpa [readsNothing, ReadResult.content] using h)
  | _ =>
    refine hread .failed [] ?_
    have hmerged : s.vars.merged = [] := by simpa [readsNothing] using h
    rw [hmerged]
    rfl

/-- A session that gives its child up has one. -/
theorem Session.forked_of_abandons (h : s.abandons w c) : s.pc.forked := by
  unfold abandons at h
  split at h
  case h_6 => cases h
  all_goals
    rename_i hpc
    rw [hpc]
    rfl

/-- Afterwards it has none, and the child was not reaped. -/
theorem Session.StepCase.gives_up (h : StepCase w sid fresh s c act) (hab : s.abandons w c)
    (hlive : act.after ≠ .exited) :
    (∀ pid, act.effect ≠ .reaped pid) ∧
      ∀ s', act.after.next s = some s' → s'.pc.forked = false := by
  cases h with
  | @value o p r hpc hp ha hr =>
    cases o with
    | readpipe =>
      have hnothing : s.readsNothing r := by simpa [abandons, hpc, hr] using hab
      refine ⟨fun pid e => (by cases e), ?_⟩
      rintro s' ⟨⟩
      rw [complete_readsNothing hnothing]
      rfl
    | recv | writepipe | send | whaitforprocesstodie => simp [abandons, hpc] at hab
  | @block o p r hpc hp ha hr =>
    cases o <;> simp [abandons, hpc, hr] at hab
  | @retry o p r hpc hp ha =>
    cases o with
    | readpipe =>
      have hnothing : s.readsNothing r := by simpa [abandons, hpc] using hab
      refine ⟨fun pid e => (by cases e), ?_⟩
      rintro s' ⟨⟩
      rw [complete_readsNothing hnothing]
      rfl
    | whaitforprocesstodie =>
      have hr : r.completes = false := by simpa [abandons, hpc] using hab
      refine ⟨fun pid => by simp [opEffect, hr], ?_⟩
      rintro s' ⟨⟩
      rfl
    | recv | writepipe | send => simp [abandons, hpc] at hab
  | pidfdFail hpc =>
    refine ⟨fun pid e => (by cases e), ?_⟩
    rintro s' ⟨⟩
    rfl
  | @attachPw fd p ok hpc =>
    have hadd : w.addSucceeds fd ok = false := by simpa [abandons, hpc] using hab
    refine ⟨fun pid e => (by cases e), ?_⟩
    rintro s' ⟨⟩
    simp [hadd, Pc.forked]
  | error => exact absurd rfl hlive
  | pipeW hpc | pipeWFail hpc | pipeR hpc | pipeRFail hpc | attachRd hpc | attachWr hpc | fork hpc
  | forkFail hpc | pidfdOpen hpc | closeEnds hpc | finishwriting hpc | finishReading hpc
  | cleanup hpc | cleaned hpc | close hpc | again hpc => simp [abandons, hpc] at hab

/-- What a step of a session does to its child. -/
theorem Session.StepCase.pids_turnover (h : StepCase w sid fresh s c act) {pr pr' : Procs}
    (hpr : pr.apply s w.table act.effect = some pr') :
    ∃ took gave lost : Multiset Pid,
      Turnover (fun pid => (pr.children pid).isSome) (fun pid => (pr'.children pid).isSome) s.pids
        ((act.after.next s).elim 0 pids) took gave lost ∧
      (s.abandons w c = false → lost = 0) ∧
      (s.abandons w c → act.after ≠ .exited → s.forkedProcesId ∈ lost) := by
  rcases Procs.apply_children hpr with ⟨hch, hno⟩ | ⟨pid, heff, hfree, hch⟩ | ⟨pid, heff, hch⟩
  · by_cases hafter : ∃ s', act.after.next s = some s' ∧ s'.pc.forked
    · -- the child stays with the session
      obtain ⟨s', hs', hf'⟩ := hafter
      have hkeep : s.pc.forked ∧ s'.forkedProcesId = s.forkedProcesId := by
        rcases (h.forked hs' hf').2 with ⟨-, e⟩ | ⟨hf, hpid, -⟩
        · exact absurd e (hno _).1
        · exact ⟨hf, hpid⟩
      refine ⟨0, 0, 0, .keeps ?_ fun x => by rw [hch], fun _ => rfl, fun hab hlive => ?_⟩
      · rw [hs', Option.elim_some, pids_of_forked hf', pids_of_forked hkeep.1, hkeep.2]
      · rw [(h.gives_up hab hlive).2 s' hs'] at hf'
        cases hf'
    · have hnone : (act.after.next s).elim 0 pids = 0 := by
        cases hs' : act.after.next s with
        | none => rfl
        | some s' =>
          refine pids_of_not_forked ?_
          by_contra hf'
          exact hafter ⟨s', hs', by simpa using hf'⟩
      by_cases hf : s.pc.forked
      · -- the child is given up
        refine ⟨0, 0, {s.forkedProcesId}, .loses ?_ fun x => by rw [hch], fun hab => ?_,
          fun _ _ => Multiset.mem_singleton_self _⟩
        · rw [hnone, pids_of_forked hf, zero_add]
        · obtain ⟨s', hs', -, -, hf'⟩ := h.keeps hab hf fun pid => (hno pid).2
          exact absurd ⟨s', hs', hf'⟩ hafter
      · refine ⟨0, 0, 0, .keeps ?_ fun x => by rw [hch], fun _ => rfl,
          fun hab _ => absurd (forked_of_abandons hab) hf⟩
        rw [hnone, pids_of_not_forked (by simpa using hf)]
  · -- `fork`
    have hpc : s.pc = .fork := by
      rcases h.effect with e | ⟨-, e⟩ | ⟨pid', hpc, -⟩ | ⟨-, e | e⟩
      · rw [heff] at e
        cases e
      · rw [heff] at e
        cases e
      · exact hpc
      · rw [heff] at e
        cases e
      · rw [heff] at e
        cases e
    refine ⟨{pid}, 0, 0, .takes (Multiset.nodup_singleton pid) ?_ ?_ fun x => ?_, fun _ => rfl,
      fun hab _ => ?_⟩
    · simp [hfree]
    · rw [h.forks heff, Option.elim_some, pids_of_forked rfl, pids_of_not_forked (by rw [hpc]; rfl),
        add_zero]
    · rw [hch, Function.update_apply, Multiset.mem_singleton]
      split_ifs with e <;> simp [e]
    · have hf := forked_of_abandons hab
      rw [hpc] at hf
      cases hf
  · -- `waitpid`
    obtain ⟨hf, rfl⟩ := h.reaps heff
    refine ⟨0, {s.forkedProcesId}, 0, .gives ?_ fun x => ?_, fun _ => rfl,
      fun hab hlive => absurd heff ((h.gives_up hab hlive).1 _)⟩
    · rw [pids_of_forked hf]
      cases hs' : act.after.next s with
      | none => rfl
      | some s' =>
        have hf' : s'.pc.forked = false := by
          by_contra hf'
          rcases (h.forked hs' (by simpa using hf')).2 with ⟨-, e⟩ | ⟨-, -, hno⟩
          · rw [heff] at e
            cases e
          · exact (hno _).1 heff
        rw [Option.elim_some, pids_of_not_forked hf', zero_add]
    · rw [hch, Function.update_apply, Multiset.mem_singleton]
      split_ifs with e <;> simp [e]

theorem Coros.pids_congr (h : ∀ sid, (co'.sessions sid).elim 0 Session.pids =
    (co.sessions sid).elim 0 Session.pids) : co'.pids = co.pids := by
  funext sid
  exact h sid

theorem Coros.pids_update {x : Option Session}
    (hs : co'.sessions = Function.update co.sessions sid x) :
    co'.pids = Function.update co.pids sid (x.elim 0 Session.pids) := by
  funext sid'
  rw [pids, hs, Function.update_apply, Function.update_apply]
  split_ifs
  · rfl
  · rfl

/-- What a step of the server does to the children of one session; the other sessions keep
theirs. -/
theorem Coros.Evolves.pids (h : co.Evolves w co' l) (hfr : Frames co) :
    ∃ (sid : ℕ) (l' took gave lost : Multiset Pid),
      Turnover co.IsChild co'.IsChild (co.pids sid) l' took gave lost ∧
      co'.pids = Function.update co.pids sid l' ∧
      ((∀ sid via s c, co.running = .session sid via → co.sessions sid = some s → l = .co c →
        s.abandons w c = false) → lost = 0) := by
  -- nobody's children change
  have hsame : co'.pids = co.pids → (∀ pid, co'.IsChild pid ↔ co.IsChild pid) →
      ∃ (sid : ℕ) (l' took gave lost : Multiset Pid),
        Turnover co.IsChild co'.IsChild (co.pids sid) l' took gave lost ∧
        co'.pids = Function.update co.pids sid l' ∧
        ((∀ sid via s c, co.running = .session sid via → co.sessions sid = some s → l = .co c →
          s.abandons w c = false) → lost = 0) := fun hp hch =>
    ⟨0, co.pids 0, 0, 0, 0, .keeps rfl hch, by rw [hp, Function.update_eq_self], fun _ => rfl⟩
  cases h with
  | stays hs _ hp =>
    refine hsame (pids_congr fun sid => by rw [hs]) fun pid => ?_
    rw [IsChild, hp]
    rfl
  | child hs _ hp =>
    refine hsame (pids_congr fun sid => by rw [hs]) fun pid => ?_
    have hframe := congrArg Option.isSome ((Procs.childStep_frame hp).2.2 pid)
    rw [Option.isSome_map, Option.isSome_map] at hframe
    rw [IsChild, IsChild, hframe]
  | @starts _ p hs _ hp =>
    have hnone : co.sessions co.nextFrame = none :=
      Coros.sessions_nextFrame fun sid s hs' => (hfr.le sid s hs').trans_lt (hfr.lt sid s hs')
    refine hsame ?_ fun pid => by rw [IsChild, hp]; rfl
    rw [pids_update hs]
    have hstart : co.pids co.nextFrame = 0 := by rw [Coros.pids, hnone]; rfl
    rw [Option.elim_some, Session.pids_of_not_forked rfl, ← hstart, Function.update_eq_self]
  | @resumes _ sid s o hsid hpc hs _ hp =>
    refine hsame ?_ fun pid => by rw [IsChild, hp]; rfl
    rw [pids_update hs]
    have hold : co.pids sid = s.pids := by rw [Coros.pids, hsid]; rfl
    have hnew : ({ s with pc := .retry o } : Session).pids = s.pids := by
      rw [Session.pids, Session.pids, hpc]
      rfl
    rw [Option.elim_some, hnew, ← hold, Function.update_eq_self]
  | @moves sid via s c act hrun hsid hact hs _ _ hp =>
    obtain ⟨took, gave, lost, ht, hzero, -⟩ := hact.pids_turnover hp
    have hold : co.pids sid = s.pids := by rw [Coros.pids, hsid]; rfl
    refine ⟨sid, (act.after.next s).elim 0 Session.pids, took, gave, lost, hold ▸ ht,
      pids_update hs, fun hab => ?_⟩
    exact hzero (hab sid via s c hrun hsid rfl)

end Steps

/-! ### All children -/

/-- No child belongs to two sessions, and who has one can wait for it, whatever the system calls
do. -/
theorem pids_exclusive {ok : State → Label Choice → Prop} {S : State}
    (h : Lts.Reach State.step ok State.start S) : Exclusive S.co.pids S.co.IsChild := by
  refine h.inv_of (J := fun S => Frames S.co) (I := fun S => Exclusive S.co.pids S.co.IsChild)
    (fun _ => frames_reach) ⟨fun sid => Multiset.nodup_zero, fun sid sid' _ => ?_, ?_⟩ ?_
  · exact Multiset.disjoint_left.2 fun hx => absurd hx (Multiset.notMem_zero _)
  · exact fun sid x hx => absurd hx (Multiset.notMem_zero x)
  · intro S l S' hfr _ hi _ hst
    obtain ⟨sid, l', took, gave, lost, ht, hpids, -⟩ := (State.evolves hst).pids hfr
    rw [hpids]
    exact hi.turnover ht

/-- As long as no session gives its child up, every child belongs to a session. -/
theorem pids_covered {S : State}
    (h : Lts.Reach State.step (fun S l => S.abandons l = false) State.start S) :
    Covered S.co.pids S.co.IsChild := by
  refine h.inv_of (J := fun S => Frames S.co) (I := fun S => Covered S.co.pids S.co.IsChild)
    (fun _ => frames_reach) (fun pid hpid => by cases hpid) ?_
  intro S l S' hfr _ hi hl hst
  obtain ⟨sid, l', took, gave, lost, ht, hpids, hlost⟩ := (State.evolves hst).pids hfr
  have hzero : lost = 0 := by
    refine hlost ?_
    rintro sid via s c hrun hsid rfl
    simpa [State.abandons, hrun, hsid] using hl
  subst hzero
  rw [hpids]
  exact hi.turnover ht

/-- **Children and sessions correspond.** In every run in which no session gives its child up, in
every state: a process is a child that has not been reaped exactly if a session has to wait for it;
no two sessions have to wait for the same one; and there are no more children than connections. -/
theorem children_kept {S : State}
    (h : Lts.Reach State.step (fun S l => S.abandons l = false) State.start S) :
    (∀ pid, S.co.IsChild pid ↔ ∃ sid, pid ∈ S.co.pids sid) ∧
      (∀ sid sid' pid, pid ∈ S.co.pids sid → pid ∈ S.co.pids sid' → sid = sid') ∧
      {pid | S.co.IsChild pid}.ncard ≤ S.co.served.ncard := by
  have hex := pids_exclusive h
  have hcov := pids_covered h
  refine ⟨fun pid => ⟨hcov pid, ?_⟩, fun sid sid' pid => hex.unique, ?_⟩
  · rintro ⟨sid, hpid⟩
    exact hex.live sid pid hpid
  · rw [Coros.served_eq (objectsOk_reach h).fresh, Set.ncard_coe_finset]
    set t := (Finset.range S.co.nextFrame).filter fun sid => (S.co.sessions sid).isSome with ht
    have hrest : ∀ sid, sid ∉ t → S.co.pids sid = 0 := by
      intro sid hsid
      cases hs : S.co.sessions sid with
      | none => rw [Coros.pids, hs]; rfl
      | some s => simp [ht, hs, (objectsOk_reach h).fresh sid s hs] at hsid
    have hone : ∀ sid ∈ t, (S.co.pids sid).card ≤ 1 := by
      intro sid _
      rw [Coros.pids]
      cases S.co.sessions sid with
      | none => exact Nat.zero_le _
      | some s =>
        rw [Option.elim_some, Session.pids]
        split_ifs <;> simp
    rw [hex.ncard hcov t hrest]
    simpa using Finset.sum_le_card_nsmul t _ 1 hone

/-- The session that waits for the output of its child. -/
theorem children_kept_reader : ∃ S : State, S.co.IsChild 100 ∧ (∃ sid, 100 ∈ S.co.pids sid) ∧
    {pid | S.co.IsChild pid}.ncard ≤ S.co.served.ncard := by
  obtain ⟨S, h, hp⟩ := Lts.exists_reach State.step (fun S l => S.abandons l = false) State.start
    readRun (fun S l => !S.abandons l) (fun S l hl => by simpa using hl)
    (fun S => (S.co.procs.children 100).isSome) (by decide)
  exact ⟨S, hp, ((children_kept h).1 100).1 hp, (children_kept h).2.2⟩

/-- **A child that is given up is nobody's for ever.** In every run, whatever the system calls do: a
step in which a session gives its child up leaves a process that has not been reaped, and in every
state after it, until the process exits, it has still not been reaped and no session has it, so that
nobody can wait for it or kill it. -/
theorem child_orphaned {S S' : State} {l : Label Choice}
    (h : Lts.Reach State.step (fun _ _ => True) State.start S) (hl : S.abandons l = true)
    (hs : S.step l = some S') :
    ∃ sid s, S.co.sessions sid = some s ∧ s.forkedProcesId ∈ S.co.pids sid ∧ ∀ T : State,
      Lts.Reach State.step (fun _ _ => True) S' T → T.ctl ≠ .exited →
        T.co.IsChild s.forkedProcesId ∧ ∀ sid', s.forkedProcesId ∉ T.co.pids sid' := by
  obtain ⟨c, k, m, w', hctl, hm, hw, rfl, rfl⟩ : ∃ c k m w', S.ctl = .coro k ∧
      S.co.step c S.w = some m ∧ Call.applyAll m.calls S.w = some w' ∧ l = .co c ∧
      S' = ⟨w', m.status.control k, m.next⟩ := by
    cases Server.step_cases hs with
    | @co k c m w' hctl hm hw hS => exact ⟨c, k, m, w', hctl, hm, hw, rfl, hS⟩
    | _ => simp [State.abandons] at hl
  have hfr' : Frames m.next := (frames_reach h).step (State.evolves hs)
  cases Coros.step_cases hm with
  | boot hrun | bootFail hrun | acceptOk hrun | acceptBlock hrun | acceptFail hrun | retryOk hrun
  | retryFail hrun | made hrun => simp [State.abandons, hrun] at hl
  | @session sid via s _ act pr hrun hsid hact hpr =>
    have hab : s.abandons S.w c := by simpa [State.abandons, hrun, hsid] using hl
    have hold : S.co.pids sid = s.pids := by rw [Coros.pids, hsid]; rfl
    have hmem : s.forkedProcesId ∈ S.co.pids sid := by
      rw [hold, Session.pids_of_forked (Session.forked_of_abandons hab)]
      exact Multiset.mem_singleton_self _
    obtain ⟨took, gave, lost, ht, -, hlost⟩ := hact.pids_turnover hpr
    refine ⟨sid, s, hsid, hmem, fun T hT hlive => ?_⟩
    refine hT.inv (I := fun T => Frames T.co ∧
      (T.ctl ≠ .exited → Orphan T.co.pids T.co.IsChild s.forkedProcesId))
      ⟨hfr', fun hlive' => ?_⟩ ?_ |>.2 hlive
    · have hafter : act.after ≠ .exited := by
        intro e
        refine hlive' (Status.control_eq_exited.2 ?_)
        simp only [e]
        rfl
      have horphan := (hold ▸ ht).orphan (pids_exclusive h) (hlost hab hafter)
      have hpids : ({ S.co.settle sid via act.after with procs := pr } : Coros).pids =
          Function.update S.co.pids sid ((act.after.next s).elim 0 Session.pids) :=
        Coros.pids_update (Coros.settle_sessions hsid via act.after)
      rw [← hpids] at horphan
      exact horphan
    · rintro T l T' ⟨hfr, hi⟩ - hst
      obtain ⟨sid', l', took', gave', lost', ht', hpids, -⟩ := (State.evolves hst).pids hfr
      refine ⟨hfr.step (State.evolves hst), fun hlive' => ?_⟩
      rw [hpids]
      exact (hi fun e => hlive' (State.exited_step e hst)).turnover ht'

/-- `pidfd_open` fails for the child of the only session: a zombie. -/
theorem child_orphaned_pidfd : ∃ S S' : State, S.step (.co .failed) = some S' ∧
    ∃ pid, ∀ T : State, Lts.Reach State.step (fun _ _ => True) S' T → T.ctl ≠ .exited →
      T.co.IsChild pid := by
  obtain ⟨S, h, hp⟩ := Lts.exists_reach State.step (fun _ _ => True) State.start
    (listenRun ++ connectRun 2 4 ++ flushRun 2 ++
      [.epollWait [(4, EPOLLIN)], .next, .co (.sys (.bytes [97] []))] ++ (spawnRun 3 5 100).take 5)
    (fun _ _ => true) (fun _ _ _ => trivial)
    (fun S => S.abandons (.co .failed) && (S.step (.co .failed)).isSome) (by decide)
  rw [Bool.and_eq_true] at hp
  obtain ⟨S', hs⟩ := Option.isSome_iff_exists.1 hp.2
  obtain ⟨sid, s, -, -, hever⟩ := child_orphaned h hp.1 hs
  exact ⟨S, S', hs, s.forkedProcesId, fun T hT hlive => (hever T hT hlive).1⟩

end EpollCoroutine
