import EpollCoroutine.Server.Children
import EpollCoroutine.Server.Sync

/-!
# End of input

The child sees the end of its input when nobody holds the write end of its standard input any more.
No descriptor is close-on-exec, so every child gets a copy of whatever the server has open at the
`fork`. What makes this harmless is that a session does not suspend between `pipe` and
`finishwriting`, as long as `writepipe` does not block.

* `State.writeBlocks`: a `writepipe` would block.
* `PipesOk`: the server holds a write end only while its session runs, and a child holds one only
  until its first action, which closes it.
* `write_end_closed`: after `finishwriting` nobody holds the write end.
-/

namespace EpollCoroutine

/-- The write end of the pipe to the standard input of the child of the call `n` of `echo_loop`. -/
abbrev writeEndOf (n : ℕ) : File := .pipeEnd (wPipe n) .write

/-- The running session gets a would-block from `writepipe`. -/
def State.writeBlocks (S : State) : Label Choice → Bool
  | .co (.sys .wouldBlock) => decide (S.co.runningPc = some (.call .writepipe))
  | _ => false

/-- The write end has been created and is not yet in an object. -/
def Pc.beforeAttach : Pc → Bool
  | .pipeR | .attachRd | .attachWr => true
  | _ => false

/-- The places after `finishwriting`. -/
def Pc.written : Pc → Bool
  | .call o | .susp o | .retry o => decide (o ≠ .recv ∧ o ≠ .writepipe)
  | .finishReading | .cleanup _ | .done _ => true
  | _ => false

/-- A session has the write end of its pipe. -/
def Session.Writing (s : Session) : Prop := s.pc.beforeAttach ∨ ∃ p, s.ptr .writeEnd = some p

/-- The object at `writeEnd` has the write end that `pipe` has returned. -/
def WriteFds (w : World Handle) (co : Coros) : Prop :=
  ∀ sid s p a, co.sessions sid = some s → s.ptr .writeEnd = some p → w.heap p = some a →
    a.fd = s.mFdW.2

/-- No session waits in `writepipe`. -/
def WritesAtOnce (co : Coros) : Prop :=
  ∀ sid s, co.sessions sid = some s → s.pc ≠ .susp .writepipe ∧ s.pc ≠ .retry .writepipe

/-- The server holds a write end only while its session runs. -/
def ServerEnds (w : World Handle) (co : Coros) : Prop :=
  ∀ fd n, w.table fd = some (writeEndOf n) → ∃ sid via s, co.running = .session sid via ∧
    co.sessions sid = some s ∧ s.frame = n ∧ fd = s.mFdW.2 ∧ s.Writing

/-- A child holds at most its own write end, and closes it first. -/
def ChildEnds (co : Coros) : Prop :=
  ∀ pid c fd n, co.procs.children pid = some c → c.table fd = some (writeEndOf n) →
    n = c.frame ∧ ∃ rest, c.todo = .close fd :: rest

/-- A session for which `finishwriting` has returned has no write end. -/
def FinishedEnds (co : Coros) : Prop :=
  ∀ n ∈ co.procs.finished, n < co.nextFrame ∧
    ∀ sid s, co.sessions sid = some s → s.frame = n → s.pc.written ∧ s.ptr .writeEnd = none

/-- Who holds write ends. -/
structure PipesOk (S : State) : Prop where
  threads : ThreadsOk S
  synced : S.ctl ≠ .exited → Synced S
  frames : Frames S.co
  fds : WriteFds S.w S.co
  atOnce : WritesAtOnce S.co
  server : ServerEnds S.w S.co
  child : ChildEnds S.co
  finished : FinishedEnds S.co

/-! ### Descriptor tables -/

section Tables

variable {w w' : World Handle} {fd : Fd} {f : File}

theorem World.attachLogged_table (m : Mask) (p : Addr) (ok : Bool) :
    (w.attachLogged m p ok).table = w.table := by
  unfold World.attachLogged
  split
  · rfl
  · exact World.epollAdd_table m p _ ok

/-- Only `open`ing calls make entries. -/
theorem Call.apply_table {c : Call Handle} (h : (c.apply w).table fd = some f) :
    w.table fd = some f ∨ c = .openFd fd f := by
  cases c with
  | create | watch | unwatch | suspend => exact Or.inl h
  | attach p ok | attachWriteOnly p ok => exact Or.inl (World.attachLogged_table _ p ok ▸ h)
  | attachReadonly p ok =>
    simp only [Call.apply, World.attachReadonly] at h
    split_ifs at h
    · exact Or.inl (World.attachLogged_table _ p ok ▸ h)
    · exact Or.inl h
  | destroy p =>
    simp only [Call.apply, World.destroy] at h
    split at h
    · exact Or.inl h
    · split_ifs at h
      · exact Or.inl h
      · simp only [World.free, World.closeFd, World.detach, Function.update_apply] at h
        split_ifs at h
        exact Or.inl h
  | openFd fd' f' =>
    simp only [Call.apply, World.openFd, Function.update_apply] at h
    split_ifs at h with e
    · cases h
      exact Or.inr (by rw [e])
    · exact Or.inl h
  | closeFd fd' =>
    simp only [Call.apply, World.closeFd, Function.update_apply] at h
    split_ifs at h
    exact Or.inl h

theorem Call.applyAll_table {cs : List (Call Handle)} (hw : Call.applyAll cs w = some w')
    (h : w'.table fd = some f) : w.table fd = some f ∨ .openFd fd f ∈ cs := by
  induction cs generalizing w with
  | nil => cases hw; exact Or.inl h
  | cons c cs ih =>
    rw [Call.applyAll_cons_iff] at hw
    rcases ih hw.2 with h | hmem
    · rcases Call.apply_table h with h | rfl
      · exact Or.inl h
      · exact Or.inr List.mem_cons_self
    · exact Or.inr (List.mem_cons_of_mem _ hmem)

theorem World.flushOne_table (p : Addr) (a : AsyncFd Handle) (ok : Bool) :
    (w.flushOne p a ok).table = w.table := by
  unfold World.flushOne
  split_ifs <;> rfl

end Tables

/-! ### One session -/

namespace Session

variable {w w' : World Handle} {sid fresh : ℕ} {s s' : Session} {c : Choice} {act : Act} {fd : Fd}
  {f : File}

/-- An object keeps its descriptor. -/
theorem Moves.heap_fd {after : After} (hm : Moves w w' sid fresh s c after) {q : Addr}
    {a b : AsyncFd Handle} (ha : w.heap q = some a) (hb : w'.heap q = some b) : b.fd = a.fd := by
  cases hm with
  | raw hw | again hw =>
    rw [hw.heap, ha] at hb
    cases hb
    rfl
  | completes _ _ ha' _ hw | suspends _ _ ha' _ hw | exits _ _ ha' hw =>
    rcases hw.toSets.heap_cases hb with ⟨rfl, rfl⟩ | ⟨-, hb⟩
    · rw [ha] at ha'
      cases ha'
      simp
    · rw [ha] at hb
      cases hb
      rfl
  | attaches _ _ _ hw =>
    have hb' := (hw.frame ha).1.symm.trans hb
    cases hb'
    rfl
  | drops _ _ hw | closes _ _ hw =>
    have hb' := (hw.heap_cases hb).2.symm.trans ha
    cases hb'
    rfl

/-- Who opens write ends. -/
theorem StepCase.opens (h : StepCase w sid fresh s c act) {n : ℕ}
    (hmem : .openFd fd (writeEndOf n) ∈ act.calls) :
    n = s.frame ∧ ∃ r, act.after = .running { s with mFdW := (r, fd), pc := .pipeR } := by
  have hwatch : ∀ (o : Op) (p : Addr) (l : List (Call Handle)), .openFd fd (writeEndOf n) ∈ watchCalls o p ++ l →
      .openFd fd (writeEndOf n) ∈ l := by
    intro o p l hm
    rcases List.mem_append.1 hm with hm | hm
    · unfold watchCalls at hm
      split_ifs at hm <;> simp at hm
    · exact hm
  cases h with
  | value | block => have := hwatch _ _ _ hmem; simp at this
  | error => have := hwatch _ _ [] (by simpa using hmem); simp at this
  | pipeW =>
    simp only [List.mem_cons, Call.openFd.injEq, File.pipeEnd.injEq, reduceCtorEq, and_false,
      false_or, List.not_mem_nil, or_false, and_true] at hmem
    obtain ⟨rfl, hn⟩ := hmem
    refine ⟨?_, _, rfl⟩
    simp only [wPipe] at hn
    omega
  | pipeR =>
    simp only [List.mem_cons, Call.openFd.injEq, File.pipeEnd.injEq, reduceCtorEq, and_false,
      false_or, List.not_mem_nil, or_false, and_true] at hmem
    have := hmem.2
    simp only [wPipe, rPipe] at this
    omega
  | _ => simp at hmem

/-- The operations during which a session has a write end. -/
theorem Writing.pc (h : s.Writing) (hshape : s.Shape) : s.pc.beforeAttach ∨ s.pc.holds .writeEnd :=
  h.imp_right fun ⟨p, hp⟩ => hshape.holds _ p hp

/-- A step after which the write end is still open. -/
theorem StepCase.writing (h : StepCase w sid fresh s c act)
    (hw : Call.applyAll act.calls w = some w')
    (hok : s.Ok w) (hraw : w.Raw s.rawFds)
    (hfds : ∀ p a, s.ptr .writeEnd = some p → w.heap p = some a → a.fd = s.mFdW.2)
    (honce : s.pc ≠ .susp .writepipe ∧ s.pc ≠ .retry .writepipe)
    (hblock : s.pc = .call .writepipe → c ≠ .sys .wouldBlock)
    (hobj : ∀ p ok, c = .object p ok → ok = true) (hwr : s.Writing)
    (htab : w'.table s.mFdW.2 = some f) :
    ∃ s', (act.after = .running s' ∨ act.after = .exited ∧ s' = s) ∧ s'.frame = s.frame ∧
      s'.mFdW = s.mFdW ∧ s'.Writing := by
  have hpcs := hwr.pc hok.shape
  -- the object with the write end is destroyed
  have hdrop : ∀ {p a}, s.ptr .writeEnd = some p → w.Drops w' p a → False := by
    intro p a hp hd
    rw [hd.table, hfds p a hp hd.live, Function.update_self] at htab
    cases htab
  have hvalid : ∀ {r p a}, r ≠ .socket → s.ptr r = some p → w.heap p = some a → a.fd ≠ -1 :=
    fun hr hp ha e => hr (hok.valid _ _ _ hp ha e).1
  -- the only operation that is called with the write end open
  have hcall : ∀ {o}, s.pc = .call o → o = .writepipe := by
    intro o hpc
    rw [hpc] at hpcs
    cases o <;> simp_all [Pc.beforeAttach, Pc.holds, Op.holds]
  cases h with
  | @value o p r hpc hp ha hr =>
    cases hcall hpc
    exact ⟨_, Or.inl rfl, rfl, rfl, Or.inr ⟨p, hp⟩⟩
  | @block o p r hpc hp ha hr hb =>
    cases hcall hpc
    simp only [Op.blocks, decide_eq_true_eq] at hb
    exact absurd (by rw [hb]) (hblock hpc)
  | error => exact ⟨s, Or.inr ⟨rfl, rfl⟩, rfl, rfl, hwr⟩
  | @retry o p r hpc =>
    rw [hpc] at hpcs honce
    cases o <;> simp_all [Pc.beforeAttach, Pc.holds, Op.holds]
  | pipeR => exact ⟨_, Or.inl rfl, rfl, rfl, Or.inl rfl⟩
  | @attachWr p ok => exact ⟨_, Or.inl rfl, rfl, rfl, Or.inr ⟨p, by simp [setPtr]⟩⟩
  | pipeRFail =>
    simp only [Call.applyAll_cons_iff, Call.applyAll_nil, Option.some.injEq, Call.apply] at hw
    obtain ⟨-, -, rfl⟩ := hw
    simp [World.closeFd, Function.update_apply] at htab
  | @attachRd p ok hpc =>
    have hadd : w.addSucceeds s.mFdR.1 ok = true := by
      rw [hraw.addSucceeds (by simp [rawFds, hpc])]
      exact hobj p ok rfl
    exact ⟨_, Or.inl rfl, rfl, rfl, Or.inl (by simp [hadd, Pc.beforeAttach])⟩
  | fork hpc | forkFail hpc | pidfdOpen hpc | pidfdFail hpc | closeEnds hpc =>
    rcases hwr with hwr | hwr
    · rw [hpc] at hwr
      cases hwr
    · exact ⟨_, Or.inl rfl, rfl, rfl, Or.inr hwr⟩
  | attachPw hpc =>
    rcases hwr with hwr | ⟨p, hp⟩
    · rw [hpc] at hwr
      cases hwr
    · exact ⟨_, Or.inl rfl, rfl, rfl, Or.inr ⟨p, by simpa [setPtr] using hp⟩⟩
  | finishwriting hpc hp =>
    obtain ⟨a, ha⟩ := live_of_calls (Or.inr hw)
    exact (hdrop hp (drops_of_finish ha (hvalid (by simp) hp ha) hw)).elim
  | @cleanup t r p hpc hr hp =>
    rcases hwr with hwr | ⟨q, hq⟩
    · rw [hpc] at hwr
      cases hwr
    · by_cases e : r = .writeEnd
      · subst e
        obtain ⟨a, ha⟩ := live_of_calls (d := .write) (Or.inl hw)
        exact (hdrop hp (drops_of_destroy ha (hvalid hr hp ha) hw)).elim
      · exact ⟨_, Or.inl rfl, rfl, rfl, Or.inr ⟨q, by simpa [setPtr, Function.update_of_ne (Ne.symm e)] using hq⟩⟩
  | cleaned hpc hnone =>
    rcases hwr with hwr | ⟨q, hq⟩
    · rw [hpc] at hwr
      cases hwr
    · rw [hnone _ (by simp)] at hq
      cases hq
  | pipeW hpc | pipeWFail hpc | finishReading hpc | close hpc | again hpc =>
    rw [hpc] at hpcs
    simp [Pc.beforeAttach, Pc.holds] at hpcs

/-- A session that has finished writing does not write again in this call of `echo_loop`. -/
theorem StepCase.written (h : StepCase w sid fresh s c act) (hs' : act.after.next s = some s')
    (hwr : s.pc.written) (hnone : s.ptr .writeEnd = none) (hframe : s'.frame ≠ fresh) :
    s'.pc.written ∧ s'.ptr .writeEnd = none := by
  have hop : ∀ {o r dr}, (s.pc = .call o ∨ s.pc = .retry o) →
      (s.complete o r dr).pc.written ∧ (s.complete o r dr).ptr .writeEnd = none := by
    intro o r dr hpc
    refine ⟨?_, by rw [(complete_rest s o r dr).1]; exact hnone⟩
    rcases complete_pc s o r dr with ⟨rfl, -⟩ | ⟨rfl, -⟩ | ⟨rfl, e | e | e⟩ | ⟨rfl, e | e⟩ |
      ⟨rfl, e⟩ <;> first | (rw [e]; rfl) | (rcases hpc with hpc | hpc <;> rw [hpc] at hwr <;> cases hwr)
  cases h with
  | value hpc => cases hs'; exact hop (Or.inl hpc)
  | retry hpc => cases hs'; exact hop (Or.inr hpc)
  | block hpc => cases hs'; exact ⟨by rw [hpc] at hwr; exact hwr, hnone⟩
  | error => cases hs'; exact ⟨hwr, hnone⟩
  | finishReading hpc =>
    cases hs'
    refine ⟨?_, by simpa [sendHead, setPtr] using hnone⟩
    rcases sendHead_pc { s.setPtr .readEnd none with vars := s.vars.stripFirstLine } with e | e <;>
      rw [e] <;> rfl
  | @cleanup t r p hpc =>
    cases hs'
    refine ⟨hwr, ?_⟩
    simp only [setPtr, Function.update_apply]
    split_ifs
    · rfl
    · exact hnone
  | cleaned hpc => cases hs'; exact ⟨rfl, hnone⟩
  | close => cases hs'
  | again => cases hs'; exact absurd rfl hframe
  | pipeW hpc | pipeWFail hpc | pipeR hpc | pipeRFail hpc | attachRd hpc | attachWr hpc | fork hpc
  | forkFail hpc | pidfdOpen hpc | pidfdFail hpc | attachPw hpc | closeEnds hpc | finishwriting hpc =>
    rw [hpc] at hwr
    cases hwr

/-- The descriptor of the object with the write end. -/
theorem StepCase.writeFd (h : StepCase w sid fresh s c act)
    (hw : Call.applyAll act.calls w = some w') (hm : Moves w w' sid fresh s c act.after)
    (hshape : s.Shape) (hlive : ∀ p, s.ptr .writeEnd = some p → ∃ a, w.heap p = some a)
    (hfds : ∀ p a, s.ptr .writeEnd = some p → w.heap p = some a → a.fd = s.mFdW.2)
    (hs' : act.after.next s = some s') {p : Addr} {b : AsyncFd Handle}
    (hp : s'.ptr .writeEnd = some p)
    (hb : w'.heap p = some b) : b.fd = s'.mFdW.2 := by
  -- an object that was there before
  have hold : s.ptr .writeEnd = some p → s'.mFdW = s.mFdW → b.fd = s'.mFdW.2 := by
    intro hp hfd
    obtain ⟨a, ha⟩ := hlive p hp
    rw [hfd, ← hfds p a hp ha]
    exact hm.heap_fd ha hb
  have hnone : s.pc.holds .writeEnd = false → s.ptr .writeEnd ≠ some p := fun e => by
    rw [hshape.ptr_none e]
    simp
  cases h with
  | value | retry =>
    cases hs'
    obtain ⟨e1, -, -, -, e2, -⟩ := complete_rest s _ _ _
    rw [e1] at hp
    exact hold hp e2
  | pipeW hpc => cases hs'; exact absurd hp (hnone (by rw [hpc]; rfl))
  | attachWr =>
    cases hs'
    simp only [setPtr, Function.update_self, Option.some.injEq] at hp
    subst hp
    simp only [Call.applyAll_cons_iff, Call.applyAll_nil, Option.some.injEq] at hw
    obtain ⟨hfree, -, rfl⟩ := hw
    have hadd := World.attachLogged_adds (by simpa [Call.enabled] using hfree) s.mFdW.2
      (EPOLLOUT ||| EPOLLET)
    rcases (hadd _).heap_cases hb with ⟨-, rfl⟩ | ⟨hne, -⟩
    · rfl
    · exact absurd rfl hne
  | finishwriting => cases hs'; simp [setPtr] at hp
  | attachRd | attachPw | finishReading => cases hs'; exact hold (by simpa [setPtr, sendHead] using hp) rfl
  | cleanup =>
    cases hs'
    simp only [setPtr, Function.update_apply] at hp
    split_ifs at hp
    exact hold hp rfl
  | close => cases hs'
  | block | error | pipeWFail | pipeR | pipeRFail | fork | forkFail | pidfdOpen | pidfdFail | closeEnds
  | cleaned | again => cases hs'; exact hold hp rfl

end Session

/-! ### Sessions and children -/

section Evolves

variable {w : World Handle} {co co' : Coros} {l : Label Choice}

theorem WritesAtOnce.step (h : WritesAtOnce co) (he : co.Evolves w co' l)
    (hguard : ∀ sid via s, co.running = .session sid via → co.sessions sid = some s →
      s.pc = .call .writepipe → l ≠ .co (.sys .wouldBlock)) : WritesAtOnce co' := by
  cases he with
  | stays hs | child hs => rw [WritesAtOnce, hs]; exact h
  | starts hs =>
    intro sid s hsid
    rw [hs, Function.update_apply] at hsid
    split_ifs at hsid
    · cases hsid
      simp [Session.start]
    · exact h sid s hsid
  | @resumes _ sid s o hsid hpc hs =>
    intro sid' t ht
    rw [hs, Function.update_apply] at ht
    split_ifs at ht
    · cases ht
      have hne := (h sid s hsid).1
      rw [hpc] at hne
      simpa using hne
    · exact h sid' t ht
  | @moves sid via s c act hrun hsid hact hs =>
    intro sid' t ht
    rw [hs, Function.update_apply] at ht
    split_ifs at ht
    swap
    · exact h sid' t ht
    have hold := h sid s hsid
    cases hact with
    | @value o _ r | @retry o _ r =>
      cases ht
      rcases Session.complete_pc s o r (s.doneReading w) with ⟨-, e | e⟩ | ⟨-, e⟩ | ⟨-, e | e | e⟩ |
        ⟨-, e | e⟩ | ⟨-, e⟩ <;> rw [e] <;> simp
    | @block o p r hpc _ _ _ hb =>
      cases ht
      refine ⟨fun e => ?_, by simp⟩
      cases e
      simp only [Op.blocks, decide_eq_true_eq] at hb
      exact hguard sid via s hrun hsid hpc (by rw [hb])
    | finishReading =>
      cases ht
      rcases Session.sendHead_pc { s.setPtr .readEnd none with vars := s.vars.stripFirstLine } with
        e | e <;> rw [e] <;> simp
    | error | cleanup => cases ht; exact hold
    | attachRd | attachPw =>
      cases ht
      dsimp only
      split_ifs <;> simp
    | close => cases ht
    | _ => cases ht; simp

theorem ChildEnds.step (h : ChildEnds co) (hsrv : ServerEnds w co) (he : co.Evolves w co' l) :
    ChildEnds co' := by
  cases he with
  | stays _ _ hp | starts _ _ hp | resumes _ _ _ _ hp => rw [ChildEnds, hp]; exact h
  | @child _ pid _ _ hp =>
    obtain ⟨c, a, rest, hc, htodo, hpr⟩ := Procs.childStep_cases hp
    have hch := congrArg Procs.children hpr
    dsimp only at hch
    intro pid' c' fd n hc' hfd
    rw [hch, Function.update_apply] at hc'
    split_ifs at hc'
    · cases hc'
      -- the action that is taken is the one that closes the write end
      cases a with
      | close fd' =>
        simp only [FdAction.apply, Function.update_apply] at hfd
        split_ifs at hfd with e
        obtain ⟨-, rest', htodo'⟩ := h pid c fd n hc hfd
        rw [htodo] at htodo'
        cases htodo'
        exact absurd rfl e
      | dup2 src dst =>
        have hold : c.table src = some (.pipeEnd (wPipe n) .write) ∨
            c.table fd = some (.pipeEnd (wPipe n) .write) := by
          dsimp only [FdAction.apply] at hfd
          split_ifs at hfd
          · rw [Function.update_apply] at hfd
            split_ifs at hfd
            · exact Or.inl hfd
            · exact Or.inr hfd
          · exact Or.inr hfd
        obtain hfd | hfd := hold
        · obtain ⟨-, rest', htodo'⟩ := h pid c src n hc hfd
          rw [htodo] at htodo'
          cases htodo'
        · obtain ⟨-, rest', htodo'⟩ := h pid c fd n hc hfd
          rw [htodo] at htodo'
          cases htodo'
    · exact h pid' c' fd n hc' hfd
  | @moves sid via s c act hrun hsid hact _ _ _ hp =>
    intro pid' c' fd n hc' hfd
    rcases Procs.apply_children hp with ⟨hch, -⟩ | ⟨pid, -, -, hch⟩ | ⟨pid, -, hch⟩
    · rw [hch] at hc'
      exact h pid' c' fd n hc' hfd
    · rw [hch, Function.update_apply] at hc'
      split_ifs at hc'
      · cases hc'
        obtain ⟨sid', via', t, hrun', ht, hframe, rfl, -⟩ := hsrv fd n hfd
        rw [hrun] at hrun'
        cases hrun'
        rw [hsid] at ht
        cases ht
        exact ⟨hframe.symm, _, rfl⟩
      · exact h pid' c' fd n hc' hfd
    · rw [hch, Function.update_apply] at hc'
      split_ifs at hc'
      exact h pid' c' fd n hc' hfd

theorem Procs.apply_finished {pr pr' : Procs} {s : Session} {table : Fd → Option File} {e : Effect}
    (h : pr.apply s table e = some pr') :
    pr'.finished = pr.finished ∨
      (e = .finishedWriting ∧ pr'.finished = s.frame :: pr.finished) := by
  cases e with
  | finishedWriting => cases h; exact Or.inr ⟨rfl, rfl⟩
  | forked pid | reaped pid =>
    simp only [Procs.apply] at h
    split_ifs at h
    cases h
    exact Or.inl rfl
  | none | killed => cases h; exact Or.inl rfl

theorem FinishedEnds.step (h : FinishedEnds co) (hfr : Frames co) (he : co.Evolves w co' l) :
    FinishedEnds co' := by
  cases he with
  | stays hs hn hp => rw [FinishedEnds, hs, hn, hp]; exact h
  | child hs hn hp => rw [FinishedEnds, hs, hn, (Procs.childStep_frame hp).2.1]; exact h
  | starts hs hn hp =>
    intro n hmem
    rw [hp] at hmem
    obtain ⟨hlt, hold⟩ := h n hmem
    refine ⟨by omega, fun sid s hsid hframe => ?_⟩
    rw [hs, Function.update_apply] at hsid
    split_ifs at hsid
    · cases hsid
      exact absurd hframe hlt.ne'
    · exact hold sid s hsid hframe
  | @resumes _ sid s o hsid hpc hs hn hp =>
    intro n hmem
    rw [hp] at hmem
    obtain ⟨hlt, hold⟩ := h n hmem
    refine ⟨by omega, fun sid' t ht hframe => ?_⟩
    rw [hs, Function.update_apply] at ht
    split_ifs at ht
    · cases ht
      obtain ⟨hwr, hnone⟩ := hold sid s hsid hframe
      rw [hpc] at hwr
      exact ⟨hwr, hnone⟩
    · exact hold sid' t ht hframe
  | @moves sid via s c act hrun hsid hact hs hn _ hp =>
    -- calls that had finished before the step
    have hbefore : ∀ n ∈ co.procs.finished, n < co'.nextFrame ∧
        ∀ sid' t, co'.sessions sid' = some t → t.frame = n → t.pc.written ∧
          t.ptr .writeEnd = none := by
      intro n hmem
      obtain ⟨hlt, hold⟩ := h n hmem
      refine ⟨by omega, fun sid' t ht hframe => ?_⟩
      rw [hs, Function.update_apply] at ht
      split_ifs at ht
      · have hne : t.frame ≠ co.nextFrame := by omega
        have hsame : s.frame = n := by
          rcases hact.frame ht with e | ⟨-, e⟩
          · exact e.symm.trans hframe
          · exact absurd e hne
        obtain ⟨hwr, hnone⟩ := hold sid s hsid hsame
        exact hact.written ht hwr hnone hne
      · exact hold sid' t ht hframe
    rcases Procs.apply_finished hp with e | ⟨heff, e⟩
    · intro n hmem
      rw [e] at hmem
      exact hbefore n hmem
    · intro n hmem
      rw [e] at hmem
      rcases List.mem_cons.1 hmem with rfl | hmem
      · refine ⟨(hfr.lt sid s hsid).trans_le hn, fun sid' t ht hframe => ?_⟩
        rw [hs, Function.update_apply] at ht
        split_ifs at ht with hsid'
        · cases hact with
          | finishwriting => cases ht; exact ⟨rfl, by simp [Session.setPtr]⟩
          | @value o _ r | @block o _ r | @retry o _ r =>
            rcases s.opEffect_cases o r with e | ⟨-, ⟨-, e⟩ | e⟩ <;> rw [e] at heff <;> cases heff
          | _ => cases heff
        · exact absurd (hfr.inj sid' sid t s ht hsid hframe) hsid'
      · exact hbefore n hmem

end Evolves

/-! ### Steps of the server -/

section Steps

variable {w w' : World Handle} {co co' : Coros} {sid : ℕ} {s : Session} {c : Choice} {act : Act}

/-- A change that keeps the descriptors of the objects. -/
theorem WriteFds.sets (h : WriteFds w co) {p : Addr} {a b : AsyncFd Handle} {m : Bool}
    (hw : w.Sets w' p b m) (ha : w.heap p = some a) (hfd : b.fd = a.fd) : WriteFds w' co := by
  intro sid s q b' hs hq hb
  rcases hw.heap_cases hb with ⟨rfl, rfl⟩ | ⟨-, hb⟩
  · rw [hfd]
    exact h sid s q a hs hq ha
  · exact h sid s q b' hs hq hb

theorem WriteFds.resume (h : WriteFds w co) {x : Handle} (hr : co.resume x = some co') :
    WriteFds w co' := by
  intro sid t p a ht hp ha
  rcases Coros.resume_sessions hr ht with hold | ⟨s, o, hs, -, rfl⟩
  · exact h sid t p a hold hp ha
  · exact h sid s p a hs hp ha

theorem WriteFds.moves (h : WriteFds w co) (hob : ObjectsOk w co) (hs : co.sessions sid = some s)
    (hact : Session.StepCase w sid co.nextFrame s c act) (hw : Call.applyAll act.calls w = some w')
    (hm : Session.Moves w w' sid co.nextFrame s c act.after) (via : Bool) :
    WriteFds w' (co.settle sid via act.after) := by
  intro sid' t p b ht hp hb
  rw [Coros.settle_sessions hs, Function.update_apply] at ht
  split_ifs at ht with e
  · exact hact.writeFd hw hm (hob.session sid s hs).shape
      (fun p hp => hob.owned.live (.session sid .writeEnd) p ⟨s, hs, hp⟩)
      (fun p a hp ha => h sid s p a hs hp ha) ht hp hb
  · rw [(hob.frame hs hm (o := .session sid' .writeEnd) ⟨t, ht, hp⟩ (by simp [e])).1] at hb
    exact h sid' t p b ht hp hb

theorem WriteFds.accept (h : WriteFds w co) (hob : ObjectsOk w co)
    (hm : Coros.AcceptMoves w w' co c co') : WriteFds w' co' := by
  intro sid t p b ht hp hb
  have ht' : co.sessions sid = some t := by
    rcases hm.session_cases ht with ht' | ⟨q, oid, fd, rfl, -⟩
    · exact ht'
    · simp [Session.start] at hp
  rw [(hob.frame_accept hm ⟨t, ht', hp⟩).1] at hb
  exact h sid t p b ht' hp hb

/-- While nobody runs, the server holds no write end. -/
theorem ServerEnds.none (h : ServerEnds w co) (hrun : ∀ sid via, co.running ≠ .session sid via)
    (fd : Fd) (n : ℕ) : w.table fd ≠ some (writeEndOf n) := by
  intro hfd
  obtain ⟨sid, via, s, e, -⟩ := h fd n hfd
  exact hrun sid via e

theorem ServerEnds.of_none (h : ∀ fd n, w.table fd ≠ some (writeEndOf n)) : ServerEnds w co :=
  fun fd n hfd => absurd hfd (h fd n)

/-- The `accept` coroutine opens no pipe. -/
theorem accept_opens {m : Move Handle Coros} (h : Coros.StepCase w co c m)
    (hrun : co.running = .acceptor) {fd : Fd} {n : ℕ} : .openFd fd (writeEndOf n) ∉ m.calls := by
  intro hmem
  cases h with
  | session hrun' => rw [hrun] at hrun'; cases hrun'
  | _ => simp at hmem

theorem ServerEnds.moves (h : ServerEnds w co) (hob : ObjectsOk w co) (hfds : WriteFds w co)
    (honce : WritesAtOnce co) {via : Bool} (hrun : co.running = .session sid via)
    (hs : co.sessions sid = some s) (hraw : w.Raw s.rawFds)
    (hact : Session.StepCase w sid co.nextFrame s c act) (hw : Call.applyAll act.calls w = some w')
    (hblock : s.pc = .call .writepipe → c ≠ .sys .wouldBlock)
    (hobj : ∀ p ok, c = .object p ok → ok = true) :
    ServerEnds w' (co.settle sid via act.after) := by
  intro fd n hfd
  rcases Call.applyAll_table hw hfd with hold | hnew
  · obtain ⟨sid', via', t, hrun', ht, hframe, rfl, hwr⟩ := h fd n hold
    rw [hrun] at hrun'
    cases hrun'
    rw [hs] at ht
    cases ht
    obtain ⟨s', hafter, e1, e2, hwr'⟩ := hact.writing hw (hob.session sid s hs) hraw
      (fun p a hp ha => hfds sid s p a hs hp ha) (honce sid s hs) hblock hobj hwr hfd
    rcases hafter with hafter | ⟨hafter, rfl⟩
    · refine ⟨sid, via, s', ?_, ?_, e1.trans hframe, by rw [e2], hwr'⟩
      · rw [hafter]
        exact hrun
      · rw [hafter, Coros.settle_sessions hs, Function.update_self]
        rfl
    · rw [hafter]
      exact ⟨sid, via, s', hrun, hs, hframe, rfl, hwr'⟩
  · obtain ⟨hn, r, hafter⟩ := hact.opens hnew
    refine ⟨sid, via, { s with mFdW := (r, fd), pc := .pipeR }, ?_, ?_, hn.symm, rfl, Or.inl rfl⟩
    · rw [hafter]
      exact hrun
    · rw [hafter, Coros.settle_sessions hs, Function.update_self]
      rfl

end Steps

theorem PipesOk.start_holds : PipesOk State.start where
  threads := .start
  synced _ := .start_holds
  frames := frames_start
  fds sid s p a hs := by cases hs
  atOnce sid s hs := by cases hs
  server fd n hfd := by cases hfd
  child pid c fd n hc := by cases hc
  finished n hmem := by cases hmem

theorem PipesOk.step {S S' : State} {l : Label Choice} (h : PipesOk S) (hok : EpollOk l)
    (hguard : S.writeBlocks l = false) (hs : S.step l = some S') : PipesOk S' := by
  have hth := h.threads.step hs
  have hsync : S'.ctl ≠ .exited → Synced S' := fun hlive =>
    (h.synced fun e => hlive (State.exited_step e hs)).step hok hs hlive
  have hob := h.threads.objects
  have hev := State.evolves hs
  have hblock : ∀ sid via s, S.co.running = .session sid via → S.co.sessions sid = some s →
      s.pc = .call .writepipe → l ≠ .co (.sys .wouldBlock) := by
    rintro sid via s hrun hsid hpc rfl
    simp [State.writeBlocks, Coros.runningPc, hrun, hsid, hpc] at hguard
  have hframes := h.frames.step hev
  have honce := h.atOnce.step hev hblock
  have hchild := h.child.step h.server hev
  have hfin := h.finished.step h.frames hev
  have hnone : S.ctl.inRun → ∀ fd n, S.w.table fd ≠ some (writeEndOf n) := fun hin =>
    h.server.none (by simp [h.threads.idle hin])
  cases Server.step_cases hs with
  | wait hctl _ hS | batchEnd hctl hS | unmanaged hctl _ hS | noIn hctl _ _ hS | noOut hctl _ hS
  | sendNull hctl _ _ _ hS | flushEnd hctl hS =>
    subst hS
    exact ⟨hth, hsync, hframes, h.fds, honce, h.server, hchild, hfin⟩
  | recvNull hctl _ _ ha _ hS =>
    subst hS
    have hw := World.noteHangup_puts ha
    refine ⟨hth, hsync, hframes, h.fds.sets hw.toSets ha rfl, honce, ServerEnds.of_none ?_, hchild, hfin⟩
    rw [hw.table]
    exact hnone (by rw [hctl]; rfl)
  | recv hctl _ _ ha _ hco hS =>
    subst hS
    have hw := World.noteHangup_puts ha
    refine ⟨hth, hsync, hframes, (h.fds.sets hw.toSets ha rfl).resume hco, honce, ServerEnds.of_none ?_,
      hchild, hfin⟩
    rw [hw.table]
    exact hnone (by rw [hctl]; rfl)
  | send hctl _ _ _ hco hS =>
    subst hS
    exact ⟨hth, hsync, hframes, h.fds.resume hco, honce,
      ServerEnds.of_none (hnone (by rw [hctl]; rfl)), hchild, hfin⟩
  | @flush p todo a ok hctl ha hS =>
    subst hS
    refine ⟨hth, hsync, hframes, h.fds.sets (World.flushOne_sets ha ok) ha rfl, honce,
      ServerEnds.of_none ?_, hchild, hfin⟩
    rw [World.flushOne_table]
    exact hnone (by rw [hctl]; rfl)
  | @co k c m w' hctl hm hw hS =>
    subst hS
    have hobj := EpollOk.object hok
    have hcase := Coros.step_cases hm
    rcases hcase.acceptor_or_session hw with
      ⟨hrun, hacc⟩ | ⟨sid, via, s, act, pr, hrun, hsid, hact, -, rfl⟩
    · refine ⟨hth, hsync, hframes, h.fds.accept hob hacc, honce, ServerEnds.of_none fun fd n hfd => ?_,
        hchild, hfin⟩
      rcases Call.applyAll_table hw hfd with hold | hnew
      · exact h.server.none (by simp [hrun]) fd n hold
      · exact accept_opens hcase hrun hnew
    · have hok' := hob.session sid s hsid
      have hmv := Session.moves hact hw hok'.shape fun r p a hp ha e => (hok'.valid r p a hp ha e).2
      have hraw := (h.synced (by simp [hctl])).raw sid via s hrun hsid
      have hblock' : s.pc = .call .writepipe → c ≠ .sys .wouldBlock := by
        rintro hpc rfl
        exact hblock sid via s hrun hsid hpc rfl
      exact ⟨hth, hsync, hframes, h.fds.moves hob hsid hact hw hmv via, honce,
        h.server.moves hob h.fds h.atOnce hrun hsid hraw hact hw hblock' hobj, hchild, hfin⟩
  | env hco hS =>
    subst hS
    obtain ⟨pid, pr, -, -, rfl⟩ := Coros.env_cases hco
    exact ⟨hth, hsync, hframes, h.fds, honce, h.server, hchild, hfin⟩

/-- **The child gets its end of input.** In every run in which every `epoll_ctl` succeeds and no
`writepipe` blocks: once `finishwriting` has returned for the call `n` of `echo_loop`, the write end
of its pipe is held neither by the server, nor by the child of another call, nor by the child of
this call once it has reached `exec`. -/
theorem write_end_closed {S : State}
    (h : Lts.Reach State.step (fun S l => EpollOk l ∧ S.writeBlocks l = false) State.start S)
    {n : ℕ} (hn : n ∈ S.co.procs.finished) (fd : Fd) :
    S.w.table fd ≠ some (writeEndOf n) ∧
      ∀ pid c, S.co.procs.children pid = some c → c.frame ≠ n ∨ c.todo = [] →
        c.table fd ≠ some (writeEndOf n) := by
  have hS : PipesOk S := h.inv .start_holds fun _ _ _ hi hl hst => hi.step hl.1 hl.2 hst
  refine ⟨fun hfd => ?_, fun pid c hc hother hfd => ?_⟩
  · obtain ⟨sid, via, s, -, hs, hframe, -, hwr⟩ := hS.server fd n hfd
    obtain ⟨hpc, hnone⟩ := (hS.finished n hn).2 sid s hs hframe
    rcases hwr with hwr | ⟨p, hp⟩
    · cases hpc' : s.pc <;> simp [hpc', Pc.beforeAttach, Pc.written] at hwr hpc
    · rw [hnone] at hp
      cases hp
  · obtain ⟨hframe, rest, htodo⟩ := hS.child pid c fd n hc hfd
    rcases hother with hne | hexec
    · exact hne hframe.symm
    · rw [htodo] at hexec
      cases hexec

/-- The session waits for the output of its child, which has not yet begun: the child still holds
the write end, the server does not. -/
theorem write_end_closed_reader : ∃ S : State, 0 ∈ S.co.procs.finished ∧
    (∃ c ∈ S.co.procs.children 100, c.table 6 = some (writeEndOf 0)) ∧
    ∀ fd, S.w.table fd ≠ some (writeEndOf 0) := by
  obtain ⟨S, h, hp⟩ := Lts.exists_reach State.step
    (fun S l => EpollOk l = true ∧ S.writeBlocks l = false) State.start readRun
    (fun S l => EpollOk l && !S.writeBlocks l) (fun S l hl => by simpa using hl)
    (fun S => decide (0 ∈ S.co.procs.finished ∧
      ∃ c ∈ S.co.procs.children 100, c.table 6 = some (writeEndOf 0))) (by decide)
  obtain ⟨hn, hc⟩ := of_decide_eq_true hp
  exact ⟨S, hn, hc, fun fd => (write_end_closed h hn fd).1⟩

end EpollCoroutine
