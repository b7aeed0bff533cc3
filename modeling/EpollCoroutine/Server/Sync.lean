import EpollCoroutine.Server.Threads

/-!
# The kernel and `io_state_`

While every `epoll_ctl` succeeds, the kernel agrees with `io_state_` and the deferred changes are
exactly those of the objects that the flush loop has still to visit.

* `EpollOk`: the steps in which every `epoll_ctl` succeeds.
* `Fresh`: the state of the objects before the first `epoll_wait`, which no flush precedes.
* `Synced`: the agreement, in every state of a run of such steps (`synced_reach`).
-/

namespace EpollCoroutine

/-- Every `epoll_ctl` of the step succeeds. -/
def EpollOk : Label Choice → Bool
  | .modify ok | .co (.object _ ok) | .co (.boot _ _ _ ok) => ok
  | _ => true

theorem EpollOk.object {c : Choice} (h : EpollOk (.co c)) (p : Addr) (ok : Bool)
    (hc : c = .object p ok) : ok = true := by
  subst hc
  exact h

/-! ### Descriptors of a session without an object -/

namespace Session

variable {w w' : World Handle} {sid fresh : ℕ} {s : Session} {c : Choice} {act : Act}

theorem rawFds_complete (s : Session) (o : Op) (r : Sys) (dr : Bool) :
    (s.complete o r dr).rawFds = [] := by
  rcases complete_pc s o r dr with ⟨-, e | e⟩ | ⟨-, e⟩ | ⟨-, e | e | e⟩ | ⟨-, e | e⟩ | ⟨-, e⟩ <;>
    simp [rawFds, e]

theorem rawFds_sendHead (s : Session) : s.sendHead.rawFds = [] := by
  rcases sendHead_pc s with e | e <;> simp [rawFds, e]

theorem StepCase.raw (h : StepCase w sid fresh s c act)
    (hw : Call.applyAll act.calls w = some w') (hk : w.KernelOk) (hr : w.Raw s.rawFds) :
    ∀ s', act.after.next s = some s' → w'.Raw s'.rawFds := by
  intro s' hs'
  cases h with
  | value | retry => cases hs'; rw [rawFds_complete]; exact .nil
  | block | pipeWFail | pipeRFail | forkFail | pidfdFail | closeEnds | finishwriting | cleaned | again =>
    cases hs'
    exact .nil
  | error hpc =>
    cases hs'
    simp only [rawFds, hpc]
    exact .nil
  | pipeW hpc =>
    cases hs'
    exact World.Raw.nil.pipe hk hw
  | pipeR hpc =>
    cases hs'
    simp only [rawFds, hpc] at hr
    exact hr.pipe hk hw
  | attachRd hpc =>
    cases hs'
    simp only [Call.applyAll_cons_iff, Call.applyAll_nil, Option.some.injEq] at hw
    obtain ⟨hfree, -, rfl⟩ := hw
    simp only [rawFds, hpc] at hr ⊢
    have hadd := World.attachReadonly_adds (by simpa [Call.enabled] using hfree) s.mFdR.1
    have hn := hr.nodup
    split_ifs
    · refine hr.adds (hadd _) (by simp [setPtr]) ?_
      simp only [List.nodup_cons, List.mem_cons, not_or] at hn
      simp only [setPtr, List.mem_cons, not_or]
      refine ⟨fun e => hn.1.1 e.symm, hn.2.1⟩
    · exact .nil
  | attachWr hpc =>
    cases hs'
    simp only [Call.applyAll_cons_iff, Call.applyAll_nil, Option.some.injEq] at hw
    obtain ⟨hfree, -, rfl⟩ := hw
    simp only [rawFds, hpc] at hr ⊢
    have hadd := World.attachLogged_adds (by simpa [Call.enabled] using hfree) s.mFdW.2
    have hn := hr.nodup
    refine hr.adds (hadd _ _) (by simp [setPtr]) ?_
    simp only [List.nodup_cons, List.mem_cons, not_or] at hn
    simp only [setPtr, List.mem_cons, not_or]
    exact ⟨fun e => hn.1.1 e.symm, hn.2.1⟩
  | fork hpc =>
    cases hs'
    cases hw
    simpa only [rawFds, hpc] using hr
  | pidfdOpen hpc =>
    cases hs'
    simp only [Call.applyAll_cons_iff, Call.applyAll_nil, Option.some.injEq, Call.apply,
      Call.enabled, Bool.and_eq_true, Option.isNone_iff_eq_none] at hw
    obtain ⟨⟨hfd, -⟩, rfl⟩ := hw
    simp only [rawFds, hpc] at hr
    exact hr.openFd hk hfd _
  | attachPw hpc =>
    cases hs'
    simp only [Call.applyAll_cons_iff, Call.applyAll_nil, Option.some.injEq] at hw
    obtain ⟨hfree, -, rfl⟩ := hw
    simp only [rawFds, hpc] at hr ⊢
    have hadd := World.attachReadonly_adds (by simpa [Call.enabled] using hfree)
    have hn := hr.nodup
    split_ifs
    · refine hr.adds (hadd _ _) (by simp [setPtr]) ?_
      simp only [List.nodup_cons] at hn
      exact hn.1
    · exact .nil
  | finishReading => cases hs'; rw [rawFds_sendHead]; exact .nil
  | cleanup hpc =>
    cases hs'
    simp only [rawFds, setPtr, hpc]
    exact .nil
  | close => cases hs'

/-- A suspended session does not run. -/
theorem StepCase.not_susp (h : StepCase w sid fresh s c act) (o : Op) : s.pc ≠ .susp o := by
  intro e
  cases h <;> simp_all

end Session

/-! ### Suspended coroutines -/

section Suspended

variable {w w' : World Handle} {co co' : Coros} {sid : ℕ} {s : Session} {x : Handle} {d : Dir}
  {p : Addr} {c : Choice}

/-- The other coroutines stay suspended during a step of a session. -/
theorem Coros.SuspendedOn.settle (h : co.SuspendedOn x d p) (hs : co.sessions sid = some s)
    (hpc : ∀ o, s.pc ≠ .susp o) (via : Bool) (after : After) :
    (co.settle sid via after).SuspendedOn x d p := by
  cases x with
  | accept n => cases after <;> exact h
  | echo sid' f =>
    obtain ⟨t, o, ht, hrest⟩ := h
    refine ⟨t, o, ?_, hrest⟩
    rw [settle_sessions hs, Function.update_apply]
    split_ifs with e
    · subst e
      rw [hs] at ht
      cases ht
      exact absurd hrest.2.1 (hpc o)
    · exact ht

/-- The sessions stay suspended during a step of the `accept` coroutine. -/
theorem Coros.SuspendedOn.accept (h : co.SuspendedOn x d p) (hob : ObjectsOk w co)
    (hm : Coros.AcceptMoves w w' co c co') : co'.SuspendedOn x d p := by
  cases x with
  | accept n =>
    have hn := h.1
    cases hm with
    | completes hpc => rcases hpc with e | e <;> rw [hn] at e <;> cases e
    | boots hpc | suspends hpc | makes hpc => rw [hn] at hpc; cases hpc
    | bootFails | exits => exact h
  | echo sid f =>
    obtain ⟨t, o, ht, hrest⟩ := h
    cases hm with
    | makes =>
      refine ⟨t, o, ?_, hrest⟩
      simp only [setSession, Function.update_of_ne (hob.fresh sid t ht).ne]
      exact ht
    | _ => exact ⟨t, o, ht, hrest⟩

end Suspended

/-! ### Registrations -/

section Registrations

variable {w w' : World Handle} {co co' : Coros} {sid fresh : ℕ} {s : Session} {c : Choice}
  {after : After}

theorem AsyncFd.begun_watches (a : AsyncFd Handle) {o : Op} (ho : o.watches) :
    (a.begun o).ioNewState = a.ioState ||| o.dir.bit := by
  simp [AsyncFd.begun, ho]

theorem AsyncFd.begun_unwatched (a : AsyncFd Handle) {o : Op} (ho : o.watches = false) :
    a.begun o = a := by
  simp [AsyncFd.begun, ho]

/-- The effective mask of the object on which an operation has suspended. -/
theorem World.Sets.eff_suspends {o : Op} {p : Addr} {a : AsyncFd Handle} {x : Handle}
    (hw : w.Sets w' p ((a.begun o).setCoro o.dir x) o.watches) :
    w'.eff p ((a.begun o).setCoro o.dir x) =
      if o.watches then a.ioState ||| o.dir.bit else w.eff p a := by
  cases ho : o.watches with
  | true =>
    rw [ho] at hw
    rw [hw.eff_self, if_pos rfl, AsyncFd.setCoro_ioNewState, a.begun_watches ho]
  | false =>
    rw [ho] at hw
    rw [if_neg (by simp)]
    exact hw.eff_unmarked (by simp) (by simp [a.begun_unwatched ho])

/-- What `attach*` does under a descriptor of the session, if `epoll_ctl` succeeds. -/
theorem attached_of_ok {l : List Fd} {p : Addr} {fd : Fd} {b b' : Bool} (hr : w.Raw l)
    (hfd : fd ∈ l)
    (hadd : ∃ ok, c = .object p ok ∧ b' = w.addSucceeds fd ok) (hb : b = false → b' = false)
    (hok : ∀ p ok, c = .object p ok → ok = true) : b = true ∧ b' = true := by
  obtain ⟨ok, hc, hb'⟩ := hadd
  rw [hr.addSucceeds hfd, hok p ok hc] at hb'
  refine ⟨?_, hb'⟩
  by_contra hne
  rw [hb (by simpa using hne)] at hb'
  cases hb'

theorem Role.mask_et (r : Role) : r.mask.has EPOLLET := by cases r <;> decide

/-- A step of a session in which every `epoll_ctl` succeeds. -/
theorem World.Registered.moves (h : w.Registered) (hob : ObjectsOk w co) (hr : w.Raw s.rawFds)
    (hm : Session.Moves w w' sid fresh s c after) (hrun : after ≠ .exited)
    (hok : ∀ p ok, c = .object p ok → ok = true) : w'.Registered := by
  cases hm with
  | raw hw _ _ _ _ _ _ _ _ hint => exact h.same hw (hint hr)
  | again hw _ _ hint => exact h.same hw hint
  | completes _ _ ha _ hw =>
    refine h.puts hw ha rfl rfl fun het _ => ?_
    rw [hw.toSets.eff_self]
    exact (Mask.has_et_andNot _ _).2 het
  | @suspends o p a _ _ ha _ hw =>
    refine h.puts hw ha (by simp) (by simp) fun het heff => ?_
    rw [hw.toSets.eff_suspends]
    split_ifs
    · exact (Mask.has_et_or _ _).2 het
    · exact heff
  | @attaches r p fd b b' oid s' _ _ hfd hw _ _ _ _ _ _ _ _ _ hraw hadd hb =>
    obtain ⟨rfl, rfl⟩ := attached_of_ok hr hraw hadd hb hok
    have hne : fd ≠ -1 := by
      rintro rfl
      exact absurd hfd (by decide)
    exact h.adds hw hob.owned.processed_managed hob.owned.managed_live r.mask_et
      (fun _ => ⟨rfl, hr.interest fd hraw⟩) (fun e => absurd e hne)
  | drops _ _ hw | closes _ _ hw => exact h.drops hw
  | exits => exact absurd rfl hrun

/-- A step of the `accept` coroutine in which every `epoll_ctl` succeeds. -/
theorem World.Registered.accept (h : w.Registered) (hob : ObjectsOk w co)
    (hr : ∀ fd, co.acceptor = .made fd → fd = -1 ∨ w.Raw [fd])
    (hm : Coros.AcceptMoves w w' co c co')
    (hok : ∀ p ok, c = .object p ok → ok = true)
    (hboot : ∀ p fd b ok, c = .boot p fd b ok → b ∧ ok) :
    w'.Registered := by
  cases hm with
  | @boots p fd oid b w₁ w₂ hpc hfd hw₁ hw₂ hw' hint hfree hadd =>
    obtain ⟨ok, hc, hb⟩ := hadd
    have hbt : b = true := (hb hob.kernel).trans (hboot _ _ _ _ hc).2
    subst hbt
    have hne : fd ≠ -1 := by
      rintro rfl
      exact absurd hfd (by decide)
    have hnone : w₁.interest fd = none := by
      rw [hint]
      exact hob.kernel.interest_none hfree
    have h₁ := h.same hw₁ hint
    have h₂ := h₁.adds hw₂ (by rw [hw₁.processed, hw₁.managed]; exact hob.owned.processed_managed)
      (by rw [hw₁.heap, hw₁.managed]; exact hob.owned.managed_live) (Role.mask_et .socket)
      (fun _ => ⟨rfl, hnone⟩) (fun e => absurd e hne)
    have ha : w₂.heap p = some { oid := oid, fd := fd, ioState := EPOLLIN ||| EPOLLET } := by
      rw [hw₂.heap, Function.update_self]
    refine h₂.puts hw' ha rfl rfl fun _ _ => ?_
    rw [hw'.toSets.eff_self]
    show Mask.has ((EPOLLIN ||| EPOLLET) ||| EPOLLIN) EPOLLET
    decide
  | bootFails _ _ _ _ hc =>
    obtain ⟨ok, rfl⟩ := hc
    exact absurd (hboot _ _ _ _ rfl).1 (by simp)
  | completes _ ha hw₁ hw' =>
    have h₁ : World.Registered _ := h.puts hw₁ ha rfl rfl fun het _ => by
      rw [hw₁.toSets.eff_self]
      exact (Mask.has_et_andNot _ .read).2 het
    rcases hw' with ⟨rfl, -⟩ | ⟨-, -, rfl⟩
    · exact h₁
    · exact h₁.same ⟨rfl, rfl, rfl⟩ rfl
  | suspends _ ha hw' =>
    refine h.puts hw' ha (by simp) (by simp) fun het _ => ?_
    have heff := World.Sets.eff_suspends (o := .recv) hw'.toSets
    exact heff ▸ (Mask.has_et_or _ .read).2 het
  | @exits a _ ha hw' =>
    refine h.puts hw' ha (by simp) (by simp) fun het _ => ?_
    rw [hw'.toSets.eff_self, a.begun_watches (o := .recv) rfl]
    exact (Mask.has_et_or _ .read).2 het
  | @makes fd p oid b hpc hw' hadd =>
    obtain ⟨ok, hc, hb⟩ := hadd
    refine h.adds hw' hob.owned.processed_managed hob.owned.managed_live (Role.mask_et .socket)
      (fun hne => ?_)
      (fun e => ?_)
    · have hraw := (hr fd hpc).resolve_left hne
      rw [hraw.addSucceeds List.mem_cons_self, hok p ok hc] at hb
      exact ⟨hb, hraw.interest fd List.mem_cons_self⟩
    · rw [show fd = -1 from e] at hb
      simpa [World.addSucceeds, hob.kernel.invalid_closed] using hb

end Registrations

/-! ### Stored handles -/

section Handles

variable {w w' : World Handle} {co co' : Coros} {sid fresh : ℕ} {s : Session} {c : Choice}
  {after : After} {q : Addr} {b : AsyncFd Handle} {d : Dir} {x : Handle}

/-- A handle that is stored after a step of a session was there before, or the session has
suspended. -/
theorem Session.Moves.coro_cases (hm : Session.Moves w w' sid fresh s c after)
    (hb : w'.heap q = some b) (hx : b.coro d = some x) :
    (∃ a, w.heap q = some a ∧ a.coro d = some x) ∨
    ∃ o, s.pc = .call o ∧ s.ptr o.role = some q ∧ o.dir = d ∧ x = .echo sid s.frame ∧
      after = .suspended { s with pc := .susp o, opNo := s.opNo + 1 } := by
  cases hm with
  | raw hw | again hw => exact Or.inl ⟨b, hw.heap ▸ hb, hx⟩
  | completes _ _ ha _ hw =>
    left
    rcases hw.toSets.heap_cases hb with ⟨rfl, rfl⟩ | ⟨-, hb⟩
    · exact ⟨_, ha, by cases d <;> exact hx⟩
    · exact ⟨b, hb, hx⟩
  | @suspends o p a hpc hp ha _ hw =>
    rcases hw.toSets.heap_cases hb with ⟨rfl, rfl⟩ | ⟨-, hb⟩
    · rw [AsyncFd.coro_setCoro] at hx
      split_ifs at hx with e
      · cases hx
        exact Or.inr ⟨o, hpc, hp, e.symm, rfl, rfl⟩
      · exact Or.inl ⟨a, ha, by simpa using hx⟩
    · exact Or.inl ⟨b, hb, hx⟩
  | attaches _ _ _ hw =>
    rcases hw.heap_cases hb with ⟨rfl, rfl⟩ | ⟨-, hb⟩
    · cases d <;> cases hx
    · exact Or.inl ⟨b, hb, hx⟩
  | drops _ _ hw | closes _ _ hw => exact Or.inl ⟨b, (hw.heap_cases hb).2, hx⟩
  | exits _ _ ha hw =>
    left
    rcases hw.toSets.heap_cases hb with ⟨rfl, rfl⟩ | ⟨-, hb⟩
    · exact ⟨_, ha, by simpa using hx⟩
    · exact ⟨b, hb, hx⟩

/-- The same for a step of the `accept` coroutine. -/
theorem Coros.AcceptMoves.coro_cases (hm : Coros.AcceptMoves w w' co c co')
    (hb : w'.heap q = some b) (hx : b.coro d = some x) :
    (∃ a, w.heap q = some a ∧ a.coro d = some x) ∨
    d = .read ∧ q = co.listen ∧ x = .accept co.acceptNo ∧
      co' = { co with acceptor := .susp co.acceptNo, acceptNo := co.acceptNo + 1, running := .idle } := by
  cases hm with
  | boots _ _ hw₁ hw₂ hw' =>
    left
    rcases hw'.toSets.heap_cases hb with ⟨rfl, rfl⟩ | ⟨hne, hb⟩
    · cases d <;> cases hx
    · rcases hw₂.heap_cases hb with ⟨e, -⟩ | ⟨-, hb⟩
      · exact absurd e hne
      · exact ⟨b, hw₁.heap ▸ hb, hx⟩
  | bootFails _ hw₁ _ hw' =>
    left
    subst hw'
    simp only [World.create, Function.update_apply] at hb
    split_ifs at hb with e
    · cases hb
      cases d <;> cases hx
    · exact ⟨b, hw₁.heap ▸ hb, hx⟩
  | completes _ ha hw₁ _ hsame =>
    left
    rcases (hw₁.toSets.same hsame).heap_cases hb with ⟨rfl, rfl⟩ | ⟨-, hb⟩
    · exact ⟨_, ha, by cases d <;> exact hx⟩
    · exact ⟨b, hb, hx⟩
  | suspends _ ha hw' =>
    rcases hw'.toSets.heap_cases hb with ⟨rfl, rfl⟩ | ⟨-, hb⟩
    · rw [AsyncFd.coro_setCoro] at hx
      split_ifs at hx with e
      · cases hx
        exact Or.inr ⟨e, rfl, rfl, rfl⟩
      · exact Or.inl ⟨_, ha, by simpa using hx⟩
    · exact Or.inl ⟨b, hb, hx⟩
  | exits _ ha hw' =>
    left
    rcases hw'.toSets.heap_cases hb with ⟨rfl, rfl⟩ | ⟨-, hb⟩
    · exact ⟨_, ha, by simpa using hx⟩
    · exact ⟨b, hb, hx⟩
  | makes _ hw' =>
    left
    rcases hw'.heap_cases hb with ⟨rfl, rfl⟩ | ⟨-, hb⟩
    · cases d <;> cases hx
    · exact ⟨b, hb, hx⟩

end Handles

/-! ### Before the first `epoll_wait` -/

/-- The mask with which an owner attaches its object. -/
def Owner.mask : Owner → Mask
  | .acceptor => EPOLLIN ||| EPOLLET
  | .session _ r => r.mask

/-- No flush has happened: every object has the mask with which it was attached, and a stored handle
is that of an operation suspended on the object. -/
structure Fresh (w : World Handle) (co : Coros) : Prop where
  masks : ∀ o p a, co.Owns o p → w.heap p = some a → a.ioState = o.mask
  stored : ∀ p a d x, w.heap p = some a → a.coro d = some x → co.SuspendedOn x d p

namespace Fresh

variable {w w' : World Handle} {co co' : Coros} {sid : ℕ} {s : Session} {c : Choice}
  {after : After}

theorem moves (h : Fresh w co) (hob : ObjectsOk w co) (hs : co.sessions sid = some s)
    (hpc : ∀ o, s.pc ≠ .susp o) (hr : w.Raw s.rawFds)
    (hm : Session.Moves w w' sid co.nextFrame s c after)
    (hok : ∀ p ok, c = .object p ok → ok = true) (via : Bool) :
    Fresh w' (co.settle sid via after) := by
  have hsess := Coros.settle_sessions hs via after
  have hkeep := fun {x d p} (hx : co.SuspendedOn x d p) => hx.settle hs hpc via after
  refine ⟨fun o q a ho ha => ?_, fun q a d x ha hx => ?_⟩
  · by_cases hsid : ∃ r, o = .session sid r
    · obtain ⟨r, rfl⟩ := hsid
      obtain ⟨s', hs', hq⟩ := ho
      rw [hsess, Function.update_self] at hs'
      have hold : ∀ {a : AsyncFd Handle}, s.ptr r = some q → w.heap q = some a →
        a.ioState = r.mask :=
        fun hq ha => h.masks (.session sid r) q _ ⟨s, hs, hq⟩ ha
      cases hm with
      | raw hw hptr =>
        cases hs'
        exact hold (hptr ▸ hq) (hw.heap ▸ ha)
      | again hw =>
        cases hs'
        exact hold hq (hw.heap ▸ ha)
      | completes _ _ ha' _ hw =>
        cases hs'
        rw [(Session.complete_rest _ _ _ _).1] at hq
        rcases hw.toSets.heap_cases ha with ⟨rfl, rfl⟩ | ⟨-, ha⟩
        · exact (hold hq ha' :)
        · exact hold hq ha
      | suspends _ _ ha' _ hw =>
        cases hs'
        rcases hw.toSets.heap_cases ha with ⟨rfl, rfl⟩ | ⟨-, ha⟩
        · simpa [Owner.mask] using hold hq ha'
        · exact hold hq ha
      | @attaches r' p fd b b' oid t _ _ _ hw hptr _ _ _ _ _ _ _ _ hraw hadd hb =>
        cases hs'
        obtain ⟨rfl, rfl⟩ := attached_of_ok hr hraw hadd hb hok
        rw [hptr, Function.update_apply] at hq
        split_ifs at hq with e
        · subst e
          cases hq
          rcases hw.heap_cases ha with ⟨-, rfl⟩ | ⟨hne, -⟩
          · rfl
          · exact absurd rfl hne
        · obtain ⟨a', ha'⟩ := hob.owned.live (.session sid r) q ⟨s, hs, hq⟩
          rcases hw.heap_cases ha with ⟨rfl, -⟩ | ⟨-, ha⟩
          · exact absurd rfl (hw.ne_of_live ha')
          · exact hold hq ha
      | drops _ _ hw hptr =>
        cases hs'
        rw [hptr, Function.update_apply] at hq
        split_ifs at hq with e
        exact hold hq (hw.heap_cases ha).2
      | closes => cases hs'
      | exits _ _ ha' hw =>
        cases hs'
        rcases hw.toSets.heap_cases ha with ⟨rfl, rfl⟩ | ⟨-, ha⟩
        · simpa [Owner.mask] using hold hq ha'
        · exact hold hq ha
    · -- somebody else's object
      have hne : ∀ r, o ≠ .session sid r := fun r e => hsid ⟨r, e⟩
      have ho' : co.Owns o q := by
        cases o with
        | acceptor => cases after <;> exact ho
        | session sid' r =>
          obtain ⟨t, ht, hq⟩ := ho
          rw [hsess, Function.update_of_ne (by rintro rfl; exact hne r rfl)] at ht
          exact ⟨t, ht, hq⟩
      rw [(hob.frame hs hm ho' hne).1] at ha
      exact h.masks o q a ho' ha
  · rcases hm.coro_cases ha hx with ⟨b, hb, hx⟩ | ⟨o, -, hp, rfl, rfl, rfl⟩
    · exact hkeep (h.stored q b d x hb hx)
    · exact ⟨{ s with pc := .susp o, opNo := s.opNo + 1 }, o,
        by rw [hsess, Function.update_self]; rfl, rfl, rfl, rfl, hp⟩

theorem accept (h : Fresh w co) (hob : ObjectsOk w co) (hm : Coros.AcceptMoves w w' co c co') :
    Fresh w' co' := by
  have hkeep := fun {x d p} (hx : co.SuspendedOn x d p) => hx.accept hob hm
  refine ⟨fun o q a ho ha => ?_, fun q a d x ha hx => ?_⟩
  · cases o with
    | session sid r =>
      obtain ⟨t, ht, hq⟩ := ho
      rcases hm.session_cases ht with hold | ⟨p, oid, fd, rfl, hnew⟩
      · have ho' : co.Owns (.session sid r) q := ⟨t, hold, hq⟩
        rw [(hob.frame_accept hm ho').1] at ha
        exact h.masks _ q a ho' ha
      · simp only [Session.start, Function.update_apply] at hq
        split_ifs at hq with er
        subst er
        cases hq
        rw [hnew] at ha
        cases ha
        rfl
    | acceptor =>
      obtain ⟨hb, rfl⟩ := ho
      have hold : co.acceptor ≠ .boot → ∀ {b : AsyncFd Handle}, w.heap co.listen = some b →
          b.ioState = EPOLLIN ||| EPOLLET :=
        fun hb b hb' => h.masks .acceptor co.listen b ⟨hb, rfl⟩ hb'
      cases hm with
      | boots _ _ _ _ hw' =>
        rcases hw'.toSets.heap_cases ha with ⟨-, rfl⟩ | ⟨hne, -⟩
        · rfl
        · exact absurd rfl hne
      | bootFails hpc => exact absurd hpc hb
      | completes hpc ha' hw₁ _ hsame =>
        have hb' : co.acceptor ≠ .boot := by rcases hpc with e | e <;> simp [e]
        rcases (hw₁.toSets.same hsame).heap_cases ha with ⟨-, rfl⟩ | ⟨hne, -⟩
        · exact (hold hb' ha' :)
        · exact absurd rfl hne
      | suspends hpc ha' hw' =>
        rcases hw'.toSets.heap_cases ha with ⟨-, rfl⟩ | ⟨hne, -⟩
        · simpa [Owner.mask] using hold (by simp [hpc]) ha'
        · exact absurd rfl hne
      | exits hpc ha' hw' =>
        rcases hw'.toSets.heap_cases ha with ⟨-, rfl⟩ | ⟨hne, -⟩
        · simpa [Owner.mask] using hold (by simp [hpc]) ha'
        · exact absurd rfl hne
      | makes hpc hw' =>
        have hb' : co.acceptor ≠ .boot := by simp [hpc]
        obtain ⟨b, hb₁, -⟩ := hob.listen hb'
        have hsame : some b = some a := (hw'.frame hb₁).1.symm.trans ha
        cases hsame
        exact hold hb' hb₁
  · rcases hm.coro_cases ha hx with ⟨b, hb, hx⟩ | ⟨rfl, rfl, rfl, rfl⟩
    · exact hkeep (h.stored q b d x hb hx)
    · exact ⟨rfl, rfl, rfl⟩

end Fresh

/-! ### The invariant -/

/-- The kernel agrees with `io_state_`, and nothing but the rest of the flush loop is deferred when
the loop is in progress. -/
structure Synced (S : State) : Prop where
  threads : ThreadsOk S
  registered : S.w.Registered
  raw : ∀ sid via s, S.co.running = .session sid via → S.co.sessions sid = some s →
    S.w.Raw s.rawFds
  made : ∀ fd, S.co.running = .acceptor → S.co.acceptor = .made fd → fd = -1 ∨ S.w.Raw [fd]
  start : S.ctl = .coro .start → Fresh S.w S.co
  wait : S.ctl = .epollWait → S.w.Flushed ∨ Fresh S.w S.co
  flush : ∀ todo, S.ctl = .flush todo → (∀ p ∈ todo, p ∈ S.w.processedSockets) ∧
    ∀ p a, S.w.heap p = some a → p ∉ todo → a.ioState = S.w.eff p a

/-- While `run` has the thread, every managed object has a valid descriptor. -/
theorem ThreadsOk.fd_ne {S : State} (h : ThreadsOk S) (hin : S.ctl.inRun) {p : Addr}
    {a : AsyncFd Handle} (hp : p ∈ S.w.managedFd) (ha : S.w.heap p = some a) : a.fd ≠ -1 := by
  intro hfd
  obtain ⟨o, ho⟩ := h.objects.owned.owned p hp
  cases o with
  | acceptor =>
    obtain ⟨hb, rfl⟩ := ho
    obtain ⟨a', ha', hne, -⟩ := h.objects.listen hb
    rw [ha] at ha'
    cases ha'
    exact hne hfd
  | session sid r =>
    obtain ⟨s, hs, hp⟩ := ho
    obtain ⟨o, hpc⟩ := h.waiting.others sid s hs (by simp [h.idle hin])
    have hpc' := ((h.objects.session sid s hs).valid r p a hp ha hfd).2
    rw [hpc] at hpc'
    cases hpc'

theorem World.Registered.noteHangup {w : World Handle} (h : w.Registered) {e : Event}
    {a : AsyncFd Handle} (ha : w.heap e.ptr = some a) : (w.noteHangup e).Registered := by
  have hw := World.noteHangup_puts ha
  refine h.puts hw ha rfl rfl fun _ heff => ?_
  rwa [hw.toSets.eff_unmarked (a := a) rfl rfl]

/-- A resumed session has no descriptor without an object. -/
theorem Coros.raw_resume {w : World Handle} {co co' : Coros} {x : Handle}
    (hr : co.resume x = some co') :
    (∀ sid via s, co'.running = .session sid via → co'.sessions sid = some s → w.Raw s.rawFds) ∧
      ∀ fd, co'.running = .acceptor → co'.acceptor = .made fd → fd = -1 ∨ w.Raw [fd] := by
  rcases resume_cases hr with ⟨n, -, -, rfl⟩ | ⟨sid, s, o, -, hs, hpc, rfl⟩
  · simp
  · refine ⟨fun sid' via t hrun ht => ?_, by simp⟩
    cases hrun
    simp only [setSession, Function.update_self, Option.some.injEq] at ht
    subst ht
    exact .nil

theorem Synced.start_holds : Synced State.start where
  threads := .start
  registered := ⟨fun p a ha => (by cases ha), fun p a ha => (by cases ha), fun p a ha => (by cases ha)⟩
  raw sid via s hrun := by simp [State.start, Server.start, Coros.start] at hrun
  made fd _ hpc := by simp [State.start, Server.start, Coros.start] at hpc
  start _ := by
    refine ⟨fun o p a ho ha => (by cases ha), fun p a d x ha => (by cases ha)⟩
  wait hctl := by simp [State.start, Server.start] at hctl
  flush todo hctl := by simp [State.start, Server.start] at hctl

/-- One step of a coroutine, without the phases of `run`. -/
theorem Synced.coroutine {S : State} (h : Synced S) {c : Choice} {m : Move Handle Coros}
    {w' : World Handle} (hm : S.co.step c S.w = some m) (hw : Call.applyAll m.calls S.w = some w')
    (hok : EpollOk (.co c)) (hlive : m.status ≠ .exited) :
    w'.Registered ∧
      (∀ sid via s, m.next.running = .session sid via → m.next.sessions sid = some s →
        w'.Raw s.rawFds) ∧
      (∀ fd, m.next.running = .acceptor → m.next.acceptor = .made fd → fd = -1 ∨ w'.Raw [fd]) ∧
      (Fresh S.w S.co → Fresh w' m.next) := by
  have hob := h.threads.objects
  have hobj := EpollOk.object hok
  have hcase := Coros.step_cases hm
  rcases hcase.acceptor_or_session hw with
    ⟨hrun, hacc⟩ | ⟨sid, via, s, act, pr, hrun, hsid, hact, -, rfl⟩
  · have hboot : ∀ p fd b ok, c = .boot p fd b ok → b = true ∧ ok = true := by
      rintro p fd b ok rfl
      refine ⟨?_, hok⟩
      cases hcase with
      | boot => rfl
      | bootFail => exact absurd rfl hlive
      | session hrun' => rw [hrun] at hrun'; cases hrun'
    refine ⟨h.registered.accept hob (fun fd => h.made fd hrun) hacc hobj hboot, ?_, ?_,
      fun hf => hf.accept hob hacc⟩
    · intro sid via s hrun' hs
      generalize m.next = co' at *
      cases hacc with
      | makes =>
        cases hrun'
        simp only [Coros.setSession, Function.update_self, Option.some.injEq] at hs
        subst hs
        exact .nil
      | suspends => cases hrun'
      | _ => rw [hrun] at hrun'; cases hrun'
    · intro fd hrun' hpc
      generalize m.next = co' at *
      cases hacc with
      | @completes fd' a w₁ _ ha hw₁ hw' =>
        cases hpc
        rcases hw' with ⟨-, e⟩ | ⟨hfree, -, rfl⟩
        · exact Or.inl e
        · rw [hw₁.table] at hfree
          refine Or.inr ⟨List.nodup_singleton _, ?_, ?_⟩
          · simp [World.openFd]
          · simp only [List.mem_singleton, forall_eq, World.openFd, hw₁.interest]
            exact hob.kernel.interest_none hfree
      | boots | suspends | makes => cases hpc
      | bootFails e | exits e => rw [e] at hpc; cases hpc
  · have hok' := hob.session sid s hsid
    have hmv := Session.moves hact hw hok'.shape fun r p a hp ha e => (hok'.valid r p a hp ha e).2
    have hraw := h.raw sid via s hrun hsid
    have hne : act.after ≠ .exited := by
      intro e
      exact hlive (by simp [e, Coros.status])
    refine ⟨h.registered.moves hob hraw hmv hne hobj, ?_, ?_, fun hf => ?_⟩
    · intro sid' via' t hrun' ht
      have hnext := hact.raw hw hob.kernel hraw
      have ht : (S.co.settle sid via act.after).sessions sid' = some t := ht
      have hrun' : (S.co.settle sid via act.after).running = .session sid' via' := hrun'
      rw [Coros.settle_sessions hsid] at ht
      cases hafter : act.after with
      | running s' | again s' =>
        rw [hafter] at hrun' ht hnext
        have e : S.co.running = .session sid' via' := hrun'
        rw [hrun] at e
        cases e
        rw [Function.update_self] at ht
        exact hnext t ht
      | suspended s' | ended =>
        rw [hafter] at hrun'
        cases via <;> simp [Coros.settle, Coros.back] at hrun'
      | exited => exact absurd hafter hne
    · intro fd _ hpc
      have hmade : S.co.acceptor = .made fd :=
        (S.co.settle_acceptor sid via act.after).symm.trans hpc
      cases via with
      | true =>
        rw [h.threads.waiting.via sid hrun] at hmade
        cases hmade
      | false =>
        obtain ⟨n, hn⟩ := h.threads.waiting.acceptor (Or.inr ⟨sid, hrun⟩)
        rw [hn] at hmade
        cases hmade
    · have hf' := hf.moves hob hsid hact.not_susp hraw hmv hobj via
      exact ⟨hf'.masks, hf'.stored⟩

theorem Synced.step {S S' : State} {l : Label Choice} (h : Synced S) (hok : EpollOk l)
    (hs : S.step l = some S') (hlive : S'.ctl ≠ .exited) : Synced S' := by
  have hth := h.threads.step hs
  -- while `run` has the thread nobody runs
  have hrun : S.ctl.inRun → (∀ sid via, S.co.running ≠ .session sid via) ∧
      S.co.running ≠ .acceptor := by
    intro hin
    simp [h.threads.idle hin]
  cases Server.step_cases hs with
  | wait hctl _ hS | unmanaged hctl _ hS | noIn hctl _ _ hS | noOut hctl _ hS
  | sendNull hctl _ _ _ hS =>
    subst hS
    exact ⟨hth, h.registered, h.raw, h.made, by simp, by simp, by simp⟩
  | batchEnd hctl hS =>
    subst hS
    refine ⟨hth, h.registered, h.raw, h.made, by simp, by simp, fun todo htodo => ?_⟩
    cases htodo
    refine ⟨fun p hp => OrdSet.mem_elems.1 hp, fun p a ha hp => ?_⟩
    have hp : p ∉ S.w.processedSockets := fun hin => hp (OrdSet.mem_elems.2 hin)
    simp [World.eff, hp]
  | flushEnd hctl hS =>
    subst hS
    refine ⟨hth, h.registered, h.raw, h.made, by simp, fun _ => Or.inl fun p a ha => ?_, by simp⟩
    exact (h.flush [] hctl).2 p a ha (by simp)
  | recvNull hctl _ _ ha _ hS =>
    subst hS
    have hr := hrun (by rw [hctl]; rfl)
    exact ⟨hth, h.registered.noteHangup ha, fun sid via _ e => absurd e (hr.1 sid via),
      fun _ e => absurd e hr.2, by simp, by simp, by simp⟩
  | recv hctl _ _ ha _ hco hS =>
    subst hS
    obtain ⟨h1, h2⟩ := Coros.raw_resume hco
    exact ⟨hth, h.registered.noteHangup ha, h1, h2, by simp, by simp, by simp⟩
  | send hctl _ _ _ hco hS =>
    subst hS
    obtain ⟨h1, h2⟩ := Coros.raw_resume hco
    exact ⟨hth, h.registered, h1, h2, by simp, by simp, by simp⟩
  | @flush p todo a ok hctl ha hS =>
    subst hS
    have hin : S.ctl.inRun := by rw [hctl]; rfl
    have hr := hrun hin
    obtain ⟨hproc, hdone⟩ := h.flush _ hctl
    have hp := hproc p List.mem_cons_self
    have hfd := h.threads.fd_ne hin (h.threads.objects.owned.processed_managed p hp) ha
    have hok : ok = true := hok
    subst hok
    have hw := World.flushOne_sets ha true
    refine ⟨hth, h.registered.flushOne h.threads.objects.kernel ha hfd hp,
      fun sid via _ e => absurd e (hr.1 sid via), fun _ e => absurd e hr.2, by simp, by simp,
      fun todo' htodo => ?_⟩
    cases htodo
    refine ⟨fun q hq => (hw.processed q).2 (Or.inr (hproc q (List.mem_cons_of_mem _ hq))),
      fun q b hb hq => ?_⟩
    rcases hw.heap_cases hb with ⟨rfl, rfl⟩ | ⟨hne, hb⟩
    · rw [World.flushOne_eff ha hp]
      simp [World.eff, hp]
    · rw [hw.eff_of_ne hne]
      exact hdone q b hb (by simp [hne, hq])
  | @co k c m w' hctl hm hw hS =>
    subst hS
    obtain ⟨h1, h2, h3, h4⟩ := h.coroutine hm hw hok fun e => hlive (Status.control_eq_exited.2 e)
    have hfresh : k = .start → Fresh w' m.next := by
      rintro rfl
      exact h4 (h.start hctl)
    exact ⟨hth, h1, h2, h3, fun e => hfresh (Status.control_start (Or.inl e)),
      fun e => Or.inr (hfresh (Status.control_start (Or.inr e))),
      fun todo e => absurd e (Status.control_ne_flush _ _ _)⟩
  | env hco hS =>
    subst hS
    obtain ⟨pid, pr, -, -, rfl⟩ := Coros.env_cases hco
    refine ⟨hth, h.registered, h.raw, h.made, fun e => ?_, fun e => ?_, h.flush⟩
    · exact ⟨(h.start e).masks, (h.start e).stored⟩
    · exact (h.wait e).imp_right fun hf => ⟨hf.masks, hf.stored⟩

/-- A process that has exited stays so. -/
theorem State.exited_step {S S' : State} {l : Label Choice} (h : S.ctl = .exited)
    (hs : S.step l = some S') : S'.ctl = .exited := by
  cases Server.step_cases hs with
  | env _ hS => subst hS; exact h
  | wait hctl | batchEnd hctl | unmanaged hctl | noIn hctl | recvNull hctl | recv hctl | noOut hctl
  | sendNull hctl | send hctl | flushEnd hctl | flush hctl | co hctl => rw [h] at hctl; cases hctl

theorem synced_reach {ok : State → Label Choice → Prop}
    (hok : ∀ S l, ok S l → EpollOk l) {S : State}
    (h : Lts.Reach State.step ok State.start S) : S.ctl ≠ .exited → Synced S := by
  refine h.inv (I := fun S => S.ctl ≠ .exited → Synced S) (fun _ => .start_holds) ?_
  intro S l S' hS hl hst hlive
  exact (hS fun e => hlive (State.exited_step e hst)).step (hok S l hl) hst hlive

end EpollCoroutine
