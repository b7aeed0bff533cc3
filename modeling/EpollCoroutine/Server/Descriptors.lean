import EpollCoroutine.Lib.Accounts
import EpollCoroutine.Server.Pipes

/-!
# Who has which descriptor

Every descriptor that the server opens has a keeper, which closes it in the end or hands it over: an
object, the `accept` coroutine until it has constructed the `Socket` of a connection, a session
until it has given the descriptors of `pipe` and `pidfd_open` to its objects or closed them. What is
open before, the epoll instance of `IOContext` among it, is the process's until it exits.

* `Keeper`, `Coros.fds`: the keepers, and what each of them has.
* `Session.StepCase.turnover`: what a step of a session does to what it has.
* `State.losesFds`: the steps of `PipedAsyncCommand::init` after which descriptors are left open
  that nobody has: `attachReadonly` throws, or `pidfd_open` fails.
* `descriptors_kept`: in runs without such steps every open descriptor has exactly one keeper.
* `descriptors_lost`: what is lost stays open for ever.
* `descriptors_counted`: their number is bounded by that of the sessions.
-/

namespace EpollCoroutine

open Accounts

/-- Who can have a descriptor. -/
inductive Keeper
  | process
  | listening
  | accepted
  | session (sid : ℕ)
  deriving DecidableEq

/-- The descriptor is open. -/
def World.Opened (w : World Handle) (fd : Fd) : Prop := (w.table fd).isSome

/-- The descriptor of the object at `p`, if there is one. -/
def World.fdAt (w : World Handle) (p : Option Addr) : Multiset Fd :=
  match p.bind w.heap with
  | some a => if a.fd = -1 then 0 else {a.fd}
  | none => 0

/-- The descriptors of the objects of a session. -/
def Session.objFds (w : World Handle) (s : Session) : Multiset Fd :=
  w.fdAt (s.ptr .socket) + w.fdAt (s.ptr .readEnd) + w.fdAt (s.ptr .writeEnd) +
    w.fdAt (s.ptr .processWait)

/-- The descriptors that a session has. -/
def Session.fds (w : World Handle) (s : Session) : Multiset Fd := s.objFds w + s.rawFds

/-- The descriptors that a keeper has; those of `opened` are open when the listening `Socket` is
constructed. -/
def Coros.fds (opened : Finset ℕ) (w : World Handle) (co : Coros) : Keeper → Multiset Fd
  | .process => opened.val.map (↑)
  | .listening => if co.acceptor = .boot then 0 else w.fdAt (some co.listen)
  | .accepted =>
    match co.acceptor with
    | .made fd => if fd = -1 then 0 else {fd}
    | _ => 0
  | .session sid =>
    match co.sessions sid with
    | some s => s.fds w
    | none => 0

/-- The step leaves descriptors open that nobody has. -/
def Session.losesFds (w : World Handle) (s : Session) (c : Choice) : Bool :=
  match s.pc, c with
  | .attachRd, .object _ ok => !w.addSucceeds s.mFdR.1 ok
  | .attachPw fd, .object _ ok => !w.addSucceeds fd ok
  | .pidfdOpen, .failed => true
  | _, _ => false

/-- The running session leaves descriptors open that nobody has. -/
def State.losesFds (S : State) : Label Choice → Bool
  | .co c =>
    match S.co.running with
    | .session sid _ => (S.co.sessions sid).any fun s => s.losesFds S.w c
    | _ => false
  | _ => false

/-! ### The objects of a session -/

section Objects

variable {w w' : World Handle} {s s' : Session} {p : Addr} {a b : AsyncFd Handle} {m n : Bool}

theorem World.fdAt_none : w.fdAt none = 0 := rfl

theorem World.fdAt_some (ha : w.heap p = some a) (hfd : a.fd ≠ -1) : w.fdAt (some p) = {a.fd} := by
  simp [World.fdAt, ha, hfd]

/-- Only the descriptor of the object counts. -/
theorem World.fdAt_congr {q q' : Option Addr}
    (h : (q'.bind w'.heap).map AsyncFd.fd = (q.bind w.heap).map AsyncFd.fd) :
    w'.fdAt q' = w.fdAt q := by
  unfold World.fdAt
  cases hq : q.bind w.heap <;> cases hq' : q'.bind w'.heap <;> simp_all

theorem World.Sets.fdAt (hw : w.Sets w' p b m) (ha : w.heap p = some a) (hfd : b.fd = a.fd)
    (q : Option Addr) : w'.fdAt q = w.fdAt q := by
  refine World.fdAt_congr ?_
  cases q with
  | none => rfl
  | some q =>
    simp only [Option.bind_some, hw.heap, Function.update_apply]
    split_ifs with e
    · rw [e, ha]
      simp [hfd]
    · rfl

theorem World.Same.fdAt (hw : w.Same w') (q : Option Addr) : w'.fdAt q = w.fdAt q :=
  World.fdAt_congr (by rw [hw.heap])

/-- The objects at other addresses keep their descriptors. -/
theorem World.fdAt_update {x : Option (AsyncFd Handle)}
    (hw : w'.heap = Function.update w.heap p x) {q : Option Addr} (hq : q ≠ some p) :
    w'.fdAt q = w.fdAt q := by
  refine World.fdAt_congr ?_
  cases q with
  | none => rfl
  | some q =>
    have hqp : q ≠ p := fun e => hq (by rw [e])
    simp [hw, Function.update_of_ne hqp]

namespace Session

theorem objFds_congr (hptr : s'.ptr = s.ptr) (h : ∀ r, w'.fdAt (s.ptr r) = w.fdAt (s.ptr r)) :
    s'.objFds w' = s.objFds w := by
  simp only [objFds, hptr, h]

/-- A new object brings its descriptor. -/
theorem objFds_adds {r : Role} (hw : w.Adds w' p a m n) (hfd : a.fd ≠ -1) (hnone : s.ptr r = none)
    (hlive : ∀ r q, s.ptr r = some q → ∃ c, w.heap q = some c)
    (hptr : s'.ptr = Function.update s.ptr r (some p)) :
    s'.objFds w' = {a.fd} + s.objFds w := by
  have hp : w'.fdAt (some p) = {a.fd} :=
    World.fdAt_some (by rw [hw.heap, Function.update_self]) hfd
  have hother : ∀ r', r' ≠ r → w'.fdAt (s'.ptr r') = w.fdAt (s.ptr r') := by
    intro r' hr'
    rw [hptr, Function.update_of_ne hr']
    refine World.fdAt_update hw.heap fun e => ?_
    obtain ⟨c, hc⟩ := hlive r' p e
    rw [hw.free] at hc
    cases hc
  have hself : w'.fdAt (s'.ptr r) = {a.fd} + w.fdAt (s.ptr r) := by
    rw [hptr, Function.update_self, hp, hnone, World.fdAt_none, add_zero]
  simp only [objFds]
  cases r <;> rw [hself] <;> (repeat rw [hother _ (by simp)]) <;> abel

/-- An object that is destroyed takes its descriptor along. -/
theorem objFds_drops {r : Role} (hw : w.Drops w' p a) (hfd : a.fd ≠ -1) (hp : s.ptr r = some p)
    (hinj : ∀ r', s.ptr r' = some p → r' = r) (hptr : s'.ptr = Function.update s.ptr r none) :
    s'.objFds w' + {a.fd} = s.objFds w := by
  have hother : ∀ r', r' ≠ r → w.fdAt (s.ptr r') = w'.fdAt (s'.ptr r') := by
    intro r' hr'
    rw [hptr, Function.update_of_ne hr']
    exact (World.fdAt_update hw.heap fun e => hr' (hinj r' e)).symm
  have hself : w.fdAt (s.ptr r) = w'.fdAt (s'.ptr r) + {a.fd} := by
    rw [hptr, Function.update_self, hp, World.fdAt_some hw.live hfd, World.fdAt_none, zero_add]
  simp only [objFds]
  cases r <;> rw [hself] <;> (repeat rw [hother _ (by simp)]) <;> abel

end Session

end Objects

/-! ### The descriptor table -/

section Table

variable {w w' : World Handle} {fd fd' : Fd} {f g : File} {p : Addr} {a : AsyncFd Handle}

theorem World.opened_congr (h : w'.table = w.table) (x : Fd) : w'.Opened x ↔ w.Opened x := by
  simp only [World.Opened, h]

theorem World.opened_openFd (x : Fd) : (w.openFd fd f).Opened x ↔ w.Opened x ∨ x = fd := by
  simp only [World.Opened, World.openFd, Function.update_apply]
  split_ifs with e <;> simp [e]

theorem World.opened_closeFd (x : Fd) : (w.closeFd fd).Opened x ↔ w.Opened x ∧ x ≠ fd := by
  simp only [World.Opened, World.closeFd, Function.update_apply]
  split_ifs with e <;> simp [e]

theorem World.Drops.opened (hw : w.Drops w' p a) (x : Fd) :
    w'.Opened x ↔ w.Opened x ∧ x ∉ ({a.fd} : Multiset Fd) := by
  simp only [World.Opened, hw.table, Function.update_apply, Multiset.mem_singleton]
  split_ifs with e <;> simp [e]

/-- Two descriptors are closed. -/
theorem opened_close_two (hw : Call.applyAll [.closeFd fd, .closeFd fd'] w = some w') (x : Fd) :
    w'.Opened x ↔ w.Opened x ∧ x ∉ ({fd, fd'} : Multiset Fd) := by
  simp only [Call.applyAll_cons_iff, Call.applyAll_nil, Option.some.injEq, Call.apply] at hw
  obtain ⟨-, -, rfl⟩ := hw
  simp only [World.opened_closeFd, Multiset.insert_eq_cons, Multiset.mem_cons,
    Multiset.mem_singleton, not_or, and_assoc]

/-- A call has opened a descriptor. -/
theorem turnover_openFd {l l' : Multiset Fd} (hfree : w.table fd = none) (hl : l' = {fd} + l) :
    Turnover w.Opened (w.openFd fd f).Opened l l' {fd} 0 0 := by
  refine .takes (Multiset.nodup_singleton _) ?_ hl fun x => ?_
  · simp [World.Opened, hfree]
  · rw [World.opened_openFd, Multiset.mem_singleton]

/-- `pipe` has opened two descriptors. -/
theorem turnover_pipe {l l' : Multiset Fd}
    (hw : Call.applyAll [.openFd fd f, .openFd fd' g] w = some w') (hl : l' = {fd, fd'} + l) :
    Turnover w.Opened w'.Opened l l' {fd, fd'} 0 0 := by
  simp only [Call.applyAll_cons_iff, Call.applyAll_nil, Option.some.injEq, Call.enabled, Call.apply,
    Bool.and_eq_true, Option.isNone_iff_eq_none] at hw
  obtain ⟨⟨hfd, -⟩, ⟨hfd', -⟩, rfl⟩ := hw
  have hno : ¬ (w.openFd fd f).Opened fd' := by simp [World.Opened, hfd']
  rw [World.opened_openFd, not_or] at hno
  refine .takes ?_ ?_ hl fun x => ?_
  · simpa using fun e : fd = fd' => hno.2 e.symm
  · simp only [Multiset.insert_eq_cons, Multiset.mem_cons, Multiset.mem_singleton]
    rintro x (rfl | rfl)
    · simp [World.Opened, hfd]
    · exact hno.1
  · simp only [World.opened_openFd, Multiset.insert_eq_cons, Multiset.mem_cons,
      Multiset.mem_singleton, or_assoc]

end Table

/-! ### The steps of a session -/

/-- What is lost in a step that loses descriptors, or in one that does not. -/
def Loss (loses : Bool) (lost : Multiset Fd) : Prop := if loses then 2 ≤ lost.card else lost = 0

theorem Loss.none : Loss false 0 := rfl

namespace Session

variable {w w' : World Handle} {sid fresh : ℕ} {s : Session} {c : Choice} {act : Act}

/-- The first of a list of descriptors. -/
theorem coe_cons (fd : Fd) (l : List Fd) : ((fd :: l : List Fd) : Multiset Fd) = {fd} + l := rfl

/-- What a session has after a step, if it is still there. -/
def fdsNext (w' : World Handle) : Option Session → Multiset Fd
  | some s => s.fds w'
  | none => 0

/-- A session loses descriptors at three places only. -/
theorem losesFds_of (h : s.pc ≠ .attachRd ∧ (∀ fd, s.pc ≠ .attachPw fd) ∧ s.pc ≠ .pidfdOpen) :
    s.losesFds w c = false := by
  unfold losesFds
  split
  · rename_i hpc
    exact absurd hpc h.1
  · rename_i fd _ _ hpc
    exact absurd hpc (h.2.1 fd)
  · rename_i hpc
    exact absurd hpc h.2.2
  · rfl

/-- The session goes on after it has lost descriptors. -/
theorem StepCase.running_of_loses (h : StepCase w sid fresh s c act)
    (hl : s.losesFds w c = true) : ∃ s', act.after = .running s' := by
  have hpc : s.pc = .attachRd ∨ (∃ fd, s.pc = .attachPw fd) ∨ s.pc = .pidfdOpen := by
    by_contra hno
    simp only [not_or, not_exists] at hno
    rw [losesFds_of hno] at hl
    cases hl
  cases h with
  | block hpc' | error hpc' | close hpc' | again hpc' =>
    rw [hpc'] at hpc
    simp at hpc
  | _ => exact ⟨_, rfl⟩

/-- A session in the state `s` takes descriptors, gives them back, or loses them, and `next` is what
is left of it. -/
def Turns (w w' : World Handle) (s : Session) (next : Option Session) (loses : Bool) : Prop :=
  ∃ took gave lost, Turnover w.Opened w'.Opened (s.fds w) (fdsNext w' next) took gave lost ∧
    Loss loses lost

/-- No object changes. -/
theorem Turns.raw {s' : Session} {took gave lost : Multiset Fd} {loses : Bool} (hw : w.Same w')
    (hptr : s'.ptr = s.ptr)
    (ht : Turnover w.Opened w'.Opened (s.rawFds : Multiset Fd) s'.rawFds took gave lost)
    (hlost : Loss loses lost) : Turns w w' s (some s') loses := by
  refine ⟨took, gave, lost, ?_, hlost⟩
  rw [fdsNext, fds, fds, objFds_congr hptr fun r => hw.fdAt _]
  exact ht.frame _

/-- An object changes and keeps its descriptor. -/
theorem Turns.puts {s' : Session} {p : Addr} {a b : AsyncFd Handle} {m : Bool}
    (ha : w.heap p = some a) (hw : w.Puts w' p b m) (hfd : b.fd = a.fd) (hptr : s'.ptr = s.ptr)
    (hraw : s'.rawFds = s.rawFds) : Turns w w' s (some s') false := by
  refine ⟨0, 0, 0, .keeps ?_ (World.opened_congr hw.table), Loss.none⟩
  rw [fdsNext, fds, fds, objFds_congr hptr fun r => hw.toSets.fdAt ha hfd _, hraw]

/-- An object is constructed on a descriptor. -/
theorem Turns.attaches {s' : Session} {r : Role} {p : Addr} {a : AsyncFd Handle} {m n : Bool}
    {loses : Bool} (lost : Multiset Fd) (hw : w.Adds w' p a m n) (hfd : 0 ≤ a.fd)
    (hnone : s.ptr r = none) (hlive : ∀ r p, s.ptr r = some p → ∃ a, w.heap p = some a)
    (hptr : s'.ptr = Function.update s.ptr r (some p))
    (hraw : (s.rawFds : Multiset Fd) = {a.fd} + s'.rawFds + lost)
    (hlost : Loss loses lost) : Turns w w' s (some s') loses := by
  have hne : a.fd ≠ -1 := by
    intro e
    rw [e] at hfd
    exact absurd hfd (by decide)
  refine ⟨0, 0, lost, .loses ?_ (World.opened_congr hw.table), hlost⟩
  rw [fdsNext, fds, fds, objFds_adds hw hne hnone hlive hptr, hraw]
  abel

/-- An object is destroyed. -/
theorem Turns.drops {s' : Session} {r : Role} {p : Addr} {a : AsyncFd Handle} (hw : w.Drops w' p a)
    (hfd : a.fd ≠ -1) (hp : s.ptr r = some p) (hinj : ∀ r', s.ptr r' = some p → r' = r)
    (hptr : s'.ptr = Function.update s.ptr r none) (hraw : s'.rawFds = s.rawFds) :
    Turns w w' s (some s') false := by
  refine ⟨0, {a.fd}, 0, .gives ?_ hw.opened, Loss.none⟩
  rw [fdsNext, fds, fds, ← objFds_drops hw hfd hp hinj hptr, hraw]
  abel

/-- The last object is destroyed. -/
theorem Turns.closes {p : Addr} {a : AsyncFd Handle} (hw : w.Drops w' p a) (hfd : a.fd ≠ -1)
    (hp : s.ptr .socket = some p) (hnone : ∀ r, r ≠ .socket → s.ptr r = none)
    (hraw : s.rawFds = []) : Turns w w' s none false := by
  refine ⟨0, {a.fd}, 0, .gives ?_ hw.opened, Loss.none⟩
  rw [fdsNext, fds, objFds, hp, World.fdAt_some hw.live hfd, hnone _ (by simp), hnone _ (by simp),
    hnone _ (by simp), World.fdAt_none, hraw]
  simp

/-- Two descriptors without an object are closed. -/
theorem Turns.closeTwo {s' : Session} {fd fd' : Fd}
    (hw : Call.applyAll [.closeFd fd, .closeFd fd'] w = some w') (hptr : s'.ptr = s.ptr)
    (hraw : (s.rawFds : Multiset Fd) = {fd, fd'}) (hraw' : s'.rawFds = []) :
    Turns w w' s (some s') false := by
  refine .raw (Call.applyAll_raw (by simp [Call.isRaw]) hw) hptr
    (.gives ?_ (opened_close_two hw)) Loss.none
  rw [hraw', hraw, Multiset.coe_nil, zero_add]

/-- The descriptors of a place are those of another one, in a different order. -/
theorem raw_eq {l l' : List Fd} (h : l.Perm l') : (l : Multiset Fd) = l' := Multiset.coe_eq_coe.2 h

/-- A step of a session takes descriptors, gives them back, or loses them. -/
theorem StepCase.turns (h : StepCase w sid fresh s c act)
    (hw : Call.applyAll act.calls w = some w') (hok : s.Ok w)
    (hlive : ∀ r p, s.ptr r = some p → ∃ a, w.heap p = some a)
    (hinj : ∀ r r' p, s.ptr r = some p → s.ptr r' = some p → r' = r) :
    Turns w w' s (act.after.next s) (s.losesFds w c) := by
  have hvalid : ∀ {r p a}, r ≠ .socket → s.ptr r = some p → w.heap p = some a → a.fd ≠ -1 :=
    fun hr hp ha e => hr (hok.valid _ _ _ hp ha e).1
  cases h with
  | @value o p r hpc hp ha hr =>
    obtain ⟨a, ha, hput⟩ := watchCalls_unwatch hw
    rw [After.next, losesFds_of (by simp [hpc])]
    exact .puts ha hput rfl (complete_rest s o r _).1 (by rw [rawFds_complete]; simp [rawFds, hpc])
  | @block o p r hpc hp ha hr hb =>
    obtain ⟨a, ha, hput⟩ := watchCalls_suspend hw
    rw [After.next, losesFds_of (by simp [hpc])]
    exact .puts ha hput (by simp) rfl (by simp [rawFds, hpc])
  | @error o p r hpc hp ho =>
    obtain ⟨a, ha, hput⟩ := watchCalls_alone ho hw
    rw [After.next, losesFds_of (by simp [hpc])]
    exact .puts ha hput (by simp) rfl rfl
  | @retry o p r hpc hp ha =>
    simp only [Call.applyAll_cons_iff, Call.applyAll_nil, Option.some.injEq] at hw
    obtain ⟨h1, rfl⟩ := hw
    obtain ⟨a, ha⟩ := Option.isSome_iff_exists.1 h1
    rw [After.next, losesFds_of (by simp [hpc])]
    exact .puts ha (World.unwatch_puts ha o.dir) rfl (complete_rest s o r _).1
      (by rw [rawFds_complete]; simp [rawFds, hpc])
  | @pipeW r wr hpc | @pipeR r wr hpc =>
    rw [After.next, losesFds_of (by simp [hpc])]
    refine .raw (Call.applyAll_raw (by simp [Call.isRaw]) hw) rfl (turnover_pipe hw ?_) .none
    simp only [rawFds, hpc, coe_cons, Multiset.coe_nil, Multiset.insert_eq_cons,
      ← Multiset.singleton_add]
    abel
  | pipeWFail hpc | fork hpc | cleaned hpc | again hpc =>
    cases hw
    rw [After.next, losesFds_of (by simp [hpc])]
    refine .raw .rfl' rfl (.keeps ?_ fun _ => Iff.rfl) .none
    simp [rawFds, hpc]
  | pipeRFail hpc =>
    rw [After.next, losesFds_of (by simp [hpc])]
    exact .closeTwo hw rfl (by rw [rawFds, hpc]; rfl) rfl
  | forkFail hpc | closeEnds hpc =>
    rw [After.next, losesFds_of (by simp [hpc])]
    exact .closeTwo hw rfl (by rw [rawFds, hpc]; exact raw_eq (.swap _ _ _)) rfl
  | @attachRd p ok hpc =>
    simp only [Call.applyAll_cons_iff, Call.applyAll_nil, Option.some.injEq] at hw
    obtain ⟨hfree, -, rfl⟩ := hw
    have hadd := World.attachReadonly_adds (by simpa [Call.enabled] using hfree) s.mFdR.1 ok
    simp only [After.next, losesFds, hpc]
    by_cases hs : w.addSucceeds s.mFdR.1 ok
    · rw [hs]
      refine .attaches 0 hadd (hok.shape.rValid hpc) (hok.shape.ptr_none (by rw [hpc]; rfl)) hlive
        rfl ?_ .none
      simp only [rawFds, hpc, if_true, coe_cons, Multiset.coe_nil, setPtr]
      abel
    · -- `init` has thrown: the other three descriptors stay open
      rw [Bool.not_eq_true] at hs
      rw [hs]
      refine .attaches {s.mFdR.2, s.mFdW.2, s.mFdW.1} hadd (hok.shape.rValid hpc)
        (hok.shape.ptr_none (by rw [hpc]; rfl)) hlive rfl ?_ (by simp [Loss])
      simp only [rawFds, hpc, Bool.false_eq_true, if_false, coe_cons, Multiset.coe_nil,
        Multiset.insert_eq_cons, ← Multiset.singleton_add]
      abel
  | @attachWr p ok hpc =>
    simp only [Call.applyAll_cons_iff, Call.applyAll_nil, Option.some.injEq] at hw
    obtain ⟨hfree, -, rfl⟩ := hw
    rw [After.next, losesFds_of (by simp [hpc])]
    refine .attaches 0
      (World.attachLogged_adds (by simpa [Call.enabled] using hfree) s.mFdW.2 _ ok)
      (hok.shape.wValid (Or.inr (Or.inr hpc))) (hok.shape.ptr_none (by rw [hpc]; rfl)) hlive rfl ?_
      .none
    simp only [rawFds, hpc, coe_cons, Multiset.coe_nil, setPtr]
    abel
  | @pidfdOpen fd hpc =>
    simp only [Call.applyAll_cons_iff, Call.applyAll_nil, Option.some.injEq, Call.enabled,
      Bool.and_eq_true, Option.isNone_iff_eq_none] at hw
    obtain ⟨⟨hfree, -⟩, rfl⟩ := hw
    simp only [After.next, losesFds, hpc]
    refine .raw ⟨rfl, rfl, rfl⟩ rfl (turnover_openFd hfree ?_) .none
    simp only [rawFds, hpc, coe_cons]
  | pidfdFail hpc =>
    cases hw
    simp only [After.next, losesFds, hpc]
    have ht : Turnover w.Opened w.Opened (s.rawFds : Multiset Fd) 0 0 0 {s.mFdR.2, s.mFdW.1} :=
      .loses (by rw [rawFds, hpc]; rfl) fun _ => Iff.rfl
    exact .raw .rfl' rfl ht (by simp [Loss])
  | @attachPw fd p ok hpc =>
    simp only [Call.applyAll_cons_iff, Call.applyAll_nil, Option.some.injEq] at hw
    obtain ⟨hfree, -, rfl⟩ := hw
    have hadd := World.attachReadonly_adds (by simpa [Call.enabled] using hfree) fd ok
    simp only [After.next, losesFds, hpc]
    by_cases hs : w.addSucceeds fd ok
    · rw [hs]
      refine .attaches 0 hadd (hok.shape.pidfdValid fd hpc)
        (hok.shape.ptr_none (by rw [hpc]; rfl)) hlive rfl ?_ .none
      simp only [rawFds, hpc, if_true, coe_cons, Multiset.coe_nil, setPtr]
      abel
    · -- `init` has thrown: the child's ends of the pipes stay open
      rw [Bool.not_eq_true] at hs
      rw [hs]
      refine .attaches {s.mFdR.2, s.mFdW.1} hadd (hok.shape.pidfdValid fd hpc)
        (hok.shape.ptr_none (by rw [hpc]; rfl)) hlive rfl ?_ (by simp [Loss])
      simp only [rawFds, hpc, Bool.false_eq_true, if_false, coe_cons, Multiset.coe_nil,
        Multiset.insert_eq_cons, ← Multiset.singleton_add]
      abel
  | @finishwriting p hpc hp =>
    obtain ⟨a, ha⟩ := live_of_calls (Or.inr hw)
    have hfd := hvalid (by simp) hp ha
    rw [After.next, losesFds_of (by simp [hpc])]
    exact .drops (drops_of_finish ha hfd hw) hfd hp (fun r' => hinj _ r' p hp) rfl
      (by simp [rawFds, hpc])
  | @finishReading p hpc hp =>
    obtain ⟨a, ha⟩ := live_of_calls (Or.inr hw)
    have hfd := hvalid (by simp) hp ha
    rw [After.next, losesFds_of (by simp [hpc])]
    exact .drops (drops_of_finish ha hfd hw) hfd hp (fun r' => hinj _ r' p hp) rfl
      (by rw [rawFds_sendHead]; simp [rawFds, hpc])
  | @cleanup t r p hpc hr hp =>
    obtain ⟨a, ha⟩ := live_of_calls (d := .read) (Or.inl hw)
    have hfd := hvalid hr hp ha
    rw [After.next, losesFds_of (by simp [hpc])]
    exact .drops (drops_of_destroy ha hfd hw) hfd hp (fun r' => hinj _ r' p hp) rfl
      (by simp [rawFds, hpc, setPtr])
  | @close t c p hpc hp =>
    obtain ⟨a, ha⟩ := live_of_calls (d := .read) (Or.inl hw)
    have hfd : a.fd ≠ -1 := fun e => by
      have := (hok.valid _ _ _ hp ha e).2
      rw [hpc] at this
      cases this
    rw [After.next, losesFds_of (by simp [hpc])]
    refine .closes (drops_of_destroy ha hfd hw) hfd hp (fun r hr => ?_) (by simp [rawFds, hpc])
    exact hok.shape.ptr_none (by rw [hpc]; cases r <;> simp_all [Pc.holds])

end Session

/-! ### The steps of the server -/

/-- What a step does to the accounts: one keeper takes, gives back or loses descriptors, or one
keeper hands something over to another. -/
inductive FdMoves (opened : Finset ℕ) (w w' : World Handle) (co co' : Coros) : Bool → Prop
  | turns {k : Keeper} {l' took gave lost : Multiset Fd} {loses : Bool}
      (ht : Turnover w.Opened w'.Opened (co.fds opened w k) l' took gave lost)
      (hfds : co'.fds opened w' = Function.update (co.fds opened w) k l')
      (hlost : Loss loses lost) : FdMoves opened w w' co co' loses
  | transfers (k k' : Keeper) (ht : Transfer (co.fds opened w) (co'.fds opened w') k k')
      (hopened : ∀ x, w'.Opened x ↔ w.Opened x) : FdMoves opened w w' co co' false

section Moves

variable {opened : Finset ℕ} {w w' : World Handle} {co co' : Coros} {loses : Bool}

/-- Nothing that matters to the accounts happens. -/
theorem FdMoves.same (hfds : co'.fds opened w' = co.fds opened w) (htable : w'.table = w.table) :
    FdMoves opened w w' co co' false :=
  .turns (k := .listening) (.keeps rfl (World.opened_congr htable))
    (by rw [hfds, Function.update_eq_self]) Loss.none

theorem FdMoves.exclusive (h : FdMoves opened w w' co co' loses)
    (hex : Exclusive (co.fds opened w) w.Opened) : Exclusive (co'.fds opened w') w'.Opened := by
  cases h with
  | turns ht hfds =>
    rw [hfds]
    exact hex.turnover ht
  | transfers _ _ ht hopened =>
    rw [show w'.Opened = w.Opened from funext fun x => propext (hopened x)]
    exact hex.transfer ht

theorem FdMoves.covered (h : FdMoves opened w w' co co' false)
    (hc : Covered (co.fds opened w) w.Opened) : Covered (co'.fds opened w') w'.Opened := by
  cases h with
  | @turns k l' took gave lost _ ht hfds hlost =>
    have h0 : lost = 0 := hlost
    rw [h0] at ht
    rw [hfds]
    exact hc.turnover ht
  | transfers _ _ ht hopened =>
    rw [show w'.Opened = w.Opened from funext fun x => propext (hopened x)]
    exact hc.transfer ht

theorem Coros.fds_listening (hb : co.acceptor ≠ .boot) :
    co.fds opened w .listening = w.fdAt (some co.listen) := if_neg hb

/-- Everybody keeps what he has while his objects keep their descriptors. -/
theorem Coros.fds_congr (hl : co'.acceptor = .boot ↔ co.acceptor = .boot)
    (hlisten : co.acceptor ≠ .boot → w'.fdAt (some co'.listen) = w.fdAt (some co.listen))
    (hacc : co'.fds opened w' .accepted = co.fds opened w .accepted)
    (hs : ∀ sid, co'.fds opened w' (.session sid) = co.fds opened w (.session sid)) :
    co'.fds opened w' = co.fds opened w := by
  funext k
  cases k with
  | process => rfl
  | listening =>
    simp only [Coros.fds, hl]
    split_ifs with hb
    · rfl
    · exact hlisten hb
  | accepted => exact hacc
  | session sid => exact hs sid

/-- A step of a session. -/
theorem FdMoves.session {sid : ℕ} {via : Bool} {s : Session} {c : Choice} {act : Act} {pr : Procs}
    (hob : ObjectsOk w co) (hs : co.sessions sid = some s)
    (hact : Session.StepCase w sid co.nextFrame s c act)
    (hw : Call.applyAll act.calls w = some w') :
    FdMoves opened w w' co { co.settle sid via act.after with procs := pr } (s.losesFds w c) := by
  have hok := hob.session sid s hs
  have hmoves := Session.moves hact hw hok.shape fun r p a hp ha e => (hok.valid r p a hp ha e).2
  have hlive : ∀ r p, s.ptr r = some p → ∃ a, w.heap p = some a := fun r p hp =>
    hob.owned.live (.session sid r) p ⟨s, hs, hp⟩
  have hinj : ∀ r r' p, s.ptr r = some p → s.ptr r' = some p → r' = r := by
    intro r r' p hp hp'
    have := hob.owned.inj (.session sid r') (.session sid r) p ⟨s, hs, hp'⟩ ⟨s, hs, hp⟩
    cases this
    rfl
  obtain ⟨took, gave, lost, ht, hlost⟩ := hact.turns hw hok hlive hinj
  have hold : co.fds opened w (.session sid) = s.fds w := by simp [Coros.fds, hs]
  have hb : co.acceptor ≠ .boot := fun e => by simp [hob.boot e sid] at hs
  -- the object of another owner keeps its descriptor
  have hframe : ∀ {o : Owner} {q : Addr}, co.Owns o q → (∀ r, o ≠ .session sid r) →
      w'.fdAt (some q) = w.fdAt (some q) := by
    intro o q ho hne
    exact World.fdAt_congr (by simp [(hob.frame hs hmoves ho hne).1])
  rw [← hold] at ht
  refine .turns ht (funext fun k => ?_) hlost
  have hsessions : ({ co.settle sid via act.after with procs := pr } : Coros).sessions =
      Function.update co.sessions sid (act.after.next s) := Coros.settle_sessions hs via act.after
  cases k with
  | process => rw [Function.update_of_ne (by simp)]; rfl
  | listening =>
    rw [Function.update_of_ne (by simp)]
    simp only [Coros.fds, Coros.settle_acceptor, Coros.settle_listen, if_neg hb]
    exact hframe (o := .acceptor) ⟨hb, rfl⟩ (by simp)
  | accepted =>
    rw [Function.update_of_ne (by simp)]
    simp only [Coros.fds, Coros.settle_acceptor]
  | session sid' =>
    by_cases e : sid' = sid
    · subst e
      rw [Function.update_self, Coros.fds, hsessions, Function.update_self]
      cases act.after.next s <;> rfl
    · rw [Function.update_of_ne (by simpa using e), Coros.fds, hsessions, Function.update_of_ne e,
        Coros.fds]
      cases ht' : co.sessions sid' with
      | none => rfl
      | some t =>
        simp only [Session.fds]
        rw [Session.objFds_congr rfl fun r => ?_]
        cases hp : t.ptr r with
        | none => rfl
        | some q =>
          refine hframe (o := .session sid' r) ⟨t, ht', hp⟩ fun r' h => e ?_
          cases h
          rfl

/-- The sessions have what they had. -/
theorem Coros.AcceptMoves.fds_session {c : Choice} (hob : ObjectsOk w co)
    (hm : Coros.AcceptMoves w w' co c co') (sid : ℕ)
    (hs : co'.sessions sid = co.sessions sid) :
    co'.fds opened w' (.session sid) = co.fds opened w (.session sid) := by
  rw [Coros.fds, hs, Coros.fds]
  cases ht : co.sessions sid with
  | none => rfl
  | some t =>
    simp only [Session.fds]
    rw [Session.objFds_congr rfl fun r => ?_]
    cases hp : t.ptr r with
    | none => rfl
    | some q =>
      refine World.fdAt_congr ?_
      have ho : co.Owns (.session sid r) q := ⟨t, ht, hp⟩
      simp [(hob.frame_accept hm ho).1]

/-- The number of the next session is new. -/
theorem Coros.sessions_nextFrame
    (hfresh : ∀ sid s, co.sessions sid = some s → sid < co.nextFrame) :
    co.sessions co.nextFrame = none := by
  by_contra hne
  obtain ⟨s, hs⟩ := Option.ne_none_iff_exists'.1 hne
  exact lt_irrefl _ (hfresh _ s hs)

/-- A step of the `accept` coroutine, once there is a listening `Socket`. -/
theorem FdMoves.accept {c : Choice} (hob : ObjectsOk w co)
    (hm : Coros.AcceptMoves w w' co c co') (hb : co.acceptor ≠ .boot) :
    FdMoves opened w w' co co' false := by
  have hses : ∀ sid, co'.sessions sid = co.sessions sid →
      co'.fds opened w' (.session sid) = co.fds opened w (.session sid) := hm.fds_session hob
  cases hm with
  | boots hpc | bootFails hpc => exact absurd hpc hb
  | @completes fd a w₁ hpc ha hw₁ hw' hsame =>
    have hnone : co.fds opened w .accepted = 0 := by
      rcases hpc with hpc | hpc <;> simp [Coros.fds, hpc]
    have hlisten : w'.fdAt (some co.listen) = w.fdAt (some co.listen) :=
      (hsame.fdAt _).trans (hw₁.toSets.fdAt ha rfl _)
    rcases hw' with ⟨rfl, rfl⟩ | ⟨hfree, hfd, rfl⟩
    · -- the retry has failed: the `Socket` will have no descriptor
      exact .same (Coros.fds_congr (by simp [hb]) (fun _ => hlisten) (by rw [hnone]; rfl)
        fun sid => hses sid rfl) hw₁.table
    · have hne : fd ≠ -1 := by
        rintro rfl
        exact absurd hfd (by decide)
      have hopened : w₁.Opened = w.Opened := funext fun x =>
        propext (World.opened_congr hw₁.table x)
      refine .turns (k := .accepted) (hopened ▸ turnover_openFd hfree rfl) (funext fun k => ?_)
        Loss.none
      cases k with
      | process => rw [Function.update_of_ne (by simp)]; rfl
      | listening =>
        rw [Function.update_of_ne (by simp)]
        rw [Coros.fds_listening (by simp), Coros.fds_listening hb]
        exact hlisten
      | accepted => rw [Function.update_self, hnone]; exact if_neg hne
      | session sid => rw [Function.update_of_ne (by simp)]; exact hses sid rfl
  | suspends hpc ha hw' =>
    refine .same (Coros.fds_congr (by simp [hb]) (fun _ => hw'.toSets.fdAt ha (by simp) _)
      (by simp [Coros.fds, hpc]) fun sid => hses sid rfl) hw'.table
  | exits hpc ha hw' =>
    exact .same (Coros.fds_congr Iff.rfl (fun _ => hw'.toSets.fdAt ha (by simp) _) rfl
      fun sid => hses sid rfl) hw'.table
  | @makes fd p oid b hpc hw' =>
    have hlisten : w'.fdAt (some co.listen) = w.fdAt (some co.listen) := by
      obtain ⟨a, ha, -⟩ := hob.listen hb
      exact World.fdAt_congr (by simp [(hw'.frame ha).1, ha])
    have hnew := Coros.sessions_nextFrame hob.fresh
    have hp : w'.fdAt (some p) = if fd = -1 then 0 else {fd} := by
      simp only [World.fdAt, Option.bind_some, hw'.heap, Function.update_self]
    refine .transfers .accepted (.session co.nextFrame) ⟨by simp, ?_, fun j hj hj' => ?_⟩
      (World.opened_congr hw'.table)
    · -- the descriptor goes to the `Socket` of the new session
      simp [Coros.fds, Coros.setSession, hpc, hnew, Session.fds, Session.objFds, Session.start,
        Session.rawFds, hp, World.fdAt_none]
    · cases j with
      | process => rfl
      | listening =>
        rw [Coros.fds_listening (by simp), Coros.fds_listening hb]
        exact hlisten
      | accepted => exact absurd rfl hj
      | session sid =>
        have hne : sid ≠ co.nextFrame := fun e => hj' (by rw [e])
        exact hses sid (by simp [Coros.setSession, Function.update_of_ne hne])

/-- The construction of the listening `Socket`. -/
theorem FdMoves.boot {p : Addr} {fd : Fd} {ok : Bool} (hob : ObjectsOk w co)
    (hpc : co.acceptor = .boot)
    (hw : Call.applyAll [.openFd fd .listening, .create p fd, .attach p ok, .watch .read p] w =
      some w') :
    FdMoves opened w w' co { co with listen := p, acceptor := .call } false := by
  simp only [Call.applyAll_cons_iff, Call.applyAll_nil, Option.some.injEq] at hw
  obtain ⟨hfd, hfree, -, -, hw⟩ := hw
  simp only [Call.enabled, Bool.and_eq_true, decide_eq_true_eq, Option.isNone_iff_eq_none] at hfd
  have hne : fd ≠ -1 := by
    rintro rfl
    exact absurd hfd.2 (by decide)
  have hadd := World.attachLogged_adds (w := w.openFd fd .listening)
    (by simpa [Call.enabled, Call.apply] using hfree) fd (EPOLLIN ||| EPOLLET) ok
  have hput := World.watch_puts (w := ((w.openFd fd .listening).create p fd).attach p ok) (p := p)
    (by rw [World.attach, hadd.heap, Function.update_self]) .read
  rw [show (((w.openFd fd .listening).create p fd).attach p ok).watch .read p = w' from hw] at hput
  have hopened : w'.Opened = (w.openFd fd .listening).Opened :=
    funext fun x => propext (World.opened_congr (hput.table.trans hadd.table) x)
  have ht : Turnover w.Opened w'.Opened (co.fds opened w .listening) {fd} {fd} 0 0 := by
    rw [hopened, show co.fds opened w .listening = 0 by simp [Coros.fds, hpc]]
    exact turnover_openFd hfd.1 rfl
  refine .turns ht (funext fun k => ?_) Loss.none
  · cases k with
    | process => rw [Function.update_of_ne (by simp)]; rfl
    | listening =>
      rw [Function.update_self, Coros.fds_listening (by simp)]
      exact World.fdAt_some (by rw [hput.heap, Function.update_self]) hne
    | accepted => simp [Coros.fds, hpc]
    | session sid => simp [Coros.fds, hob.boot hpc sid]

/-- What nobody has stays open. -/
theorem FdMoves.orphan (h : FdMoves opened w w' co co' loses) {fd : Fd}
    (ho : Orphan (co.fds opened w) w.Opened fd) : Orphan (co'.fds opened w') w'.Opened fd := by
  cases h with
  | turns ht hfds =>
    rw [hfds]
    exact ho.turnover ht
  | transfers _ _ ht hopened =>
    rw [show w'.Opened = w.Opened from funext fun x => propext (hopened x)]
    exact ho.transfer ht

/-- A step that loses descriptors leaves at least two of them to nobody. -/
theorem FdMoves.orphans (h : FdMoves opened w w' co co' true)
    (hex : Exclusive (co.fds opened w) w.Opened) :
    ∃ lost : Multiset Fd, 2 ≤ lost.card ∧ lost.Nodup ∧
      ∀ fd ∈ lost, Orphan (co'.fds opened w') w'.Opened fd := by
  cases h with
  | @turns k l' took gave lost _ ht hfds hlost =>
    rw [hfds]
    exact ⟨lost, hlost, (Multiset.nodup_add.1 (Multiset.nodup_add.1 (ht.nodup_after hex)).2.1).2.1,
      fun fd hfd => ht.orphan hex hfd⟩

/-- What somebody has depends on the descriptors of his objects only. -/
theorem Coros.fds_world (h : ∀ q, w'.fdAt q = w.fdAt q) : co.fds opened w' = co.fds opened w := by
  refine Coros.fds_congr Iff.rfl (fun _ => h _) rfl fun sid => ?_
  rw [Coros.fds, Coros.fds]
  cases co.sessions sid with
  | none => rfl
  | some s => simp only [Session.fds, Session.objFds, h]

/-- A resumed coroutine has what it had. -/
theorem Coros.fds_resume {x : Handle} (hr : co.resume x = some co') :
    co'.fds opened w = co.fds opened w := by
  rcases Coros.resume_cases hr with ⟨n, -, hn, rfl⟩ | ⟨sid, s, o, -, hs, hpc, rfl⟩
  · exact Coros.fds_congr (by simp [hn]) (fun _ => rfl) (by simp [Coros.fds, hn]) fun sid => rfl
  · refine Coros.fds_congr Iff.rfl (fun _ => rfl) rfl fun sid' => ?_
    by_cases e : sid' = sid
    · subst e
      simp [Coros.fds, Coros.setSession, hs, Session.fds, Session.objFds, Session.rawFds, hpc]
    · simp [Coros.fds, Coros.setSession, Function.update_of_ne e]

end Moves

variable {opened : Finset ℕ}

/-- The `accept` coroutine loses nothing. -/
theorem State.losesFds_acceptor {S : State} {l : Label Choice} (hrun : S.co.running = .acceptor) :
    S.losesFds l = false := by
  cases l <;> simp [State.losesFds, hrun]

/-- The process does not exit in a step that loses descriptors. -/
theorem State.live_of_loses {S S' : State} {l : Label Choice} (hl : S.losesFds l = true)
    (hs : S.step l = some S') : S.ctl ≠ .exited ∧ S'.ctl ≠ .exited := by
  cases Server.step_cases hs with
  | @co k c m w' hctl hm hw hS =>
    subst hS
    refine ⟨by simp [hctl], fun he => ?_⟩
    rcases (Coros.step_cases hm).acceptor_or_session hw with
      ⟨hrun, -⟩ | ⟨sid, via, s, act, pr, hrun, hsid, hact, -, rfl⟩
    · rw [State.losesFds_acceptor hrun] at hl
      cases hl
    · simp only [State.losesFds, hrun, hsid, Option.any_some] at hl
      obtain ⟨s', hs'⟩ := hact.running_of_loses hl
      have hex := Status.control_eq_exited.1 he
      rw [hs'] at hex
      cases hex
  | _ => simp [State.losesFds] at hl

/-- A step of the server. -/
theorem FdMoves.step {S S' : State} {l : Label Choice} (hob : ObjectsOk S.w S.co)
    (hs : S.step l = some S') (hlive : S'.ctl ≠ .exited) :
    FdMoves opened S.w S'.w S.co S'.co (S.losesFds l) := by
  cases Server.step_cases hs with
  | wait _ _ hS | batchEnd _ hS | unmanaged _ _ hS | noIn _ _ _ hS | noOut _ _ hS
  | sendNull _ _ _ _ hS | flushEnd _ hS => subst hS; exact .same rfl rfl
  | recvNull _ _ _ ha _ hS =>
    subst hS
    have hput := World.noteHangup_puts ha
    exact .same (Coros.fds_world fun q => hput.toSets.fdAt ha rfl q) hput.table
  | recv _ _ _ ha _ hco hS =>
    subst hS
    have hput := World.noteHangup_puts ha
    exact .same ((Coros.fds_world fun q => hput.toSets.fdAt ha rfl q).trans (Coros.fds_resume hco))
      hput.table
  | send _ _ _ _ hco hS => subst hS; exact .same (Coros.fds_resume hco) rfl
  | @flush p todo a ok _ ha hS =>
    subst hS
    have hset := World.flushOne_sets ha ok
    exact .same (Coros.fds_world fun q => hset.fdAt ha rfl q) (World.flushOne_table p a ok)
  | @co k c m w' _ hm hw hS =>
    subst hS
    have hm := Coros.step_cases hm
    by_cases hb : S.co.acceptor = .boot
    · cases hm with
      | boot hrun hpc =>
        rw [State.losesFds_acceptor hrun]
        exact .boot hob hpc hw
      | bootFail => exact absurd rfl hlive
      | acceptOk _ hpc | acceptBlock _ hpc | acceptFail _ hpc | retryOk _ hpc | retryFail _ hpc
      | made _ hpc => rw [hb] at hpc; cases hpc
      | session _ hsid => simp [hob.boot hb] at hsid
    · rcases hm.acceptor_or_session hw with
        ⟨hrun, hacc⟩ | ⟨sid, via, s, act, pr, hrun, hsid, hact, -, rfl⟩
      · rw [State.losesFds_acceptor hrun]
        exact .accept hob hacc hb
      · simp only [State.losesFds, hrun, hsid, Option.any_some]
        exact .session hob hsid hact hw
  | env hco hS =>
    subst hS
    obtain ⟨pid, pr, -, -, rfl⟩ := Coros.env_cases hco
    exact .same (Coros.fds_congr Iff.rfl (fun _ => rfl) rfl fun sid => rfl) rfl

/-- When `main` begins only the process has something. -/
theorem Coros.fds_start (k : Keeper) :
    Coros.start.fds opened w k = if k = .process then opened.val.map (↑) else 0 := by
  cases k <;> rfl

/-- What is open when `main` begins. -/
theorem World.opened_before (fd : Fd) :
    (World.before opened : World Handle).Opened fd ↔ fd ∈ opened.val.map ((↑) : ℕ → Fd) := by
  have htable : (World.before opened : World Handle).Opened fd ↔ 0 ≤ fd ∧ fd.toNat ∈ opened := by
    simp only [World.Opened, World.before]
    split_ifs with h <;> simp [h]
  rw [htable, Multiset.mem_map]
  constructor
  · rintro ⟨h0, hmem⟩
    exact ⟨fd.toNat, hmem, Int.toNat_of_nonneg h0⟩
  · rintro ⟨n, hn, rfl⟩
    exact ⟨n.cast_nonneg, hn⟩

theorem exclusive_start :
    Exclusive (Coros.start.fds opened (.before opened)) (World.before opened).Opened where
  nodup k := by
    rw [Coros.fds_start]
    split_ifs
    · exact opened.nodup.map Nat.cast_injective
    · exact Multiset.nodup_zero
  disjoint k k' hne := by
    rw [Coros.fds_start, Coros.fds_start]
    split_ifs with hk hk'
    · exact absurd (hk.trans hk'.symm) hne
    all_goals exact Multiset.disjoint_left.2 (by simp)
  live k x hx := by
    rw [Coros.fds_start] at hx
    split_ifs at hx
    · exact (World.opened_before x).2 hx
    · exact absurd hx (Multiset.notMem_zero x)

/-- No descriptor has two keepers, whatever the system calls do. -/
theorem fds_exclusive {ok : State → Label Choice → Prop} {S : State}
    (h : Lts.Reach State.step ok (State.startWith opened) S) (hlive : S.ctl ≠ .exited) :
    Exclusive (S.co.fds opened S.w) S.w.Opened := by
  refine h.inv_of (J := fun S => ObjectsOk S.w S.co)
    (I := fun S => S.ctl ≠ .exited → Exclusive (S.co.fds opened S.w) S.w.Opened)
    (fun _ => (objectsOk_startWith opened).reach) (fun _ => exclusive_start) ?_ hlive
  · intro S l S' hob _ hi _ hst hlive
    exact (FdMoves.step hob hst hlive).exclusive (hi fun e => hlive (State.exited_step e hst))

/-- While no session loses descriptors, every open descriptor has a keeper. -/
theorem fds_covered {S : State}
    (h : Lts.Reach State.step (fun S l => S.losesFds l = false) (State.startWith opened) S)
    (hlive : S.ctl ≠ .exited) : Covered (S.co.fds opened S.w) S.w.Opened := by
  refine h.inv_of (J := fun S => ObjectsOk S.w S.co)
    (I := fun S => S.ctl ≠ .exited → Covered (S.co.fds opened S.w) S.w.Opened)
    (fun _ => (objectsOk_startWith opened).reach) (fun _ fd hfd => ⟨.process, ?_⟩) ?_ hlive
  · exact (World.opened_before fd).1 hfd
  · intro S l S' hob _ hi hl hst hlive
    exact (hl ▸ FdMoves.step hob hst hlive).covered (hi fun e => hlive (State.exited_step e hst))

/-- **No descriptor leaks.** Whatever is open when the listening `Socket` is constructed, in every
run in which no session loses descriptors, in every state until the process exits: a descriptor is
open exactly if somebody has it, and nobody has a descriptor twice or one that somebody else has. -/
theorem descriptors_kept {opened : Finset ℕ} {S : State}
    (h : Lts.Reach State.step (fun S l => S.losesFds l = false) (State.startWith opened) S)
    (hlive : S.ctl ≠ .exited) :
    (∀ fd, S.w.Opened fd ↔ ∃ k, fd ∈ S.co.fds opened S.w k) ∧
      (∀ k, (S.co.fds opened S.w k).Nodup) ∧
      ∀ k k' fd, fd ∈ S.co.fds opened S.w k → fd ∈ S.co.fds opened S.w k' → k = k' := by
  have hex := fds_exclusive h hlive
  refine ⟨fun fd => ⟨fds_covered h hlive fd, ?_⟩, hex.nodup, fun k k' fd => hex.unique⟩
  rintro ⟨k, hk⟩
  exact hex.live k fd hk

/-- A server that was started without standard input, so that `0` is the epoll instance. While a
session waits for its child, it has its `Socket`, the read end of the pipe from the child and the
pidfd. -/
theorem descriptors_kept_reader : ∃ S : State, S.w.Opened 0 ∧
    (∀ fd, fd ∈ S.co.fds {0, 1, 2} S.w (.session 0) ↔ fd = 4 ∨ fd = 7 ∨ fd = 9) ∧
    ∀ fd, S.w.Opened fd ↔ ∃ k, fd ∈ S.co.fds {0, 1, 2} S.w k := by
  obtain ⟨S, h, hp⟩ := Lts.exists_reach State.step (fun S l => S.losesFds l = false)
    (State.startWith {0, 1, 2}) readRun (fun S l => !S.losesFds l) (fun S l hl => by simpa using hl)
    (fun S => decide (S.ctl = .epollWait ∧ S.co.fds {0, 1, 2} S.w (.session 0) = {4, 7, 9}))
    (by decide)
  obtain ⟨hctl, hfds⟩ := of_decide_eq_true hp
  have hopen := (descriptors_kept h (by simp [hctl])).1
  exact ⟨S, (hopen 0).2 ⟨.process, by simp [Coros.fds]⟩, by simp [hfds], hopen⟩

/-- **A lost descriptor is lost for ever.** In every run, whatever is open in the beginning and
whatever the system calls do: a step that loses descriptors leaves two of them at least, and from
then on until the process exits each of them is open and nobody has it. -/
theorem descriptors_lost {opened : Finset ℕ} {S S' : State} {l : Label Choice}
    (h : Lts.Reach State.step (fun _ _ => True) (State.startWith opened) S)
    (hl : S.losesFds l = true)
    (hs : S.step l = some S') :
    ∃ lost : Multiset Fd, 2 ≤ lost.card ∧ lost.Nodup ∧ ∀ T : State,
      Lts.Reach State.step (fun _ _ => True) S' T → T.ctl ≠ .exited →
        ∀ fd ∈ lost, T.w.Opened fd ∧ ∀ k, fd ∉ T.co.fds opened T.w k := by
  have hlive : S.ctl ≠ .exited ∧ S'.ctl ≠ .exited := State.live_of_loses hl hs
  obtain ⟨lost, hcard, hnodup, hlost⟩ :=
    (hl ▸ FdMoves.step ((objectsOk_startWith opened).reach h) hs hlive.2).orphans
      (fds_exclusive h hlive.1)
  refine ⟨lost, hcard, hnodup, fun T hT hlive' fd hfd => ?_⟩
  refine hT.inv (I := fun T => ObjectsOk T.w T.co ∧
    (T.ctl ≠ .exited → Orphan (T.co.fds opened T.w) T.w.Opened fd))
    ⟨(objectsOk_startWith opened).reach (h.tail trivial hs), fun _ => hlost fd hfd⟩ ?_ |>.2 hlive'
  intro T l T' hi _ hst
  exact ⟨hi.1.step hst, fun hl' => (FdMoves.step hi.1 hst hl').orphan
    (hi.2 fun e => hl' (State.exited_step e hst))⟩

/-- `pidfd_open` fails for the child of the only session. -/
theorem descriptors_lost_pidfd : ∃ S S' : State, ∃ lost : Multiset Fd,
    S.step (.co .failed) = some S' ∧ 2 ≤ lost.card ∧ ∀ T : State,
      Lts.Reach State.step (fun _ _ => True) S' T → T.ctl ≠ .exited →
        ∀ fd ∈ lost, T.w.Opened fd := by
  obtain ⟨S, h, hp⟩ := Lts.exists_reach State.step (fun _ _ => True) (State.startWith {0, 1, 2})
    (listenRun ++ connectRun 2 4 ++ flushRun 2 ++
      [.epollWait [(4, EPOLLIN)], .next, .co (.sys (.bytes [97] []))] ++ (spawnRun 3 5 100).take 5)
    (fun _ _ => true) (fun _ _ _ => trivial)
    (fun S => S.losesFds (.co .failed) && (S.step (.co .failed)).isSome) (by decide)
  rw [Bool.and_eq_true] at hp
  obtain ⟨S', hs⟩ := Option.isSome_iff_exists.1 hp.2
  obtain ⟨lost, hcard, -, hopen⟩ := descriptors_lost h hp.1 hs
  exact ⟨S, S', lost, hs, hcard, fun T hT hlive fd hfd => (hopen T hT hlive fd hfd).1⟩

/-! ### How many -/

section Count

variable {w : World Handle} {s : Session} {co : Coros}

theorem World.fdAt_card (p : Option Addr) : (w.fdAt p).card ≤ 1 := by
  unfold World.fdAt
  split
  · split_ifs <;> simp
  · simp

theorem World.fdAt_card_none : (w.fdAt none).card = 0 := rfl

/-- A session has six descriptors at most, and four while it is suspended. -/
theorem Session.fds_card (hs : s.Shape) :
    (s.fds w).card ≤ 6 ∧ ∀ o, s.pc = .susp o → (s.fds w).card ≤ 4 := by
  have h1 := w.fdAt_card (s.ptr .socket)
  have h2 := w.fdAt_card (s.ptr .readEnd)
  have h3 := w.fdAt_card (s.ptr .writeEnd)
  have h4 := w.fdAt_card (s.ptr .processWait)
  have hnone : ∀ r, s.pc.holds r = false → (w.fdAt (s.ptr r)).card = 0 := by
    intro r hr
    rw [hs.ptr_none hr, World.fdAt_card_none]
  have hcard : (s.fds w).card = (w.fdAt (s.ptr .socket)).card + (w.fdAt (s.ptr .readEnd)).card +
      (w.fdAt (s.ptr .writeEnd)).card + (w.fdAt (s.ptr .processWait)).card + s.rawFds.length := by
    simp [fds, objFds]
  rw [hcard]
  constructor
  · cases hpc : s.pc with
    | pipeR =>
      have h5 := hnone .readEnd (by rw [hpc]; rfl)
      have h6 := hnone .writeEnd (by rw [hpc]; rfl)
      have h7 := hnone .processWait (by rw [hpc]; rfl)
      simp only [rawFds, hpc, List.length_cons, List.length_nil]
      omega
    | attachRd =>
      have h5 := hnone .readEnd (by rw [hpc]; rfl)
      have h6 := hnone .writeEnd (by rw [hpc]; rfl)
      have h7 := hnone .processWait (by rw [hpc]; rfl)
      simp only [rawFds, hpc, List.length_cons, List.length_nil]
      omega
    | attachWr =>
      have h6 := hnone .writeEnd (by rw [hpc]; rfl)
      have h7 := hnone .processWait (by rw [hpc]; rfl)
      simp only [rawFds, hpc, List.length_cons, List.length_nil]
      omega
    | attachPw fd =>
      have h7 := hnone .processWait (by rw [hpc]; rfl)
      simp only [rawFds, hpc, List.length_cons, List.length_nil]
      omega
    | _ =>
      simp only [rawFds, hpc, List.length_cons, List.length_nil]
      omega
  · intro o hpc
    simp only [rawFds, hpc, List.length_nil]
    omega

theorem Coros.fds_accepted_card (co : Coros) : (co.fds opened w .accepted).card ≤ 1 := by
  rw [Coros.fds]
  split
  · split_ifs <;> simp
  · simp

/-- The connections that the server serves. -/
def Coros.served (co : Coros) : Set ℕ := {sid | (co.sessions sid).isSome}

theorem Coros.served_eq (hfresh : ∀ sid s, co.sessions sid = some s → sid < co.nextFrame) :
    co.served = ↑((Finset.range co.nextFrame).filter fun sid => (co.sessions sid).isSome) := by
  ext sid
  simp only [Coros.served, Finset.coe_filter, Finset.mem_range]
  refine ⟨fun hs => ⟨?_, hs⟩, And.right⟩
  obtain ⟨s, hs'⟩ := Option.isSome_iff_exists.1 hs
  exact hfresh sid s hs'

/-- A bound on the descriptors of each session bounds the number of all. -/
theorem fds_ncard_le (hex : Exclusive (co.fds opened w) w.Opened)
    (hcov : Covered (co.fds opened w) w.Opened)
    (hfresh : ∀ sid s, co.sessions sid = some s → sid < co.nextFrame) {a b : ℕ}
    (ha : (co.fds opened w .accepted).card ≤ a)
    (hb : ∀ sid s, co.sessions sid = some s → (s.fds w).card ≤ b) :
    {fd | w.Opened fd}.ncard ≤ opened.card + 1 + a + b * co.served.ncard := by
  rw [Coros.served_eq hfresh]
  set t := (Finset.range co.nextFrame).filter fun sid => (co.sessions sid).isSome with ht
  set k := insert Keeper.process (insert .listening (insert .accepted (t.image Keeper.session)))
    with hk
  have hrest : ∀ j, j ∉ k → co.fds opened w j = 0 := by
    intro j hj
    cases j with
    | process | listening | accepted => simp [hk] at hj
    | session sid =>
      cases hs : co.sessions sid with
      | none => simp [Coros.fds, hs]
      | some s => simp [hk, ht, hs, hfresh sid s hs] at hj
  have hsum : ∑ j ∈ t.image Keeper.session, (co.fds opened w j).card ≤ t.card * b := by
    rw [Finset.sum_image fun x _ y _ e => by cases e; rfl, ← smul_eq_mul]
    refine Finset.sum_le_card_nsmul _ _ _ fun sid hsid => ?_
    obtain ⟨s, hs⟩ := Option.isSome_iff_exists.1 (Finset.mem_filter.1 hsid).2
    rw [Coros.fds, hs]
    exact hb sid s hs
  have hlisten : (co.fds opened w .listening).card ≤ 1 := by
    unfold Coros.fds
    split_ifs
    · simp
    · exact w.fdAt_card _
  have hprocess : (co.fds opened w .process).card = opened.card := by
    rw [Coros.fds, Multiset.card_map, Finset.card_val]
  rw [hex.ncard hcov k hrest, hk, Finset.sum_insert (by simp), Finset.sum_insert (by simp),
    Finset.sum_insert (by simp), Set.ncard_coe_finset, mul_comm b]
  omega

end Count

/-- **The number of descriptors.** In every run in which no session loses descriptors, until the
process exits, six descriptors for each connection, the listening one and one more are enough beside
those that were open in the beginning, and at every `epoll_wait` four for each connection and the
listening one. -/
theorem descriptors_counted {opened : Finset ℕ} {S : State}
    (h : Lts.Reach State.step (fun S l => S.losesFds l = false) (State.startWith opened) S)
    (hlive : S.ctl ≠ .exited) :
    {fd | S.w.Opened fd}.ncard ≤ opened.card + 2 + 6 * S.co.served.ncard ∧
      (S.ctl = .epollWait →
        {fd | S.w.Opened fd}.ncard ≤ opened.card + 1 + 4 * S.co.served.ncard) := by
  have hth := (ThreadsOk.startWith opened).reach h
  have hex := fds_exclusive h hlive
  have hcov := fds_covered h hlive
  have hfresh := hth.objects.fresh
  have hshape := fun sid s hs => (hth.objects.session sid s hs).shape
  refine ⟨fds_ncard_le hex hcov hfresh (Coros.fds_accepted_card S.co) fun sid s hs =>
    (Session.fds_card (hshape sid s hs)).1, fun hctl => ?_⟩
  · -- while `run` waits every coroutine is suspended
    have hidle := hth.idle (by rw [hctl]; rfl)
    obtain ⟨n, hn⟩ := hth.waiting.acceptor (Or.inl hidle)
    refine fds_ncard_le hex hcov hfresh (a := 0) (by simp [Coros.fds, hn]) fun sid s hs => ?_
    obtain ⟨o, ho⟩ := hth.waiting.others sid s hs (by simp [hidle])
    exact (Session.fds_card (hshape sid s hs)).2 o ho

/-- One connection that waits for its child. -/
theorem descriptors_counted_reader : ∃ S : State, S.ctl = .epollWait ∧ S.w.Opened 9 ∧
    {fd | S.w.Opened fd}.ncard ≤ 3 + 1 + 4 * S.co.served.ncard := by
  obtain ⟨S, h, hp⟩ := Lts.exists_reach State.step (fun S l => S.losesFds l = false)
    (State.startWith {0, 1, 2}) readRun (fun S l => !S.losesFds l) (fun S l hl => by simpa using hl)
    (fun S => decide (S.ctl = .epollWait ∧ (S.w.table 9).isSome)) (by decide)
  obtain ⟨hctl, hopen⟩ := of_decide_eq_true hp
  exact ⟨S, hctl, hopen, (descriptors_counted h (by simp [hctl])).2 hctl⟩

end EpollCoroutine
