import EpollCoroutine.Epoll.Stale
import EpollCoroutine.Server.Program

/-!
# Stale events of the server

The guard of `run` against events of destroyed objects compares addresses. In the server the
conditions under which it is enough can be computed. It fails when the allocator gives the address
of a destroyed object to a new one within the batch.

* `stale_event_ignored`, `second_half_managed`: what the guard achieves in runs that meet the
  computed conditions.
* `endRun`: a session that waits for its child's output ends within the batch.
* `stale_event_dropped_end`: the event of its process descriptor is dropped.
* `stale_event_resumes`: the event resumes another session, whose pipe got the address.
* `write_half_managed_kept`, `write_half_destroyed`: a `Socket` that is reported readable and
  writable at once, and whose session goes on or ends at the first half of the event.
-/

namespace EpollCoroutine

/-- An executable form of `NoReuse`. -/
def reuses (S : State) : Label Choice → Bool
  | .co c => (S.co.step c S.w).any fun m => m.calls.any fun
    | .create p _ => (S.ctl.awaits .read ++ S.ctl.awaits .write).any fun e => decide (e.ptr = p)
    | _ => false
  | _ => false

theorem noReuse_of_reuses {S : State} {l : Label Choice} (h : reuses S l = false) :
    NoReuse server S l := by
  cases l with
  | co c =>
    intro m hm p fd hmem d hP
    obtain ⟨e, he, hptr, -⟩ := hP
    have hin : e ∈ S.ctl.awaits .read ++ S.ctl.awaits .write := by
      cases d with
      | read => exact List.mem_append_left _ he
      | write => exact List.mem_append_right _ he
    have hm : S.co.step c S.w = some m := hm
    simp only [reuses, hm, Option.any_some, List.any_eq_false] at h
    refine h _ hmem ?_
    exact List.any_eq_true.2 ⟨e, hin, decide_eq_true hptr⟩
  | _ => trivial

/-- **The server ignores stale events.** In every run in which neither `accept` nor a session
constructs an object at an address for which an event of the batch has still to be offered: the
handling of an event whose object has been destroyed since `epoll_wait` resumes no coroutine. -/
theorem stale_event_ignored {S S' : State}
    (h : Lts.Reach State.step (fun S l => reuses S l = false) State.start S) {e : Event}
    {todo : List Event} (hctl : S.ctl = .dispatch (e :: todo) ∨ S.ctl = .out e todo)
    (hd : e.Destroyed S.w) (hs : S.next server = some S') :
    S'.co = S.co ∧ (S'.ctl = .dispatch todo ∨ S'.ctl = .out e todo) := by
  have hbatch : BatchOk S := batchOk_reach (fun _ _ hl => noReuse_of_reuses hl) h
  exact hbatch.drops hctl hd hs

/-- The session that has been resumed by its child's output sends it, reaps the child and ends; its
process descriptor is destroyed last but one. -/
def endRun : List (Label Choice) :=
  [.next, .co (.sys (.bytes [99, 97, 116, 10, 97] [])), .co .go, .co (.sys (.count 1)),
    .co (.sys .reaped), .co .go, .co .go, .co .go, .next]

/-- The child has written and died, and both are reported in one batch. The session ends at the
first event; the second is about its process descriptor, and is dropped. -/
theorem stale_event_dropped_end : ∃ (S S' : State) (e : Event), S.ctl = .dispatch [e] ∧
    e.Destroyed S.w ∧ S.next server = some S' ∧ S'.co = S.co ∧
    (S'.ctl = .dispatch [] ∨ S'.ctl = .out e []) := by
  obtain ⟨S, h, hp⟩ := Lts.exists_reach State.step (NoReuse server) State.start
    (readRun ++ [.epollWait [(7, EPOLLIN), (9, EPOLLIN)]] ++ endRun)
    (fun S l => !reuses S l) (fun S l hl => noReuse_of_reuses (by simpa using hl))
    (fun S => decide (S.ctl = .dispatch [⟨5, EPOLLIN, some 4⟩] ∧ (S.w.heap 5).isNone ∧
      (S.next server).isSome)) (by decide +kernel)
  obtain ⟨hctl, hfree, hnext⟩ := of_decide_eq_true hp
  rw [Option.isNone_iff_eq_none] at hfree
  obtain ⟨S', hS'⟩ := Option.isSome_iff_exists.1 hnext
  have hd : Event.Destroyed ⟨5, EPOLLIN, some 4⟩ S.w := ⟨4, rfl, by simp [hfree]⟩
  exact ⟨S, S', _, hctl, hd, hS',
    stale_event_dropped server Coros.start h _ [] (Or.inl hctl) hd hS'⟩

/-- A stale event resumes another session: the first session ends at the first event of the batch,
the second session starts its child at the second event and gets the address of the destroyed
process descriptor for the read end of its pipe, and the third event, which was that of the process
descriptor, resumes its `readpipe`. -/
theorem stale_event_resumes :
    ¬ ∀ S : State, Lts.Reach State.step (fun _ _ => True) State.start S →
      ∀ e todo, S.ctl = .dispatch (e :: todo) ∨ S.ctl = .out e todo → e.Destroyed S.w →
      ∀ S', S.next server = some S' →
        S'.co = S.co ∧ (S'.ctl = .dispatch todo ∨ S'.ctl = .out e todo) := by
  intro hall
  obtain ⟨S, h, hp⟩ := Lts.exists_reach State.step (fun _ _ => True) State.start
    (readRun ++ connectRun 10 20 ++ flushRun 4 ++
      [.epollWait [(7, EPOLLIN), (20, EPOLLIN), (9, EPOLLIN)]] ++ endRun ++
      [.next, .co (.sys (.bytes [97] []))] ++ spawnRun 5 21 101 ++ [.co (.sys .wouldBlock), .next])
    (fun _ _ => true) (fun _ _ _ => trivial)
    (fun S => decide (S.ctl = .dispatch [⟨5, EPOLLIN, some 4⟩] ∧ (∃ a ∈ S.w.heap 5, a.oid ≠ 4) ∧
      S.co.running = .idle ∧ ∃ S' ∈ S.next server, S'.co.running = .session 1 false))
    (by decide +kernel)
  obtain ⟨hctl, ⟨a, ha, hoid⟩, hrun, S', hS', hrun'⟩ := of_decide_eq_true hp
  have hd : Event.Destroyed ⟨5, EPOLLIN, some 4⟩ S.w := by
    refine ⟨4, rfl, fun b hb => ?_⟩
    rw [Option.mem_def.1 ha] at hb
    cases hb
    exact hoid
  have hco := (hall S h _ [] (Or.inl hctl) hd S' hS').1
  rw [hco, hrun] at hrun'
  cases hrun'

/-! ### Both halves of an event -/

/-- An executable form of `KeepsOwn`. -/
def destroysOwn (S : State) : Label Choice → Bool
  | .co c => match S.ctl with
    | .coro (.out e _) => (S.co.step c S.w).any fun m => m.calls.any fun
      | .destroy p => decide (p = e.ptr)
      | _ => false
    | _ => false
  | _ => false

theorem keepsOwn_of_destroysOwn {S : State} {l : Label Choice} (h : destroysOwn S l = false) :
    KeepsOwn server S l := by
  cases l with
  | co c =>
    intro e todo hctl _ m hm hmem
    have hm : S.co.step c S.w = some m := hm
    simp only [destroysOwn, hctl, hm, Option.any_some, List.any_eq_false] at h
    exact h _ hmem (by simp)
  | _ => trivial

/-- **The server gets to the second half of an event with a managed object.** In every run in which
no session that was resumed by the first half destroys the object of the event. -/
theorem second_half_managed {S : State}
    (h : Lts.Reach State.step (fun S l => destroysOwn S l = false) State.start S) {e : Event}
    {todo : List Event} (hctl : S.ctl = .out e todo) (hout : e.events.has EPOLLOUT) :
    e.ptr ∈ S.w.managedFd :=
  secondHalf_reach (fun _ _ hl => keepsOwn_of_destroysOwn hl) h e (by rw [hctl]; rfl) hout

/-- A session that was resumed by data on its `Socket` has come to its `send` within one batch, and
the `send` would block: the `Socket` at 2 is registered for both directions and is reported so. -/
def bothRun : List (Label Choice) :=
  listenRun ++ connectRun 2 4 ++ flushRun 2 ++
    [.epollWait [(4, EPOLLIN)], .next, .co (.sys (.bytes [97] []))] ++ spawnRun 3 5 100 ++
    [.co (.sys (.bytes [99, 97, 116, 10, 97] [])), .co .go, .co (.sys .wouldBlock), .next] ++
    flushRun 2 ++ [.epollWait [(4, EPOLLIN ||| EPOLLOUT)], .next]

/-- The session sends and waits for its child: its `Socket` is there for the second half. -/
theorem write_half_managed_kept : ∃ (S : State) (e : Event), S.ctl = .out e [] ∧
    e.events.has EPOLLOUT ∧ e.ptr ∈ S.w.managedFd := by
  obtain ⟨S, h, hp⟩ := Lts.exists_reach State.step (KeepsOwn server) State.start
    (bothRun ++ [.co (.sys (.count 1)), .co (.sys .alive)])
    (fun S l => !destroysOwn S l) (fun S l hl => keepsOwn_of_destroysOwn (by simpa using hl))
    (fun S => decide (S.ctl = .out ⟨2, EPOLLIN ||| EPOLLOUT, some 1⟩ [])) (by decide +kernel)
  have hctl := of_decide_eq_true hp
  exact ⟨S, _, hctl, by decide, write_half_managed server Coros.start h hctl (by decide)⟩

/-- The session sends, reaps its child and ends: `run` goes on to the second half of the event with
a `Socket` that has been destroyed. -/
theorem write_half_destroyed :
    ¬ ∀ S : State, Lts.Reach State.step (fun _ _ => True) State.start S →
      ∀ e todo, S.ctl = .out e todo → e.events.has EPOLLOUT → e.ptr ∈ S.w.managedFd := by
  intro hall
  obtain ⟨S, h, hp⟩ := Lts.exists_reach State.step (fun _ _ => True) State.start
    (bothRun ++ [.co (.sys (.count 1)), .co (.sys .reaped), .co .go, .co .go, .co .go])
    (fun _ _ => true) (fun _ _ _ => trivial)
    (fun S => decide (S.ctl = .out ⟨2, EPOLLIN ||| EPOLLOUT, some 1⟩ [] ∧ 2 ∉ S.w.managedFd))
    (by decide +kernel)
  obtain ⟨hctl, hno⟩ := of_decide_eq_true hp
  exact hno (hall S h _ _ hctl (by decide))

end EpollCoroutine
