import EpollCoroutine.Server.Descriptors

/-!
# No object leaks

Smart pointers in the frames of the coroutines keep the `AsyncFileDescriptor`s, and `main` has the
listening `Socket`. Here the accounts are those of the heap.

* `Coros.objects`: the object that an owner has.
* `ObjectsOk.exclusive`: what is owned is allocated, and has one owner.
* `Session.Moves.covered`, `Coros.AcceptMoves.covered`: what is allocated stays owned.
* `objects_ncard_le`: so their number is bounded.
* `objects_kept`: so it is in every run, whatever fails.
-/

namespace EpollCoroutine

open Accounts

/-- There is an object at `p`. -/
def World.Allocated (w : World Handle) (p : Addr) : Prop := (w.heap p).isSome

/-- The object at an address that may be null. -/
def objectAt : Option Addr → Multiset Addr
  | some p => {p}
  | none => 0

/-- The object that an owner has. -/
def Coros.objects (co : Coros) : Owner → Multiset Addr
  | .acceptor => if co.acceptor = .boot then 0 else {co.listen}
  | .session sid r => objectAt ((co.sessions sid).bind fun s => s.ptr r)

@[simp] theorem mem_objectAt {p : Addr} {ptr : Option Addr} : p ∈ objectAt ptr ↔ ptr = some p := by
  cases ptr with
  | none => simp [objectAt]
  | some q => simp [objectAt, eq_comm]

theorem objectAt_card_le (ptr : Option Addr) : (objectAt ptr).card ≤ 1 := by
  cases ptr <;> simp [objectAt]

section Objects

variable {w w' : World Handle} {co co' : Coros} {sid : ℕ} {s : Session} {p : Addr}

theorem Coros.mem_objects {o : Owner} : p ∈ co.objects o ↔ co.Owns o p := by
  cases o with
  | acceptor =>
    simp only [Coros.objects, Coros.Owns]
    split_ifs with hb <;> simp [hb]
  | session sid r => simp [Coros.objects, Coros.Owns, Option.bind_eq_some_iff]

theorem Coros.objects_card_le (co : Coros) (o : Owner) : (co.objects o).card ≤ 1 := by
  cases o with
  | acceptor =>
    simp only [Coros.objects]
    split_ifs <;> simp
  | session sid r => exact objectAt_card_le _

theorem ObjectsOk.exclusive (h : ObjectsOk w co) : Exclusive co.objects w.Allocated where
  nodup o := Multiset.nodup_iff_count_le_one.2 fun p =>
    (Multiset.count_le_card p _).trans (co.objects_card_le o)
  disjoint o o' hne := by
    refine Multiset.disjoint_left.2 fun {p} hp hp' => hne ?_
    exact h.owned.inj o o' p (Coros.mem_objects.1 hp) (Coros.mem_objects.1 hp')
  live o p hp := by
    obtain ⟨a, ha⟩ := h.owned.live o p (Coros.mem_objects.1 hp)
    rw [World.Allocated, ha]
    rfl

/-! ### Steps -/

theorem World.Same.allocated (h : w.Same w') (q : Addr) : w'.Allocated q ↔ w.Allocated q := by
  rw [Allocated, Allocated, h.heap]

theorem World.Sets.allocated {a b : AsyncFd Handle} {m : Bool} (h : w.Sets w' p b m)
    (ha : w.heap p = some a) (q : Addr) : w'.Allocated q ↔ w.Allocated q := by
  rw [Allocated, Allocated, h.heap, Function.update_apply]
  split_ifs with e
  · rw [e, ha]
    rfl
  · rfl

theorem World.Adds.allocated {a : AsyncFd Handle} {m n : Bool} (h : w.Adds w' p a m n) (q : Addr) :
    w'.Allocated q ↔ w.Allocated q ∨ q ∈ ({p} : Multiset Addr) := by
  rw [Allocated, Allocated, h.heap, Function.update_apply, Multiset.mem_singleton]
  split_ifs with e <;> simp [e]

theorem World.Drops.allocated {a : AsyncFd Handle} (h : w.Drops w' p a) (q : Addr) :
    w'.Allocated q ↔ w.Allocated q ∧ q ∉ ({p} : Multiset Addr) := by
  rw [Allocated, Allocated, h.heap, Function.update_apply, Multiset.mem_singleton]
  split_ifs with e <;> simp [e]

/-- The objects after a step of a session that concerns its role `r` only. -/
theorem Coros.objects_session (hs : co.sessions sid = some s) {next : Option Session}
    (hs' : co'.sessions = Function.update co.sessions sid next)
    (hacc : co'.acceptor = co.acceptor) (hlisten : co'.listen = co.listen) (r : Role)
    (hother : ∀ r', r' ≠ r → (next.bind fun s' => s'.ptr r') = s.ptr r') :
    co'.objects = Function.update co.objects (.session sid r)
      (objectAt (next.bind fun s' => s'.ptr r)) := by
  funext o
  cases o with
  | acceptor =>
    rw [Function.update_of_ne (by simp), Coros.objects, Coros.objects, hacc, hlisten]
  | session sid' r' =>
    by_cases hsid : sid' = sid
    · subst hsid
      by_cases hr : r' = r
      · subst hr
        rw [Function.update_self, Coros.objects, hs', Function.update_self]
      · rw [Function.update_of_ne (by simpa using hr), Coros.objects, hs', Function.update_self,
          hother r' hr, Coros.objects, hs, Option.bind_some]
    · rw [Function.update_of_ne (by simp [hsid]), Coros.objects, hs', Function.update_of_ne hsid,
        Coros.objects]

/-- A step of a session. -/
theorem Session.Moves.covered (hs : co.sessions sid = some s) (hshape : s.Shape) {fresh : ℕ}
    {c : Choice} {after : After} (hm : Session.Moves w w' sid fresh s c after)
    (hs' : co'.sessions = Function.update co.sessions sid (after.next s))
    (hacc : co'.acceptor = co.acceptor) (hlisten : co'.listen = co.listen)
    (h : Covered co.objects w.Allocated) : Covered co'.objects w'.Allocated := by
  have hold : ∀ r, co.objects (.session sid r) = objectAt (s.ptr r) := fun r => by
    rw [Coros.objects, hs, Option.bind_some]
  -- a step that leaves the pointers alone
  have hkeeps : (∀ r, ((after.next s).bind fun s' => s'.ptr r) = s.ptr r) →
      (∀ q, w'.Allocated q ↔ w.Allocated q) → Covered co'.objects w'.Allocated := by
    intro hptr hlive
    rw [Coros.objects_session hs hs' hacc hlisten .socket fun r _ => hptr r]
    exact h.turnover (.keeps (by rw [hold, hptr]) hlive)
  cases hm with
  | raw hw hptr => exact hkeeps (fun r => congrFun hptr r) hw.allocated
  | again hw => exact hkeeps (fun r => rfl) hw.allocated
  | @completes o p a r dr _ _ ha _ hw =>
    exact hkeeps (fun r' => congrFun (Session.complete_rest s o r dr).1 r') (hw.toSets.allocated ha)
  | suspends _ _ ha _ hw => exact hkeeps (fun r => rfl) (hw.toSets.allocated ha)
  | exits _ _ ha hw => exact hkeeps (fun r => rfl) (hw.toSets.allocated ha)
  | @attaches r p fd b b' oid s' _ hnone _ hw hptr =>
    rw [Coros.objects_session hs hs' hacc hlisten r fun r' hr' => by
      rw [After.next, Option.bind_some, hptr, Function.update_of_ne hr']]
    refine h.turnover (.takes (Multiset.nodup_singleton p) (fun q hq => ?_) ?_ hw.allocated)
    · rw [Multiset.mem_singleton] at hq
      rw [hq, World.Allocated, hw.free]
      simp
    · rw [hold, hnone, After.next, Option.bind_some, hptr, Function.update_self]
      rfl
  | @drops r p a s' _ hp hw hptr =>
    rw [Coros.objects_session hs hs' hacc hlisten r fun r' hr' => by
      rw [After.next, Option.bind_some, hptr, Function.update_of_ne hr']]
    refine h.turnover (.gives ?_ hw.allocated)
    rw [hold, hp, After.next, Option.bind_some, hptr, Function.update_self]
    rfl
  | @closes p a t hpc hp hw =>
    -- at its end a session has its `Socket` only
    rw [Coros.objects_session hs hs' hacc hlisten .socket fun r' hr' => by
      rw [hshape.ptr_none (r := r') (by rw [hpc]; cases r' <;> simp_all [Pc.holds])]
      rfl]
    refine h.turnover (.gives ?_ hw.allocated)
    rw [hold, hp]
    rfl

theorem Coros.objects_congr (hb : co'.acceptor = .boot ↔ co.acceptor = .boot)
    (hl : co'.listen = co.listen)
    (hs : ∀ sid r, ((co'.sessions sid).bind fun s => s.ptr r) =
      (co.sessions sid).bind fun s => s.ptr r) : co'.objects = co.objects := by
  funext o
  cases o with
  | acceptor => simp only [Coros.objects, hb, hl]
  | session sid r => rw [Coros.objects, hs, Coros.objects]

/-- A step of the `accept` coroutine, unless the listening `Socket` cannot be bound. -/
theorem Coros.AcceptMoves.covered {c : Choice} (hob : ObjectsOk w co)
    (hm : Coros.AcceptMoves w w' co c co') (hbound : co'.acceptor ≠ .boot)
    (h : Covered co.objects w.Allocated) : Covered co'.objects w'.Allocated := by
  cases hm with
  | @boots p fd oid b w₁ w₂ hpc _ hw₁ hw₂ hw' =>
    have hobjects : ({ co with listen := p, acceptor := .call } : Coros).objects =
        Function.update co.objects .acceptor {p} := by
      funext o
      cases o with
      | acceptor => simp [Coros.objects]
      | session sid r => rfl
    have hlive : ∀ q, w'.Allocated q ↔ w.Allocated q ∨ q ∈ ({p} : Multiset Addr) := fun q => by
      rw [hw'.toSets.allocated (by rw [hw₂.heap, Function.update_self]) q, hw₂.allocated q,
        hw₁.allocated q]
    rw [hobjects]
    refine h.turnover (.takes (Multiset.nodup_singleton p) (fun q hq => ?_) ?_ hlive)
    · rw [Multiset.mem_singleton] at hq
      rw [hq, ← hw₁.allocated, World.Allocated, hw₂.free]
      simp
    · simp [Coros.objects, hpc]
  | bootFails hpc => exact absurd hpc hbound
  | @completes fd a w₁ hpc ha hw₁ _ hsame =>
    have hb : co.acceptor ≠ .boot := by rcases hpc with hpc | hpc <;> simp [hpc]
    have hobjects : ({ co with acceptor := .made fd } : Coros).objects = co.objects :=
      Coros.objects_congr (by simp [hb]) rfl fun _ _ => rfl
    intro q hq
    rw [hobjects]
    exact h q ((hw₁.toSets.allocated ha q).1 ((hsame.allocated q).1 hq))
  | @suspends a hpc ha hw' =>
    have hobjects : ({ co with
        acceptor := .susp co.acceptNo
        acceptNo := co.acceptNo + 1
        running := .idle } : Coros).objects = co.objects :=
      Coros.objects_congr (by simp [hpc]) rfl fun _ _ => rfl
    intro q hq
    rw [hobjects]
    exact h q ((hw'.toSets.allocated ha q).1 hq)
  | exits hpc ha hw' => exact fun q hq => h q ((hw'.toSets.allocated ha q).1 hq)
  | @makes fd p oid b hpc hw' =>
    have hnew := Coros.sessions_nextFrame hob.fresh
    have hobjects : ({ co.setSession co.nextFrame (some (.start co.nextFrame p)) with
        acceptor := .call
        nextFrame := co.nextFrame + 1
        running := .session co.nextFrame true } : Coros).objects =
        Function.update co.objects (.session co.nextFrame .socket) {p} := by
      funext o
      cases o with
      | acceptor => simp [Coros.objects, Coros.setSession, hpc]
      | session sid r =>
        by_cases hsid : sid = co.nextFrame
        · subst hsid
          cases r <;> simp [Coros.objects, Coros.setSession, Session.start, objectAt, hnew]
        · rw [Function.update_of_ne (by simp [hsid]), Coros.objects, Coros.objects]
          simp [Coros.setSession, Function.update_of_ne hsid]
    rw [hobjects]
    refine h.turnover (.takes (Multiset.nodup_singleton p) (fun q hq => ?_) ?_ hw'.allocated)
    · rw [Multiset.mem_singleton] at hq
      rw [hq, World.Allocated, hw'.free]
      simp
    · simp [Coros.objects, hnew, objectAt]

/-- A resumed coroutine has the objects it had. -/
theorem Coros.objects_resume {x : Handle} (hr : co.resume x = some co') :
    co'.objects = co.objects := by
  rcases Coros.resume_cases hr with ⟨n, -, hn, rfl⟩ | ⟨sid, s, o, -, hs, hpc, rfl⟩
  · exact Coros.objects_congr (by simp [hn]) rfl fun _ _ => rfl
  · refine Coros.objects_congr Iff.rfl rfl fun sid' r => ?_
    by_cases e : sid' = sid
    · subst e
      simp [Coros.setSession, hs]
    · simp [Coros.setSession, Function.update_of_ne e]

end Objects

/-- There is a listening `Socket` after every step of the coroutines after which the process goes
on. -/
theorem Coros.StepCase.bound {w : World Handle} {co : Coros} {c : Choice} {m : Move Handle Coros}
    {k : Cont} (hm : Coros.StepCase w co c m) (hob : ObjectsOk w co)
    (hlive : Status.control k m.status ≠ .exited) : m.next.acceptor ≠ .boot := by
  cases hm with
  | boot | acceptOk | acceptBlock | retryOk | retryFail | made => simp
  | bootFail => exact absurd rfl hlive
  | acceptFail hrun hpc => simp [hpc]
  | session hrun hs =>
    rw [Coros.settle_acceptor]
    intro hb
    rw [hob.boot hb] at hs
    cases hs

/-- A step of the server. -/
theorem State.objects_step {S S' : State} {l : Label Choice} (hob : ObjectsOk S.w S.co)
    (hs : S.step l = some S') (hlive : S'.ctl ≠ .exited)
    (h : Covered S.co.objects S.w.Allocated) : Covered S'.co.objects S'.w.Allocated := by
  cases Server.step_cases hs with
  | wait _ _ hS | batchEnd _ hS | unmanaged _ _ hS | noIn _ _ _ hS | noOut _ _ hS
  | sendNull _ _ _ _ hS | flushEnd _ hS => subst hS; exact h
  | recvNull _ _ _ ha _ hS =>
    subst hS
    exact fun q hq => h q (((World.noteHangup_puts ha).toSets.allocated ha q).1 hq)
  | recv _ _ _ ha _ hco hS =>
    subst hS
    intro q hq
    rw [Coros.objects_resume hco]
    exact h q (((World.noteHangup_puts ha).toSets.allocated ha q).1 hq)
  | send _ _ _ _ hco hS =>
    subst hS
    intro q hq
    rw [Coros.objects_resume hco]
    exact h q hq
  | @flush p todo a ok _ ha hS =>
    subst hS
    exact fun q hq => h q (((World.flushOne_sets ha ok).allocated ha q).1 hq)
  | @co k c m w' _ hm hw hS =>
    subst hS
    have hm := Coros.step_cases hm
    have hbound := hm.bound hob hlive
    rcases hm.acceptor_or_session hw with
      ⟨-, hacc⟩ | ⟨sid, via, s, act, pr, -, hsid, hact, -, rfl⟩
    · exact hacc.covered hob hbound h
    · have hok := hob.session sid s hsid
      have hmv := Session.moves hact hw hok.shape fun r p a hp ha e => (hok.valid r p a hp ha e).2
      exact hmv.covered hsid hok.shape (Coros.settle_sessions hsid via act.after) (by simp)
        (by simp) h
  | env hco hS =>
    subst hS
    obtain ⟨pid, pr, -, -, rfl⟩ := Coros.env_cases hco
    have hobjects : ({ S.co with procs := pr } : Coros).objects = S.co.objects :=
      Coros.objects_congr Iff.rfl rfl fun _ _ => rfl
    intro q hq
    rw [hobjects]
    exact h q hq

/-- Every object has an owner, whatever the system calls do. -/
theorem objects_covered {ok : State → Label Choice → Prop} {S : State}
    (h : Lts.Reach State.step ok State.start S) (hlive : S.ctl ≠ .exited) :
    Covered S.co.objects S.w.Allocated := by
  refine h.inv_of (J := fun S => ObjectsOk S.w S.co)
    (I := fun S => S.ctl ≠ .exited → Covered S.co.objects S.w.Allocated)
    (fun _ => objectsOk_reach) (fun _ p hp => ?_) ?_ hlive
  · simp [State.start, Server.start, World.Allocated, World.initial] at hp
  · intro S l S' hob _ hi _ hst hlive
    exact State.objects_step hob hst hlive (hi fun e => hlive (State.exited_step e hst))

/-- While everything is owned, there are at most four objects for each session. -/
theorem objects_ncard_le {w : World Handle} {co : Coros} (hob : ObjectsOk w co)
    (hcov : Covered co.objects w.Allocated) :
    {p | w.Allocated p}.ncard ≤ 1 + 4 * co.served.ncard := by
  rw [Coros.served_eq hob.fresh]
  set t := (Finset.range co.nextFrame).filter fun sid => (co.sessions sid).isSome with ht
  set roles : List Role := [.socket, .readEnd, .writeEnd, .processWait] with hroles
  set f : ℕ × Role → Owner := fun x => .session x.1 x.2 with hf
  set k := insert Owner.acceptor ((t ×ˢ roles.toFinset).image f) with hk
  have hrest : ∀ o, o ∉ k → co.objects o = 0 := by
    intro o ho
    cases o with
    | acceptor => simp [hk] at ho
    | session sid r =>
      have hr : r ∈ roles := by cases r <;> simp [hroles]
      cases hs : co.sessions sid with
      | none => simp [Coros.objects, hs, objectAt]
      | some s => simp [hk, hf, ht, hs, hob.fresh sid s hs, hr] at ho
  have hcard : k.card ≤ 1 + 4 * t.card := by
    calc k.card ≤ ((t ×ˢ roles.toFinset).image f).card + 1 := Finset.card_insert_le _ _
      _ ≤ (t ×ˢ roles.toFinset).card + 1 := by gcongr; exact Finset.card_image_le
      _ = 1 + 4 * t.card := by
        rw [Finset.card_product, show roles.toFinset.card = 4 by decide]
        ring
  calc {p | w.Allocated p}.ncard = ∑ o ∈ k, (co.objects o).card := hob.exclusive.ncard hcov k hrest
    _ ≤ k.card := by
      simpa using Finset.sum_le_card_nsmul k _ 1 fun o _ => co.objects_card_le o
    _ ≤ 1 + 4 * (t : Set ℕ).ncard := by rw [Set.ncard_coe_finset]; exact hcard

/-- **No object leaks.** In every run, whatever the system calls do, in every state until the
process exits: there is an `AsyncFileDescriptor` at an address exactly if a coroutine has a pointer
to it, no two of their pointers are equal, and there are at most four objects for each connection
and the listening `Socket`. -/
theorem objects_kept {S : State} (h : Lts.Reach State.step (fun _ _ => True) State.start S)
    (hlive : S.ctl ≠ .exited) :
    (∀ p, S.w.Allocated p ↔ ∃ o, S.co.Owns o p) ∧
      (∀ o o' p, S.co.Owns o p → S.co.Owns o' p → o = o') ∧
      {p | S.w.Allocated p}.ncard ≤ 1 + 4 * S.co.served.ncard := by
  have hob := objectsOk_reach h
  have hcov := objects_covered h hlive
  refine ⟨fun p => ⟨fun hp => ?_, ?_⟩, hob.owned.inj, objects_ncard_le hob hcov⟩
  · obtain ⟨o, ho⟩ := hcov p hp
    exact ⟨o, Coros.mem_objects.1 ho⟩
  · rintro ⟨o, ho⟩
    exact hob.exclusive.live o p (Coros.mem_objects.2 ho)

/-- `pidfd_open` has failed for the child of the only session: the write end of its pipe, at address
4, is still owned. -/
theorem objects_kept_pidfd : ∃ S : State, S.w.Allocated 4 ∧ (∃ o, S.co.Owns o 4) ∧
    {p | S.w.Allocated p}.ncard ≤ 1 + 4 * S.co.served.ncard := by
  obtain ⟨S, h, hp⟩ := Lts.exists_reach State.step (fun _ _ => True) State.start
    (listenRun ++ connectRun 2 4 ++ flushRun 2 ++
      [.epollWait [(4, EPOLLIN)], .next, .co (.sys (.bytes [97] []))] ++
      (spawnRun 3 5 100).take 5 ++ [.co .failed])
    (fun _ _ => true) (fun _ _ _ => trivial)
    (fun S => decide (S.ctl ≠ .exited) && (S.w.heap 4).isSome) (by decide)
  rw [Bool.and_eq_true, decide_eq_true_iff] at hp
  obtain ⟨howns, -, hcount⟩ := objects_kept h hp.1
  exact ⟨S, hp.2, (howns 4).1 hp.2, hcount⟩

end EpollCoroutine
