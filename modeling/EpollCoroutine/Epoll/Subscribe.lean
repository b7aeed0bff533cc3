import EpollCoroutine.Epoll.Interest

/-!
# Subscription updates between two flushes

`watchRead`, `unwatchRead`, `watchWrite` and `unwatchWrite` compute the pending mask from the
installed one, not from the mask that is pending already.

* `subscriptions`: the calls of a sequence that concern one object.
* `flush_installs`: the next flush installs what the last of them alone asks for.
* `installs_last_iff`: hence it installs what was asked for last in each direction exactly if the
  other direction had nothing to change.
-/

namespace EpollCoroutine

variable {H : Type}

/-- The mask that a call of direction `d` computes from `m`. -/
def Dir.put (d : Dir) (on : Bool) (m : Mask) : Mask := if on then m ||| d.bit else m &&& ~~~d.bit

namespace CtxCall

/-- The direction of a subscription call on `p`, and whether it is a watch. -/
def subscription (p : Addr) : CtxCall → Option (Dir × Bool)
  | .watch d q => if q = p then some (d, true) else none
  | .unwatch d q => if q = p then some (d, false) else none
  | .attach _ _ | .attachReadonly _ _ | .attachWriteOnly _ _ | .flush _ | .detach _ => none

/-- The subscription calls on `p`. -/
def subscriptions (p : Addr) (cs : List CtxCall) : List (Dir × Bool) :=
  cs.filterMap (subscription p)

/-- A call made between two flushes that is a subscription call if it is made on `p`. -/
def Between (p : Addr) : CtxCall → Prop
  | .watch _ _ | .unwatch _ _ => True
  | .attach q _ | .attachReadonly q _ | .attachWriteOnly q _ | .detach q => q ≠ p
  | .flush _ => False

end CtxCall

/-- What was asked for last in direction `d`. -/
def lastIn (d : Dir) (l : List (Dir × Bool)) : Option Bool :=
  ((l.filter fun x => x.1 = d).getLast?).map Prod.snd

/-- No update is lost: the mask `m` has the bit of a direction exactly if that was asked for last,
the old bit if nothing was asked for, and the other bits of the old mask. -/
structure InstallsLast (old m : Mask) (l : List (Dir × Bool)) : Prop where
  dir : ∀ d, m.has d.bit ↔ (lastIn d l).getD (decide (old.has d.bit)) = true
  other : m &&& ~~~(EPOLLIN ||| EPOLLOUT) = old &&& ~~~(EPOLLIN ||| EPOLLOUT)

/-- No change is pending for the object at `p`, as a flush leaves it. -/
def World.Settled (w : World H) (p : Addr) : Prop :=
  ∀ a, w.heap p = some a → p ∈ w.processedSockets → a.ioNewState = a.ioState

/-! ### The calls on one descriptor -/

namespace Slot

/-- The slot after a subscription call. -/
def subscribe (x : Dir × Bool) (s : Slot) : Slot :=
  { s with ioNewState := x.1.put x.2 s.ioState, processed := true }

/-- The slot after subscription calls of which `x` is the last. -/
def subscribed (s : Slot) : Option (Dir × Bool) → Slot
  | none => s
  | some x => s.subscribe x

variable {s : Slot}

/-- A flush with nothing pending. -/
theorem flush_of_settled (h : s.processed = true → s.ioState = s.ioNewState) (ok : Bool) :
    s.flush ok = s := by
  unfold flush flushOne
  by_cases hp : s.processed = true
  · rw [if_pos hp, if_pos (h hp)]
  · rw [if_neg hp]

/-- The flush after a subscription call, when the kernel accepts. -/
theorem flush_subscribe_kernel (hk : s.kernel = some s.ioState) (ho : s.opened = true)
    (x : Dir × Bool) :
    ((s.subscribe x).flush true).kernel = some (x.1.put x.2 s.ioState) := by
  unfold flush flushOne
  by_cases he : s.ioState = x.1.put x.2 s.ioState
  · simp [subscribe, ← he, hk]
  · simp [subscribe, he, hk, ho]

/-- After a flush nothing is pending. -/
theorem flush_pending (ok : Bool) (hp : (s.flush ok).processed = true) :
    (s.flush ok).ioNewState = (s.flush ok).ioState := by
  by_cases hproc : s.processed = true
  · unfold flush flushOne
    rw [if_pos hproc]
    split_ifs with he
    · exact he.symm
    · rfl
    · rfl
  · rw [flush, if_neg hproc] at hp
    exact absurd hp hproc

end Slot

namespace CtxCall

variable {p : Addr} {c : CtxCall} {cs : List CtxCall}

theorem subscriptions_append (p : Addr) (cs : List CtxCall) (c : CtxCall) :
    subscriptions p (cs ++ [c]) = subscriptions p cs ++ (c.subscription p).toList := by
  cases h : c.subscription p <;> simp [subscriptions, h]

theorem effect_between (hc : c.Between p) (s : Slot) :
    c.effect p s = s.subscribed (c.subscription p) := by
  cases c with
  | watch d q | unwatch d q =>
    simp only [effect, subscription]
    split_ifs <;> rfl
  | attach q ok | attachReadonly q ok | attachWriteOnly q ok | detach q => exact if_neg hc
  | flush ok => exact hc.elim

/-- Only the last call counts, because each starts from the installed mask. -/
theorem foldl_effect_between (hcs : ∀ c ∈ cs, c.Between p) (s : Slot) :
    cs.foldl (fun s c => c.effect p s) s = s.subscribed (subscriptions p cs).getLast? := by
  induction cs using List.reverseRecOn with
  | nil => rfl
  | append_singleton cs c ih =>
    have hc : c.Between p := hcs c (by simp)
    rw [List.foldl_append, ih fun c' hc' => hcs c' (by simp [hc'])]
    show c.effect p _ = _
    rw [effect_between hc, subscriptions_append]
    cases c.subscription p with
    | none => simp [Slot.subscribed]
    | some x =>
      rw [Option.toList_some, List.getLast?_concat]
      cases (subscriptions p cs).getLast? <;> rfl

end CtxCall

/-! ### The next flush -/

namespace World

variable {w : World H} {p : Addr} {a : AsyncFd H} {cs : List CtxCall} {ok : Addr → Bool}

/-- A flush leaves nothing pending. -/
theorem flush_settled (hw : w.Descriptors) (ok : Addr → Bool) (p : Addr) :
    (w.flush ok).Settled p := by
  intro a ha hp
  have h := (flush_acts hw ok).slotAt p
  rw [slotAt_of_live ha] at h
  obtain ⟨s, _, hs⟩ := Option.map_eq_some_iff.1 h.symm
  have hproc : (s.flush (ok p)).processed = true := by
    rw [hs]
    exact decide_eq_true hp
  have hmask := Slot.flush_pending (ok p) hproc
  rw [hs] at hmask
  exact hmask

/-- The mask that the last subscription call computes. -/
def lastMask (old : Mask) : Option (Dir × Bool) → Mask
  | none => old
  | some x => x.1.put x.2 old

/-- **The next flush installs what the last call alone asks for.** -/
theorem flush_installs (hw : w.Descriptors) (ha : w.heap p = some a)
    (hreg : w.RegisteredAs p a.ioState)
    (hset : w.Settled p) (hvalid : ∀ c ∈ cs, c.Valid w) (hcs : ∀ c ∈ cs, c.Between p)
    (hok : ok p = true)
    (m : Mask) :
    ((CtxCall.applyAll cs w).flush ok).RegisteredAs p m ↔
      m = lastMask a.ioState (CtxCall.subscriptions p cs).getLast? := by
  have h1 := CtxCall.applyAll_acts hw hvalid
  have h2 := flush_acts h1.descriptors ok
  have hslot : ((CtxCall.applyAll cs w).flush ok).slotAt p =
      some (((w.slot p a).subscribed (CtxCall.subscriptions p cs).getLast?).flush (ok p)) := by
    rw [h2.slotAt, h1.slotAt, slotAt_of_live ha, ← CtxCall.foldl_effect_between hcs]
    rfl
  obtain ⟨b, hb, hbslot⟩ := Option.map_eq_some_iff.1 hslot
  rw [registeredAs_iff h2.descriptors hb, hbslot, hok]
  have hk : (w.slot p a).kernel = some a.ioState := (registeredAs_iff hw ha).1 hreg
  have ho : (w.slot p a).opened = true := hw.opened (slotAt_of_live ha) (by rw [hk]; rfl)
  cases (CtxCall.subscriptions p cs).getLast? with
  | none =>
    have hpend : (w.slot p a).processed = true → (w.slot p a).ioState = (w.slot p a).ioNewState :=
      fun hp => (hset a ha (of_decide_eq_true hp)).symm
    rw [Slot.subscribed, Slot.flush_of_settled hpend, hk, lastMask, Option.some.injEq, eq_comm]
  | some x =>
    have hkern : (((w.slot p a).subscribe x).flush true).kernel = some (x.1.put x.2 a.ioState) :=
      Slot.flush_subscribe_kernel hk ho x
    rw [Slot.subscribed, hkern, lastMask, Option.some.injEq, eq_comm]

end World

/-! ### When that is what was asked for in both directions -/

theorem Dir.has_put (d d' : Dir) (on : Bool) (m : Mask) :
    (d'.put on m).has d.bit ↔ if d = d' then on = true else m.has d.bit := by
  unfold Dir.put
  cases on
  · rw [if_neg Bool.false_ne_true, Mask.has_andNot]
    split_ifs with h <;> simp [h]
  · rw [if_pos rfl, Mask.has_or]
    split_ifs with h <;> simp [h]

theorem Dir.put_other (d : Dir) (on : Bool) (m : Mask) :
    d.put on m &&& ~~~(EPOLLIN ||| EPOLLOUT) = m &&& ~~~(EPOLLIN ||| EPOLLOUT) := by
  have h0 : d.bit &&& ~~~(EPOLLIN ||| EPOLLOUT) = 0#32 := by cases d <;> decide
  have h1 : ~~~d.bit &&& ~~~(EPOLLIN ||| EPOLLOUT) = ~~~(EPOLLIN ||| EPOLLOUT) := by
    cases d <;> decide
  unfold Dir.put
  split_ifs
  · rw [BitVec.and_comm, BitVec.and_or_distrib_left, BitVec.and_comm, BitVec.and_comm _ d.bit, h0,
      BitVec.or_zero]
  · rw [BitVec.and_assoc, h1]

theorem lastIn_of_getLast? {l : List (Dir × Bool)} {x : Dir × Bool} (h : l.getLast? = some x) :
    lastIn x.1 l = some x.2 := by
  obtain ⟨l', rfl⟩ := List.getLast?_eq_some_iff.1 h
  simp [lastIn]

/-- What the last call alone asks for is what was asked for last in each direction exactly if the
other direction has nothing to change. -/
theorem installsLast_lastMask_iff (old : Mask) (l : List (Dir × Bool)) :
    InstallsLast old (World.lastMask old l.getLast?) l ↔
      ∀ d on, lastIn d l = some on → l.getLast?.map Prod.fst ≠ some d →
        (old.has d.bit ↔ on = true) := by
  cases hl : l.getLast? with
  | none =>
    rw [List.getLast?_eq_none_iff.1 hl]
    constructor
    · intro _ d on h
      cases h
    · intro _
      exact ⟨fun d => by simp [World.lastMask, lastIn], rfl⟩
  | some x =>
    have hx := lastIn_of_getLast? hl
    constructor
    · intro h d on hd hne
      have hne' : d ≠ x.1 := fun e => hne (by rw [e]; rfl)
      have hdir := h.dir d
      rwa [World.lastMask, Dir.has_put, if_neg hne', hd, Option.getD_some] at hdir
    · intro h
      refine ⟨fun d => ?_, Dir.put_other _ _ _⟩
      rw [World.lastMask, Dir.has_put]
      split_ifs with he
      · rw [he, hx, Option.getD_some]
      · cases hd : lastIn d l with
        | none => simp
        | some on => simpa using h d on hd fun e => he (Option.some.inj e).symm

/-- **A subscription update is lost exactly when a later call of the other direction overrides it.**
For any calls made between two flushes, those on the registered object at `p` being subscription
calls, the mask that the next flush installs for it has each direction's bit as asked for last and
the other bits as before, if and only if in the direction other than that of the last call nothing
was asked for that the installed mask does not have already. -/
theorem installs_last_iff {w : World H} {p : Addr} {a : AsyncFd H} {cs : List CtxCall}
    {ok : Addr → Bool}
    (hw : w.Descriptors) (ha : w.heap p = some a) (hreg : w.RegisteredAs p a.ioState)
    (hset : w.Settled p)
    (hvalid : ∀ c ∈ cs, c.Valid w) (hcs : ∀ c ∈ cs, c.Between p) (hok : ok p = true) :
    (∃ m, ((CtxCall.applyAll cs w).flush ok).RegisteredAs p m ∧
        InstallsLast a.ioState m (CtxCall.subscriptions p cs)) ↔
      ∀ d on, lastIn d (CtxCall.subscriptions p cs) = some on →
        (CtxCall.subscriptions p cs).getLast?.map Prod.fst ≠ some d →
        (a.ioState.has d.bit ↔ on = true) := by
  rw [← installsLast_lastMask_iff]
  constructor
  · rintro ⟨m, hm, hlast⟩
    rwa [(World.flush_installs hw ha hreg hset hvalid hcs hok m).1 hm] at hlast
  · intro hlast
    exact ⟨_, (World.flush_installs hw ha hreg hset hvalid hcs hok _).2 rfl, hlast⟩

/-- The connection, attached for reading. -/
def attachedConnection : World Unit := oneConnection.attach 0 true

/-- Its object. -/
def attachedFd : AsyncFd Unit := { oid := 0, fd := 3, ioState := EPOLLIN ||| EPOLLET }

theorem attachedConnection_descriptors : attachedConnection.Descriptors :=
  (World.attachLogged_acts oneConnection_unattached.descriptors oneConnection_live _ true).descriptors

theorem attachedConnection_heap : attachedConnection.heap 0 = some attachedFd := rfl

theorem attachedConnection_registered : attachedConnection.RegisteredAs 0 attachedFd.ioState :=
  ⟨attachedFd, rfl, rfl⟩

theorem attachedConnection_settled : attachedConnection.Settled 0 := by
  intro a _ hp
  exact absurd hp (by decide)

theorem attachedConnection_valid (c : CtxCall) (hc : c.on = some 0) :
    c.Valid attachedConnection := by
  intro p hp
  rw [hc] at hp
  cases hp
  rfl

/-- The receiver watches for reading, which is installed, before the sender watches for writing. -/
theorem installs_last_attached :
    ∃ m, ((CtxCall.applyAll [.watch .read 0, .watch .write 0] attachedConnection).flush fun _ => true).RegisteredAs
        0 m ∧ InstallsLast attachedFd.ioState m [(.read, true), (.write, true)] := by
  refine (@installs_last_iff Unit attachedConnection 0 attachedFd [.watch .read 0, .watch .write 0] (fun _ => true)
    attachedConnection_descriptors attachedConnection_heap attachedConnection_registered
    attachedConnection_settled ?_ ?_ rfl).2 ?_
  · intro c hc
    refine attachedConnection_valid c ?_
    fin_cases hc <;> rfl
  · intro c hc
    fin_cases hc <;> trivial
  · intro d on hd hne
    cases d with
    | read =>
      cases hd
      decide
    | write => exact absurd rfl hne

/-- The receiver gives up reading and the sender then watches for writing: `EPOLLIN` stays
installed. -/
theorem unwatchRead_lost :
    ¬∀ (w : World Unit) (p : Addr) (a : AsyncFd Unit) (cs : List CtxCall) (ok : Addr → Bool),
      w.Descriptors → w.heap p = some a → w.RegisteredAs p a.ioState → w.Settled p →
      (∀ c ∈ cs, c.Valid w) → (∀ c ∈ cs, c.Between p) → ok p = true →
      ∃ m, ((CtxCall.applyAll cs w).flush ok).RegisteredAs p m ∧
        InstallsLast a.ioState m (CtxCall.subscriptions p cs) := by
  intro h
  have hvalid : ∀ c ∈ [CtxCall.unwatch .read 0, .watch .write 0], c.Valid attachedConnection := by
    intro c hc
    refine attachedConnection_valid c ?_
    fin_cases hc <;> rfl
  have hbetween : ∀ c ∈ [CtxCall.unwatch .read 0, .watch .write 0], c.Between 0 := by
    intro c hc
    fin_cases hc <;> trivial
  obtain ⟨m, hm, hlast⟩ := h attachedConnection 0 attachedFd _
    (fun _ => true) attachedConnection_descriptors
    attachedConnection_heap attachedConnection_registered attachedConnection_settled hvalid hbetween rfl
  rw [(World.flush_installs attachedConnection_descriptors attachedConnection_heap
    attachedConnection_registered attachedConnection_settled hvalid hbetween rfl m).1 hm] at hlast
  exact absurd (hlast.dir .read) (by decide)

end EpollCoroutine
