import EpollCoroutine.Epoll.Registered

/-!
# The three copies of a subscription

What `IOContext` knows of a descriptor is kept in three places: membership in `managed_fd`, the mask
`io_state_` of the object, and the mask registered in the kernel. This file follows arbitrary
sequences of calls on `IOContext`.

* `CtxCall`: a call, with the outcome of its `epoll_ctl`; `World.flush` is the loop over
  `processedSockets` at the end of a round of `run`.
* `Slot`: what concerns one descriptor. The calls act on each slot by itself: `slot_applyAll`.
* `coherent_iff`: the copies agree after every call exactly as long as the kernel refuses none of
  the calls whose refusal is only logged.
-/

namespace EpollCoroutine

variable {H : Type}

/-! ### Calls on `IOContext` -/

/-- A call on `IOContext`, with the outcome of its `EPOLL_CTL_ADD` or of each of its
`EPOLL_CTL_MOD`s. -/
inductive CtxCall
  | attach (p : Addr) (ok : Bool)
  | attachReadonly (p : Addr) (ok : Bool)
  | attachWriteOnly (p : Addr) (ok : Bool)
  | watch (d : Dir) (p : Addr)
  | unwatch (d : Dir) (p : Addr)
  | flush (ok : Addr → Bool)
  | detach (p : Addr)

namespace World

/-- The loop over `processedSockets`, from a position on. A destroyed object has left the set, so
the pointers are valid. -/
def flushFrom (ok : Addr → Bool) : List Addr → World H → World H
  | [], w => w
  | p :: todo, w =>
    match w.heap p with
    | none => flushFrom ok todo w
    | some a => flushFrom ok todo (w.flushOne p a (ok p))

/-- The loop over `processedSockets` at the end of a round of `run`. -/
def flush (w : World H) (ok : Addr → Bool) : World H := w.flushFrom ok w.processedSockets.elems

end World

namespace CtxCall

/-- The effect of a call. -/
def apply : CtxCall → World H → World H
  | .attach p ok, w => w.attach p ok
  | .attachReadonly p ok, w => w.attachReadonly p ok
  | .attachWriteOnly p ok, w => w.attachWriteOnly p ok
  | .watch d p, w => w.watch d p
  | .unwatch d p, w => w.unwatch d p
  | .flush ok, w => w.flush ok
  | .detach p, w =>
    match w.heap p with
    | none => w
    | some a => w.detach p a.fd

/-- The calls of a list in order. -/
def applyAll : List CtxCall → World H → World H
  | [], w => w
  | c :: cs, w => applyAll cs (c.apply w)

/-- The object that a call is made on. -/
def on : CtxCall → Option Addr
  | .attach p _ | .attachReadonly p _ | .attachWriteOnly p _ | .watch _ p | .unwatch _ p | .detach p => some p
  | .flush _ => none

end CtxCall

/-- The loop of `run` over `processedSockets` is `World.flush`: one step of the server for each of
its iterations. -/
theorem Server.exec_flush {σ ℓ : Type} (P : Program H σ ℓ) (ok : Addr → Bool) (co : σ)
    (todo : List Addr)
    (w : World H) (hlive : ∀ p ∈ todo, (w.heap p).isSome) :
    Lts.exec (Server.step P) (fun _ _ => true) ⟨w, .flush todo, co⟩
      (todo.map fun p => .modify (ok p)) =
      some ⟨w.flushFrom ok todo, .flush [], co⟩ := by
  induction todo generalizing w with
  | nil => rfl
  | cons p todo ih =>
    obtain ⟨a, ha⟩ := Option.isSome_iff_exists.1 (hlive p List.mem_cons_self)
    have hlive' : ∀ q ∈ todo, ((w.flushOne p a (ok p)).heap q).isSome := by
      intro q hq
      rw [(World.flushOne_sets ha (ok p)).heap, Function.update_apply]
      split_ifs
      · rfl
      · exact hlive q (List.mem_cons_of_mem _ hq)
    simpa [Lts.exec, Server.step, World.flushFrom, ha] using ih _ hlive'

/-! ### One descriptor at a time -/

/-- What the calls read and write of one descriptor. -/
structure Slot where
  opened : Bool
  managed : Bool
  processed : Bool
  ioState : Mask
  ioNewState : Mask
  kernel : Option Mask
  deriving DecidableEq

namespace Slot

/-- Whether `EPOLL_CTL_ADD` succeeds. -/
def addSucceeds (s : Slot) (ok : Bool) : Bool := ok && s.opened && s.kernel.isNone

/-- `attach` and `attachWriteOnly`. -/
def attachLogged (m : Mask) (ok : Bool) (s : Slot) : Slot :=
  { s with managed := true, ioState := m, kernel := if s.addSucceeds ok then some m else s.kernel }

/-- `attachReadonly`. -/
def attachReadonly (ok : Bool) (s : Slot) : Slot :=
  if s.addSucceeds ok then s.attachLogged (EPOLLIN ||| EPOLLET) ok else s

/-- `watchRead` and `watchWrite`. -/
def watch (d : Dir) (s : Slot) : Slot :=
  { s with ioNewState := s.ioState ||| d.bit, processed := true }

/-- `unwatchRead` and `unwatchWrite`. -/
def unwatch (d : Dir) (s : Slot) : Slot :=
  { s with ioNewState := s.ioState &&& ~~~d.bit, processed := true }

/-- The iteration of the flush for this descriptor. -/
def flushOne (ok : Bool) (s : Slot) : Slot :=
  if s.ioState = s.ioNewState then s
  else
    { s with
      ioState := s.ioNewState
      kernel := if ok && s.opened && s.kernel.isSome then some s.ioNewState else s.kernel }

/-- The flush. -/
def flush (ok : Bool) (s : Slot) : Slot := if s.processed then s.flushOne ok else s

/-- `detach`. -/
def detach (s : Slot) : Slot :=
  { s with managed := false, processed := false, kernel := if s.opened then none else s.kernel }

/-- The copies agree. -/
def Coherent (s : Slot) : Prop := s.kernel = if s.managed then some s.ioState else none

end Slot

/-- What a call does to the slot of `p`. -/
def CtxCall.effect (p : Addr) : CtxCall → Slot → Slot
  | .attach q ok, s => if q = p then s.attachLogged (EPOLLIN ||| EPOLLET) ok else s
  | .attachReadonly q ok, s => if q = p then s.attachReadonly ok else s
  | .attachWriteOnly q ok, s => if q = p then s.attachLogged (EPOLLOUT ||| EPOLLET) ok else s
  | .watch d q, s => if q = p then s.watch d else s
  | .unwatch d q, s => if q = p then s.unwatch d else s
  | .flush ok, s => s.flush (ok p)
  | .detach q, s => if q = p then s.detach else s

namespace World

/-- The slot of the object `a` at `p`. -/
def slot (w : World H) (p : Addr) (a : AsyncFd H) : Slot where
  opened := (w.table a.fd).isSome
  managed := decide (p ∈ w.managedFd)
  processed := decide (p ∈ w.processedSockets)
  ioState := a.ioState
  ioNewState := a.ioNewState
  kernel := (w.interest a.fd).map Interest.events

/-- The slot at `p`, if an object lives there. -/
def slotAt (w : World H) (p : Addr) : Option Slot := (w.heap p).map (w.slot p)

/-- Objects with pairwise distinct descriptors, and pointers to them only. -/
structure Descriptors (w : World H) : Prop where
  distinct : ∀ p q a b, w.heap p = some a → w.heap q = some b → a.fd = b.fd → p = q
  managed : ∀ p ∈ w.managedFd, (w.heap p).isSome
  processed : ∀ p ∈ w.processedSockets, (w.heap p).isSome
  kernel : w.KernelOk

/-- Only the object `a` at `p`, which becomes `b`, and what is known of it change. -/
structure Touches (w w' : World H) (p : Addr) (a b : AsyncFd H) : Prop where
  live : w.heap p = some a
  heap : w'.heap = Function.update w.heap p (some b)
  fd : b.fd = a.fd
  table : w'.table = w.table
  interest : ∀ fd, fd ≠ a.fd → w'.interest fd = w.interest fd
  managed : ∀ q, q ≠ p → (q ∈ w'.managedFd ↔ q ∈ w.managedFd)
  processed : ∀ q, q ≠ p → (q ∈ w'.processedSockets ↔ q ∈ w.processedSockets)

variable {w w' : World H} {p q : Addr} {a b : AsyncFd H}

theorem slotAt_of_live (ha : w.heap p = some a) : w.slotAt p = some (w.slot p a) := by
  rw [slotAt, ha]
  rfl

namespace Touches

variable (h : w.Touches w' p a b)

include h

theorem heap_self : w'.heap p = some b := by
  rw [h.heap, Function.update_self]

theorem heap_of_ne (hq : q ≠ p) : w'.heap q = w.heap q := by
  rw [h.heap, Function.update_of_ne hq]

theorem isSome_heap (q : Addr) : (w'.heap q).isSome = (w.heap q).isSome := by
  by_cases hq : q = p
  · rw [hq, h.heap_self, h.live]
    rfl
  · rw [h.heap_of_ne hq]

/-- Descriptors do not change. -/
theorem heap_fd {c : AsyncFd H} (hc : w'.heap q = some c) :
    ∃ c₀, w.heap q = some c₀ ∧ c₀.fd = c.fd := by
  rcases heap_update_cases h.heap hc with ⟨rfl, rfl⟩ | ⟨_, hc⟩
  · exact ⟨a, h.live, h.fd.symm⟩
  · exact ⟨c, hc, rfl⟩

theorem slotAt_self : w'.slotAt p = some (w'.slot p b) := slotAt_of_live h.heap_self

/-- The slots of the other objects are as before. -/
theorem slotAt_of_ne (hw : w.Descriptors) (hq : q ≠ p) : w'.slotAt q = w.slotAt q := by
  rw [slotAt, slotAt, h.heap_of_ne hq]
  refine Option.map_congr fun c hc => ?_
  have hfd : c.fd ≠ a.fd := fun e => hq (hw.distinct q p c a hc h.live e)
  simp [slot, h.table, h.interest _ hfd, h.managed q hq, h.processed q hq]

theorem descriptors (hw : w.Descriptors) (hk : w'.KernelOk) : w'.Descriptors where
  distinct q r c e hc he hfd := by
    obtain ⟨c₀, hc₀, hcfd⟩ := h.heap_fd hc
    obtain ⟨e₀, he₀, hefd⟩ := h.heap_fd he
    exact hw.distinct q r c₀ e₀ hc₀ he₀ (hcfd.trans (hfd.trans hefd.symm))
  managed q hq := by
    by_cases hqp : q = p
    · rw [hqp, h.heap_self]
      rfl
    · rw [h.isSome_heap]
      exact hw.managed q ((h.managed q hqp).1 hq)
  processed q hq := by
    by_cases hqp : q = p
    · rw [hqp, h.heap_self]
      rfl
    · rw [h.isSome_heap]
      exact hw.processed q ((h.processed q hqp).1 hq)
  kernel := hk

end Touches

/-! ### The calls, one by one -/

theorem attachLogged_touches (ha : w.heap p = some a) (m : Mask) (ok : Bool) :
    w.Touches (w.attachLogged m p ok) p a { a with ioState := m } := by
  rw [attachLogged_of_live ha]
  refine ⟨ha, ?_, rfl, ?_, fun fd hfd => ?_, fun q hq => ?_, fun q _ => ?_⟩
  · simp [recordAttached, modifyAt, epollAdd_heap, ha]
  · exact epollAdd_table m p a.fd ok
  · show (w.epollAdd m p a.fd ok).interest fd = _
    rw [epollAdd_interest]
    split_ifs
    · rw [Function.update_of_ne hfd]
    · rfl
  · show q ∈ (w.epollAdd m p a.fd ok).managedFd.insert p ↔ _
    rw [epollAdd_managedFd, OrdSet.mem_insert]
    simp [hq]
  · show q ∈ (w.epollAdd m p a.fd ok).processedSockets ↔ _
    rw [epollAdd_processedSockets]

theorem attachLogged_slot (ha : w.heap p = some a) (m : Mask) (ok : Bool) :
    (w.attachLogged m p ok).slot p { a with ioState := m } = (w.slot p a).attachLogged m ok := by
  rw [attachLogged_of_live ha]
  have hadd : (w.slot p a).addSucceeds ok = w.addSucceeds a.fd ok := by
    simp [Slot.addSucceeds, addSucceeds, slot]
  rw [Slot.attachLogged, hadd]
  simp only [slot, recordAttached, modifyAt, epollAdd_table, epollAdd_processedSockets,
    epollAdd_interest,
    OrdSet.mem_insert, true_or, decide_true]
  split_ifs <;> simp

theorem subscribe_touches (ha : w.heap p = some a) (m : Mask) :
    w.Touches { w.modifyAt p fun a => { a with ioNewState := m } with
      processedSockets := w.processedSockets.insert p } p a { a with ioNewState := m } := by
  refine ⟨ha, ?_, rfl, rfl, fun _ _ => rfl, fun q _ => Iff.rfl, fun q hq => ?_⟩
  · simp [modifyAt, ha]
  · simp [hq]

theorem watch_touches (ha : w.heap p = some a) (d : Dir) :
    w.Touches (w.watch d p) p a { a with ioNewState := a.ioState ||| d.bit } := by
  have h := subscribe_touches ha (a.ioState ||| d.bit)
  simpa [watch, modifyAt, ha] using h

theorem unwatch_touches (ha : w.heap p = some a) (d : Dir) :
    w.Touches (w.unwatch d p) p a { a with ioNewState := a.ioState &&& ~~~d.bit } := by
  have h := subscribe_touches ha (a.ioState &&& ~~~d.bit)
  simpa [unwatch, modifyAt, ha] using h

theorem watch_slot (d : Dir) :
    (w.watch d p).slot p { a with ioNewState := a.ioState ||| d.bit } = (w.slot p a).watch d := by
  simp only [slot, watch, Slot.watch, OrdSet.mem_insert, true_or, decide_true]
  rfl

theorem unwatch_slot (d : Dir) :
    (w.unwatch d p).slot p { a with ioNewState := a.ioState &&& ~~~d.bit } = (w.slot p a).unwatch d := by
  simp only [slot, unwatch, Slot.unwatch, OrdSet.mem_insert, true_or, decide_true]
  rfl

theorem detach_touches (ha : w.heap p = some a) : w.Touches (w.detach p a.fd) p a a := by
  refine ⟨ha, ?_, rfl, rfl, fun fd hfd => ?_, fun q hq => ?_, fun q hq => ?_⟩
  · rw [← ha, Function.update_eq_self]
    rfl
  · simp only [detach]
    split_ifs
    · rw [Function.update_of_ne hfd]
    · rfl
  · simp [detach, hq]
  · simp [detach, hq]

theorem detach_slot : (w.detach p a.fd).slot p a = (w.slot p a).detach := by
  simp only [slot, detach, Slot.detach, OrdSet.mem_erase, ne_eq, not_true_eq_false, and_false,
    decide_false]
  by_cases ht : (w.table a.fd).isSome <;> simp [ht]

theorem flushOne_touches (ha : w.heap p = some a) (ok : Bool) :
    w.Touches (w.flushOne p a ok) p a { a with ioState := a.ioNewState } := by
  have h := flushOne_sets ha ok
  refine ⟨ha, h.heap, rfl, ?_, fun fd hfd => ?_, fun q _ => by rw [h.managed], fun q hq => ?_⟩
  · unfold flushOne
    split_ifs <;> rfl
  · unfold flushOne
    split_ifs
    · rfl
    · exact Function.update_of_ne hfd _ _
    · rfl
  · rw [h.processed]
    simp [hq]

theorem flushOne_slot (ok : Bool) :
    (w.flushOne p a ok).slot p { a with ioState := a.ioNewState } = (w.slot p a).flushOne ok := by
  have hmod : w.modSucceeds a.fd ok = (ok && (w.table a.fd).isSome && (w.interest a.fd).isSome) := rfl
  unfold flushOne Slot.flushOne
  by_cases he : a.ioState = a.ioNewState
  · simp [slot, he]
  · rw [if_neg he, if_neg (show (w.slot p a).ioState ≠ (w.slot p a).ioNewState from he), hmod]
    simp only [slot, Option.isSome_map]
    split_ifs
    · rw [Function.update_self]
      rfl
    · rfl

theorem KernelOk.detach (hw : w.KernelOk) (p : Addr) (fd : Fd) : (w.detach p fd).KernelOk := by
  refine ⟨hw.invalid_closed, fun fd' i hi => ?_⟩
  simp only [World.detach] at hi
  split_ifs at hi
  · rw [Function.update_apply] at hi
    split_ifs at hi
    exact hw.interest_live fd' i hi
  · exact hw.interest_live fd' i hi

/-! ### Every call acts on each slot by itself -/

/-- From `w` to `w'` the slot at each address changes by a function of its own. -/
structure Acts (w w' : World H) (f : Addr → Slot → Slot) : Prop where
  descriptors : w'.Descriptors
  slotAt : ∀ q, w'.slotAt q = (w.slotAt q).map (f q)

theorem isSome_slotAt : (w.slotAt p).isSome = (w.heap p).isSome := by
  simp [slotAt]

theorem Acts.isSome_heap {f : Addr → Slot → Slot} (h : w.Acts w' f) (q : Addr) :
    (w'.heap q).isSome = (w.heap q).isSome := by
  rw [← isSome_slotAt, ← isSome_slotAt, h.slotAt, Option.isSome_map]

/-- A change of one object. -/
theorem Touches.acts (h : w.Touches w' p a b) (hw : w.Descriptors) (hk : w'.KernelOk)
    {f : Slot → Slot}
    (hf : w'.slot p b = f (w.slot p a)) : w.Acts w' fun q s => if p = q then f s else s := by
  refine ⟨h.descriptors hw hk, fun q => ?_⟩
  by_cases hq : q = p
  · subst hq
    rw [h.slotAt_self, slotAt_of_live h.live, hf]
    simp
  · rw [h.slotAt_of_ne hw hq]
    simp [Ne.symm hq]

theorem attachLogged_acts (hw : w.Descriptors) (hp : (w.heap p).isSome) (m : Mask) (ok : Bool) :
    w.Acts (w.attachLogged m p ok) fun q s => if p = q then s.attachLogged m ok else s := by
  obtain ⟨a, ha⟩ := Option.isSome_iff_exists.1 hp
  exact (attachLogged_touches ha m ok).acts hw (hw.kernel.attachLogged m p ok)
    (attachLogged_slot ha m ok)

theorem attachReadonly_acts (hw : w.Descriptors) (hp : (w.heap p).isSome) (ok : Bool) :
    w.Acts (w.attachReadonly p ok) fun q s => if p = q then s.attachReadonly ok else s := by
  obtain ⟨a, ha⟩ := Option.isSome_iff_exists.1 hp
  have hret : w.attachReadonlyReturns p ok = (w.slot p a).addSucceeds ok := by
    simp [attachReadonlyReturns, ha, addSucceeds, Slot.addSucceeds, slot]
  unfold attachReadonly
  rw [hret]
  split_ifs with h
  · refine (attachLogged_touches ha _ ok).acts hw (hw.kernel.attachLogged _ p ok) ?_
    rw [attachLogged_slot ha, Slot.attachReadonly, if_pos h]
  · refine ⟨hw, fun q => ?_⟩
    by_cases hq : p = q
    · subst hq
      simp [slotAt_of_live ha, Slot.attachReadonly, h]
    · simp [hq]

theorem watch_acts (hw : w.Descriptors) (hp : (w.heap p).isSome) (d : Dir) :
    w.Acts (w.watch d p) fun q s => if p = q then s.watch d else s := by
  obtain ⟨a, ha⟩ := Option.isSome_iff_exists.1 hp
  have hc : (Call.watch d p).enabled w = true := hp
  exact (watch_touches ha d).acts hw (hw.kernel.apply hc) (watch_slot d)

theorem unwatch_acts (hw : w.Descriptors) (hp : (w.heap p).isSome) (d : Dir) :
    w.Acts (w.unwatch d p) fun q s => if p = q then s.unwatch d else s := by
  obtain ⟨a, ha⟩ := Option.isSome_iff_exists.1 hp
  have hc : (Call.unwatch d p).enabled w = true := hp
  exact (unwatch_touches ha d).acts hw (hw.kernel.apply hc) (unwatch_slot d)

theorem flushOne_acts (hw : w.Descriptors) (ha : w.heap p = some a) (ok : Bool) :
    w.Acts (w.flushOne p a ok) fun q s => if p = q then s.flushOne ok else s :=
  (flushOne_touches ha ok).acts hw (hw.kernel.flushOne ha ok) (flushOne_slot ok)

/-- The loop, from a position on, treats each address once. -/
theorem flushFrom_acts (ok : Addr → Bool) {todo : List Addr} (hnd : todo.Nodup) (hw : w.Descriptors)
    (hlive : ∀ p ∈ todo, (w.heap p).isSome) :
    w.Acts (w.flushFrom ok todo) fun q s => if q ∈ todo then s.flushOne (ok q) else s := by
  induction todo generalizing w with
  | nil => exact ⟨hw, fun q => by simp [flushFrom]⟩
  | cons p todo ih =>
    obtain ⟨hp, hnd⟩ := List.nodup_cons.1 hnd
    obtain ⟨a, ha⟩ := Option.isSome_iff_exists.1 (hlive p List.mem_cons_self)
    have h1 := flushOne_acts hw ha (ok p)
    have h2 := ih hnd h1.descriptors fun q hq => by
      rw [h1.isSome_heap]
      exact hlive q (List.mem_cons_of_mem _ hq)
    have heq : w.flushFrom ok (p :: todo) = (w.flushOne p a (ok p)).flushFrom ok todo := by
      simp [flushFrom, ha]
    refine ⟨heq ▸ h2.descriptors, fun q => ?_⟩
    rw [heq, h2.slotAt, h1.slotAt, Option.map_map]
    refine Option.map_congr fun s _ => ?_
    by_cases hq : p = q
    · subst hq
      simp [hp]
    · simp [hq, Ne.symm hq]

theorem flush_acts (hw : w.Descriptors) (ok : Addr → Bool) :
    w.Acts (w.flush ok) fun q s => s.flush (ok q) := by
  have hnd : w.processedSockets.elems.Nodup := w.processedSockets.sorted.imp fun h => h.ne
  have h := flushFrom_acts ok hnd hw hw.processed
  refine ⟨h.descriptors, fun q => (h.slotAt q).trans (Option.map_congr fun s hs => ?_)⟩
  obtain ⟨a, _, rfl⟩ := Option.map_eq_some_iff.1 hs
  simp only [Slot.flush, slot, decide_eq_true_eq, OrdSet.mem_elems]

end World

namespace CtxCall

variable {w : World H} {c : CtxCall} {cs : List CtxCall}

/-- The call is made on a live object. -/
def Valid (w : World H) (c : CtxCall) : Prop := ∀ p ∈ c.on, (w.heap p).isSome

/-- **A call acts on each slot by itself.** -/
theorem apply_acts (hw : w.Descriptors) (hc : c.Valid w) :
    w.Acts (c.apply w) fun q => c.effect q := by
  cases c with
  | attach p ok => exact World.attachLogged_acts hw (hc p rfl) _ ok
  | attachReadonly p ok => exact World.attachReadonly_acts hw (hc p rfl) ok
  | attachWriteOnly p ok => exact World.attachLogged_acts hw (hc p rfl) _ ok
  | watch d p => exact World.watch_acts hw (hc p rfl) d
  | unwatch d p => exact World.unwatch_acts hw (hc p rfl) d
  | flush ok => exact World.flush_acts hw ok
  | detach p =>
    obtain ⟨a, ha⟩ := Option.isSome_iff_exists.1 (hc p rfl)
    have hap : (CtxCall.detach p).apply w = w.detach p a.fd := by
      simp [apply, ha]
    rw [hap]
    exact (World.detach_touches ha).acts hw (hw.kernel.detach p a.fd) World.detach_slot

/-- A sequence of calls does. -/
theorem applyAll_acts (hw : w.Descriptors) (hcs : ∀ c ∈ cs, c.Valid w) :
    w.Acts (applyAll cs w) fun q s => cs.foldl (fun s c => c.effect q s) s := by
  induction cs generalizing w with
  | nil => exact ⟨hw, fun q => by simp [applyAll]⟩
  | cons c cs ih =>
    have h1 := apply_acts hw (hcs c List.mem_cons_self)
    have h2 := ih h1.descriptors fun c' hc' p hp => by
      rw [h1.isSome_heap]
      exact hcs c' (List.mem_cons_of_mem _ hc') p hp
    refine ⟨h2.descriptors, fun q => ?_⟩
    show (applyAll cs (c.apply w)).slotAt q = _
    rw [h2.slotAt, h1.slotAt, Option.map_map]
    rfl

end CtxCall

/-! ### Coherence -/

namespace World

/-- The object at `p` is registered in the kernel with the mask `m`. -/
def RegisteredAs (w : World H) (p : Addr) (m : Mask) : Prop :=
  ∃ a, w.heap p = some a ∧ w.interest a.fd = some ⟨m, p⟩

/-- `managed_fd` is the set of registered objects, and the `io_state_` of each is its mask in the
kernel. -/
structure Coherent (w : World H) : Prop where
  managed : ∀ p, p ∈ w.managedFd ↔ ∃ m, w.RegisteredAs p m
  mask : ∀ p a m, w.heap p = some a → w.RegisteredAs p m → a.ioState = m

/-- Objects with pairwise distinct descriptors, on which no call has been made. -/
structure Unattached (w : World H) : Prop where
  distinct : ∀ p q a b, w.heap p = some a → w.heap q = some b → a.fd = b.fd → p = q
  managed : w.managedFd = .empty
  processed : w.processedSockets = .empty
  interest : ∀ fd, w.interest fd = none
  invalid_closed : w.table (-1) = none

variable {w : World H} {p : Addr} {a : AsyncFd H} {m : Mask}

theorem Unattached.descriptors (h : w.Unattached) : w.Descriptors where
  distinct := h.distinct
  managed p hp := by
    rw [h.managed] at hp
    exact absurd hp (OrdSet.not_mem_empty p)
  processed p hp := by
    rw [h.processed] at hp
    exact absurd hp (OrdSet.not_mem_empty p)
  kernel := ⟨h.invalid_closed, fun fd i hi => by simp [h.interest] at hi⟩

/-- A registration of a descriptor is one of its object. -/
theorem Descriptors.interest_ptr (hw : w.Descriptors) (ha : w.heap p = some a) {i : Interest}
    (hi : w.interest a.fd = some i) : i.ptr = p := by
  obtain ⟨_, b, hb, hfd⟩ := hw.kernel.interest_live a.fd i hi
  exact hw.distinct _ _ b a hb ha hfd

theorem registeredAs_iff (hw : w.Descriptors) (ha : w.heap p = some a) :
    w.RegisteredAs p m ↔ (w.slot p a).kernel = some m := by
  constructor
  · rintro ⟨b, hb, hi⟩
    rw [ha] at hb
    cases hb
    simp [slot, hi]
  · intro hm
    obtain ⟨i, hi, rfl⟩ := Option.map_eq_some_iff.1 hm
    refine ⟨a, ha, ?_⟩
    rw [hi, ← hw.interest_ptr ha hi]

/-- Coherence is a property of each slot. -/
theorem coherent_iff_slots (hw : w.Descriptors) :
    w.Coherent ↔ ∀ p s, w.slotAt p = some s → s.Coherent := by
  constructor
  · intro h p s hs
    obtain ⟨a, ha, rfl⟩ := Option.map_eq_some_iff.1 hs
    show (w.slot p a).kernel = if decide (p ∈ w.managedFd) then some a.ioState else none
    by_cases hp : p ∈ w.managedFd
    · obtain ⟨m, hm⟩ := (h.managed p).1 hp
      rw [(registeredAs_iff hw ha).1 hm, h.mask p a m ha hm]
      simp [hp]
    · cases hk : (w.slot p a).kernel with
      | none => simp [hp]
      | some m => exact absurd ((h.managed p).2 ⟨m, (registeredAs_iff hw ha).2 hk⟩) hp
  · intro h
    have hslot : ∀ p a, w.heap p = some a →
        (w.slot p a).kernel = if p ∈ w.managedFd then some a.ioState else none := by
      intro p a ha
      simpa [Slot.Coherent, slot] using h p _ (slotAt_of_live ha)
    refine ⟨fun p => ⟨fun hp => ?_, ?_⟩, fun p a m ha hm => ?_⟩
    · obtain ⟨a, ha⟩ := Option.isSome_iff_exists.1 (hw.managed p hp)
      exact ⟨a.ioState, (registeredAs_iff hw ha).2 (by rw [hslot p a ha, if_pos hp])⟩
    · rintro ⟨m, a, ha, hi⟩
      by_contra hp
      have hk := hslot p a ha
      rw [(registeredAs_iff hw ha).1 ⟨a, ha, hi⟩, if_neg hp] at hk
      cases hk
    · rw [registeredAs_iff hw ha, hslot p a ha] at hm
      split_ifs at hm
      exact Option.some.inj hm

theorem Unattached.coherent (h : w.Unattached) : w.Coherent := by
  rw [coherent_iff_slots h.descriptors]
  intro p s hs
  obtain ⟨a, _, rfl⟩ := Option.map_eq_some_iff.1 hs
  simp [Slot.Coherent, slot, h.interest, h.managed]

/-- A registered descriptor is open. -/
theorem Descriptors.opened (hw : w.Descriptors) {s : Slot} (hs : w.slotAt p = some s)
    (hk : s.kernel.isSome) : s.opened = true := by
  obtain ⟨a, _, rfl⟩ := Option.map_eq_some_iff.1 hs
  obtain ⟨i, hi⟩ := Option.isSome_iff_exists.1
    (show (w.interest a.fd).isSome by simpa [slot] using hk)
  exact (hw.kernel.interest_live a.fd i hi).1

end World

/-- What the code takes for granted of a call: the kernel accepts the `EPOLL_CTL_ADD` of `attach`
and `attachWriteOnly`, unless the object is registered with that mask already, and the
`EPOLL_CTL_MOD` of every registered object whose mask changes. -/
def CtxCall.Accepted (w : World H) : CtxCall → Prop
  | .attach p ok => ∀ a, w.heap p = some a →
      w.addSucceeds a.fd ok ∨ w.RegisteredAs p (EPOLLIN ||| EPOLLET)
  | .attachWriteOnly p ok => ∀ a, w.heap p = some a →
      w.addSucceeds a.fd ok ∨ w.RegisteredAs p (EPOLLOUT ||| EPOLLET)
  | .flush ok => ∀ p ∈ w.processedSockets, ∀ a m, w.heap p = some a → w.RegisteredAs p m →
      a.ioState ≠ a.ioNewState → ok p
  | .attachReadonly _ _ | .watch _ _ | .unwatch _ _ | .detach _ => True

/-- The same for the slot of `p`. -/
def CtxCall.AcceptedAt (p : Addr) : CtxCall → Slot → Prop
  | .attach q ok, s => q = p → s.addSucceeds ok ∨ s.kernel = some (EPOLLIN ||| EPOLLET)
  | .attachWriteOnly q ok, s => q = p → s.addSucceeds ok ∨ s.kernel = some (EPOLLOUT ||| EPOLLET)
  | .flush ok, s => s.processed → s.kernel.isSome → s.ioState ≠ s.ioNewState → ok p
  | .attachReadonly _ _, _ | .watch _ _, _ | .unwatch _ _, _ | .detach _, _ => True

namespace Slot

variable {s : Slot} {m : Mask} {ok : Bool}

theorem attachLogged_coherent_iff :
    (s.attachLogged m ok).Coherent ↔ s.addSucceeds ok ∨ s.kernel = some m := by
  unfold Coherent attachLogged
  by_cases h : s.addSucceeds ok <;> simp [h]

theorem attachReadonly_coherent (hs : s.Coherent) : (s.attachReadonly ok).Coherent := by
  unfold attachReadonly
  split_ifs with h
  · exact attachLogged_coherent_iff.2 (Or.inl h)
  · exact hs

theorem detach_coherent (hopen : s.kernel.isSome → s.opened = true) : s.detach.Coherent := by
  unfold Coherent detach
  cases ho : s.opened with
  | true => simp
  | false =>
    have hk : s.kernel = none := by
      by_contra hne
      rw [hopen (Option.isSome_iff_ne_none.2 hne)] at ho
      cases ho
    simp [hk]

/-- The flush keeps the copies equal exactly if the kernel accepts a change of a registration. -/
theorem flush_coherent_iff (hs : s.Coherent) (hopen : s.kernel.isSome → s.opened = true) :
    (s.flush ok).Coherent ↔
      (s.processed = true → s.kernel.isSome → s.ioState ≠ s.ioNewState → ok = true) := by
  unfold flush flushOne
  by_cases hp : s.processed = true
  · by_cases he : s.ioState = s.ioNewState
    · simpa [hp, he] using hs
    · unfold Coherent at hs ⊢
      cases hm : s.managed with
      | false =>
        rw [hm] at hs
        simp [hp, he, hs]
      | true =>
        rw [hm, if_pos rfl] at hs
        rw [hs] at hopen
        cases ok <;> simp [hp, he, hs, hopen]
  · simpa [hp] using hs

end Slot

namespace CtxCall

variable {w : World H} {c : CtxCall} {cs : List CtxCall} {p : Addr} {s : Slot}

/-- A call keeps the copies of one descriptor equal exactly if it is accepted. -/
theorem effect_coherent_iff (hs : s.Coherent) (hopen : s.kernel.isSome → s.opened = true) :
    (c.effect p s).Coherent ↔ c.AcceptedAt p s := by
  cases c with
  | attach q ok | attachWriteOnly q ok =>
    simp only [effect, AcceptedAt]
    split_ifs with hq
    · simp [hq, Slot.attachLogged_coherent_iff]
    · simp [hq, hs]
  | attachReadonly q ok =>
    simp only [effect, AcceptedAt, iff_true]
    split_ifs
    · exact Slot.attachReadonly_coherent hs
    · exact hs
  | watch d q | unwatch d q =>
    simp only [effect, AcceptedAt, iff_true]
    split_ifs
    · exact hs
    · exact hs
  | flush ok => exact Slot.flush_coherent_iff hs hopen
  | detach q =>
    simp only [effect, AcceptedAt, iff_true]
    split_ifs
    · exact Slot.detach_coherent hopen
    · exact hs

/-- The assumption on a call is one on each slot. -/
theorem accepted_iff_slots (hw : w.Descriptors) :
    c.Accepted w ↔ ∀ p s, w.slotAt p = some s → c.AcceptedAt p s := by
  have hadd : ∀ p a ok, w.addSucceeds a.fd ok = (w.slot p a).addSucceeds ok := by
    intro p a ok
    simp [World.addSucceeds, Slot.addSucceeds, World.slot]
  cases c with
  | attach q ok | attachWriteOnly q ok =>
    constructor
    · intro h p s hs hq
      subst hq
      obtain ⟨a, ha, rfl⟩ := Option.map_eq_some_iff.1 hs
      rw [← hadd, ← World.registeredAs_iff hw ha]
      exact h a ha
    · intro h a ha
      rw [hadd q, World.registeredAs_iff hw ha]
      exact h q _ (World.slotAt_of_live ha) rfl
  | flush ok =>
    constructor
    · intro h p s hs hp hk hne
      obtain ⟨a, ha, rfl⟩ := Option.map_eq_some_iff.1 hs
      obtain ⟨m, hm⟩ := Option.isSome_iff_exists.1 hk
      exact h p (of_decide_eq_true hp) a m ha ((World.registeredAs_iff hw ha).2 hm) hne
    · intro h p hp a m ha hm hne
      have hk : (w.slot p a).kernel = some m := (World.registeredAs_iff hw ha).1 hm
      exact h p _ (World.slotAt_of_live ha) (decide_eq_true hp) (by simp [hk]) hne
  | attachReadonly q ok | watch d q | unwatch d q | detach q => simp [Accepted, AcceptedAt]

/-- One call from a coherent state. -/
theorem apply_coherent_iff (hw : w.Descriptors) (hc : c.Valid w) (h : w.Coherent) :
    (c.apply w).Coherent ↔ c.Accepted w := by
  have hact := apply_acts hw hc
  rw [World.coherent_iff_slots hw] at h
  rw [World.coherent_iff_slots hact.descriptors, accepted_iff_slots hw]
  constructor
  · intro h' p s hs
    refine (effect_coherent_iff (h p s hs) (hw.opened hs)).1 (h' p _ ?_)
    rw [hact.slotAt, hs]
    rfl
  · intro h' p s' hs'
    rw [hact.slotAt] at hs'
    obtain ⟨s, hs, rfl⟩ := Option.map_eq_some_iff.1 hs'
    exact (effect_coherent_iff (h p s hs) (hw.opened hs)).2 (h' p s hs)

/-- A run from a coherent state. -/
theorem applyAll_coherent_iff (hw : w.Descriptors) (hcs : ∀ c ∈ cs, c.Valid w) (h : w.Coherent) :
    (∀ n, (applyAll (cs.take n) w).Coherent) ↔
      ∀ (n : ℕ) (c : CtxCall), cs[n]? = some c → c.Accepted (applyAll (cs.take n) w) := by
  induction cs generalizing w with
  | nil => simpa [applyAll] using h
  | cons c cs ih =>
    have hact := apply_acts hw (hcs c List.mem_cons_self)
    have hone := apply_coherent_iff hw (hcs c List.mem_cons_self) h
    have hcs' : ∀ c' ∈ cs, c'.Valid (c.apply w) := by
      intro c' hc' p hp
      rw [hact.isSome_heap]
      exact hcs c' (List.mem_cons_of_mem _ hc') p hp
    constructor
    · intro hall n c' hc'
      cases n with
      | zero =>
        obtain rfl : c = c' := by simpa using hc'
        exact hone.1 (hall 1)
      | succ n =>
        exact (ih hact.descriptors hcs' (hall 1)).1 (fun k => hall (k + 1)) n c'
          (by simpa using hc')
    · intro hall n
      cases n with
      | zero => exact h
      | succ n =>
        have h1 : (c.apply w).Coherent := hone.2 (hall 0 c rfl)
        exact (ih hact.descriptors hcs' h1).2 (fun k c' hc' => hall (k + 1) c' (by simpa using hc')) n

end CtxCall

/-- **The copies of a subscription agree exactly as long as no logged call is refused.** From
objects with distinct descriptors on which no call has been made, after each of a sequence of calls
with any outcomes, `managed_fd` is the set of registered objects and each `io_state_` the mask in
the kernel, if and only if every call is accepted. -/
theorem coherent_iff {w : World H} {cs : List CtxCall} (hw : w.Unattached)
    (hcs : ∀ c ∈ cs, c.Valid w) :
    (∀ n, (CtxCall.applyAll (cs.take n) w).Coherent) ↔
      ∀ (n : ℕ) (c : CtxCall), cs[n]? = some c → c.Accepted (CtxCall.applyAll (cs.take n) w) :=
  CtxCall.applyAll_coherent_iff hw.descriptors hcs hw.coherent

/-- An open connection with an object that is not attached yet. -/
def oneConnection : World Unit := (World.initial.openFd 3 .connection).create 0 3

theorem oneConnection_heap (p : Addr) :
    oneConnection.heap p = if p = 0 then some { oid := 0, fd := 3 } else none := by
  simp [oneConnection, World.create, World.openFd, World.initial, Function.update_apply]

theorem oneConnection_unattached : oneConnection.Unattached := by
  refine ⟨fun p q a b ha hb _ => ?_, rfl, rfl, fun _ => rfl, rfl⟩
  rw [oneConnection_heap] at ha hb
  split_ifs at ha hb with hp hq
  rw [hp, hq]

theorem oneConnection_live : (oneConnection.heap 0).isSome := by
  rw [oneConnection_heap]
  rfl

/-- A connection that is attached and then watched for writing. -/
theorem coherent_iff_oneConnection :
    (CtxCall.applyAll [.attach 0 true, .watch .write 0, .flush fun _ => true] oneConnection).Coherent := by
  refine (@coherent_iff Unit oneConnection [.attach 0 true, .watch .write 0, .flush fun _ => true]
    oneConnection_unattached ?_).2 ?_ 3
  · intro c hc p hp
    have hp0 : p = 0 := by
      rcases List.mem_cons.1 hc with rfl | hc
      · simpa [CtxCall.on] using hp.symm
      · rcases List.mem_cons.1 hc with rfl | hc
        · simpa [CtxCall.on] using hp.symm
        · rw [List.mem_singleton.1 hc] at hp
          cases hp
    rw [hp0]
    exact oneConnection_live
  · intro n c hc
    match n with
    | 0 =>
      cases hc
      intro a ha
      obtain rfl : _ = a := Option.some.inj ((oneConnection_heap 0).symm.trans ha)
      exact Or.inl (by decide)
    | 1 =>
      cases hc
      trivial
    | 2 =>
      cases hc
      intro p _ a m _ _ _
      rfl
    | n + 3 => simp at hc

/-- A refused `EPOLL_CTL_ADD` leaves an object in `managed_fd` that the kernel does not know. -/
theorem attach_incoherent :
    ¬∀ (w : World Unit) (cs : List CtxCall), w.Unattached → (∀ c ∈ cs, c.Valid w) →
      (CtxCall.applyAll cs w).Coherent := by
  intro h
  have hcoh := h oneConnection [.attach 0 false] oneConnection_unattached fun c hc p hp => by
    rw [List.mem_singleton.1 hc] at hp
    cases hp
    exact oneConnection_live
  obtain ⟨m, a, ha, hi⟩ := (hcoh.managed 0).1 (by decide)
  have ha' : a.fd = 3 := by
    have : (CtxCall.applyAll [.attach 0 false] oneConnection).heap 0 =
      some { oid := 0, fd := 3, ioState := EPOLLIN ||| EPOLLET } := rfl
    rw [this] at ha
    cases ha
    rfl
  rw [ha'] at hi
  cases hi

end EpollCoroutine
