import EpollCoroutine.Epoll.Run

/-!
# What calls do to the objects

The calls of a coroutine come in a few groups. Seen from the objects and the two sets of
`IOContext`, a group changes one object (`Sets`, `Puts`), constructs one (`Adds`), destroys one
(`Drops`) or leaves them all alone (`Same`).
-/

namespace EpollCoroutine

theorem Call.applyAll_cons_iff {H : Type} {c : Call H} {cs : List (Call H)} {w w' : World H} :
    Call.applyAll (c :: cs) w = some w' ↔
      c.enabled w = true ∧ Call.applyAll cs (c.apply w) = some w' := by
  rw [Call.applyAll_cons]
  split_ifs with h <;> simp [h]

theorem Call.applyAll_append_iff {H : Type} {cs ds : List (Call H)} {w w' : World H} :
    Call.applyAll (cs ++ ds) w = some w' ↔
      ∃ v, Call.applyAll cs w = some v ∧ Call.applyAll ds v = some w' := by
  induction cs generalizing w with
  | nil => simp
  | cons c cs ih => simp only [List.cons_append, Call.applyAll_cons_iff, ih, and_assoc, exists_and_left]

namespace World

variable {H : Type}

/-- No object changes. -/
structure Same (w w' : World H) : Prop where
  heap : w'.heap = w.heap
  managed : w'.managedFd = w.managedFd
  processed : w'.processedSockets = w.processedSockets

/-- The object at `p` becomes `a`; `marked` says whether it enters `processedSockets`. -/
structure Sets (w w' : World H) (p : Addr) (a : AsyncFd H) (marked : Bool) : Prop where
  heap : w'.heap = Function.update w.heap p (some a)
  managed : w'.managedFd = w.managedFd
  processed : ∀ q, q ∈ w'.processedSockets ↔ (q = p ∧ marked = true) ∨ q ∈ w.processedSockets

/-- The same, without a change in the kernel. -/
structure Puts (w w' : World H) (p : Addr) (a : AsyncFd H) (marked : Bool) : Prop
    extends w.Sets w' p a marked where
  interest : w'.interest = w.interest
  table : w'.table = w.table

/-- The object `a` is constructed at `p`; `attached` says whether it enters `managed_fd` and
`registered` whether the kernel has accepted it. -/
structure Adds (w w' : World H) (p : Addr) (a : AsyncFd H) (attached registered : Bool) :
    Prop where
  free : w.heap p = none
  heap : w'.heap = Function.update w.heap p (some a)
  managed : ∀ q, q ∈ w'.managedFd ↔ (q = p ∧ attached = true) ∨ q ∈ w.managedFd
  processed : w'.processedSockets = w.processedSockets
  interest : w'.interest =
    if registered then Function.update w.interest a.fd (some ⟨a.ioState, p⟩) else w.interest
  table : w'.table = w.table

/-- The object at `p` is destroyed and leaves both sets. -/
structure Drops (w w' : World H) (p : Addr) (a : AsyncFd H) : Prop where
  live : w.heap p = some a
  heap : w'.heap = Function.update w.heap p none
  managed : ∀ q, q ∈ w'.managedFd ↔ q ∈ w.managedFd ∧ q ≠ p
  processed : ∀ q, q ∈ w'.processedSockets ↔ q ∈ w.processedSockets ∧ q ≠ p
  interest : w'.interest = Function.update w.interest a.fd none
  table : w'.table = Function.update w.table a.fd none

variable {w w' w'' : World H} {p : Addr} {a b : AsyncFd H} {m n : Bool}

theorem Same.rfl' : w.Same w := ⟨rfl, rfl, rfl⟩

theorem Same.trans (h : w.Same w') (h' : w'.Same w'') : w.Same w'' :=
  ⟨h'.heap.trans h.heap, h'.managed.trans h.managed, h'.processed.trans h.processed⟩

theorem Sets.same (h : w.Sets w' p a m) (h' : w'.Same w'') : w.Sets w'' p a m where
  heap := h'.heap.trans h.heap
  managed := h'.managed.trans h.managed
  processed := by rw [h'.processed]; exact h.processed

theorem Puts.trans (h : w.Puts w' p a m) (h' : w'.Puts w'' p b n) : w.Puts w'' p b (m || n) where
  heap := by rw [h'.heap, h.heap, Function.update_idem]
  managed := h'.managed.trans h.managed
  processed q := by
    rw [h'.processed, h.processed]
    cases m <;> cases n <;> simp
  interest := h'.interest.trans h.interest
  table := h'.table.trans h.table

/-- Marking an object that is then destroyed leaves no trace. -/
theorem Puts.drops (h : w.Puts w' p b m) (ha : w.heap p = some a) (hfd : b.fd = a.fd)
    (h' : w'.Drops w'' p b) : w.Drops w'' p a where
  live := ha
  heap := by rw [h'.heap, h.heap, Function.update_idem]
  managed q := by rw [h'.managed, h.managed]
  processed q := by
    rw [h'.processed, h.processed]
    constructor
    · rintro ⟨⟨rfl, -⟩ | hq, hne⟩
      · exact absurd rfl hne
      · exact ⟨hq, hne⟩
    · rintro ⟨hq, hne⟩
      exact ⟨Or.inr hq, hne⟩
  interest := by rw [h'.interest, h.interest, hfd]
  table := by rw [h'.table, h.table, hfd]

/-! What is in the heap after a change. -/

theorem heap_update_cases {q : Addr} {c : AsyncFd H}
    (hw : w'.heap = Function.update w.heap p (some b)) (hc : w'.heap q = some c) :
    (q = p ∧ c = b) ∨ (q ≠ p ∧ w.heap q = some c) := by
  rw [hw, Function.update_apply] at hc
  split_ifs at hc with e
  · cases hc
    exact Or.inl ⟨e, rfl⟩
  · exact Or.inr ⟨e, hc⟩

theorem Sets.heap_cases (h : w.Sets w' p b m) {q : Addr} {c : AsyncFd H} (hc : w'.heap q = some c) :
    (q = p ∧ c = b) ∨ (q ≠ p ∧ w.heap q = some c) :=
  heap_update_cases h.heap hc

theorem Adds.heap_cases (h : w.Adds w' p b m n) {q : Addr} {c : AsyncFd H}
    (hc : w'.heap q = some c) : (q = p ∧ c = b) ∨ (q ≠ p ∧ w.heap q = some c) :=
  heap_update_cases h.heap hc

theorem Drops.heap_cases (h : w.Drops w' p b) {q : Addr} {c : AsyncFd H} (hc : w'.heap q = some c) :
    q ≠ p ∧ w.heap q = some c := by
  rw [h.heap, Function.update_apply] at hc
  split_ifs at hc with e
  exact ⟨e, hc⟩

/-! What happens at one address leaves the others alone. -/

theorem Sets.frame (h : w.Sets w' p b m) {q : Addr} (hq : q ≠ p) (ha : w.heap q = some a) :
    w'.heap q = some a ∧ (q ∈ w'.managedFd ↔ q ∈ w.managedFd) ∧
      (q ∈ w'.processedSockets ↔ q ∈ w.processedSockets) := by
  refine ⟨by rw [h.heap, Function.update_of_ne hq, ha], by rw [h.managed], ?_⟩
  rw [h.processed]
  simp [hq]

theorem Adds.ne_of_live (h : w.Adds w' p b m n) {q : Addr} (ha : w.heap q = some a) : q ≠ p := by
  rintro rfl
  rw [h.free] at ha
  cases ha

theorem Adds.frame (h : w.Adds w' p b m n) {q : Addr} (ha : w.heap q = some a) :
    w'.heap q = some a ∧ (q ∈ w'.managedFd ↔ q ∈ w.managedFd) ∧
      (q ∈ w'.processedSockets ↔ q ∈ w.processedSockets) := by
  have hq := h.ne_of_live ha
  refine ⟨by rw [h.heap, Function.update_of_ne hq, ha], ?_, by rw [h.processed]⟩
  rw [h.managed]
  simp [hq]

theorem Drops.frame (h : w.Drops w' p b) {q : Addr} (hq : q ≠ p) (ha : w.heap q = some a) :
    w'.heap q = some a ∧ (q ∈ w'.managedFd ↔ q ∈ w.managedFd) ∧
      (q ∈ w'.processedSockets ↔ q ∈ w.processedSockets) := by
  refine ⟨by rw [h.heap, Function.update_of_ne hq, ha], ?_, ?_⟩
  · rw [h.managed]
    simp [hq]
  · rw [h.processed]
    simp [hq]

theorem modifyAt_of_live (ha : w.heap p = some a) (f : AsyncFd H → AsyncFd H) :
    (w.modifyAt p f).heap = Function.update w.heap p (some (f a)) := by
  simp [modifyAt, ha]

theorem watch_puts (ha : w.heap p = some a) (d : Dir) :
    w.Puts (w.watch d p) p { a with ioNewState := a.ioState ||| d.bit } true where
  heap := modifyAt_of_live ha _
  managed := rfl
  processed q := by simp [watch, OrdSet.mem_insert]
  interest := rfl
  table := rfl

theorem unwatch_puts (ha : w.heap p = some a) (d : Dir) :
    w.Puts (w.unwatch d p) p { a with ioNewState := a.ioState &&& ~~~d.bit } true where
  heap := modifyAt_of_live ha _
  managed := rfl
  processed q := by simp [unwatch, OrdSet.mem_insert]
  interest := rfl
  table := rfl

theorem suspend_puts (ha : w.heap p = some a) (d : Dir) (h : H) :
    w.Puts (w.suspend d p h) p (a.setCoro d h) false where
  heap := modifyAt_of_live ha _
  managed := rfl
  processed q := by simp [suspend, modifyAt]
  interest := rfl
  table := rfl

/-- A hang-up changes `doneRecv_` only. -/
theorem noteHangup_puts {e : Event} (ha : w.heap e.ptr = some a) :
    w.Puts (w.noteHangup e) e.ptr
      { a with doneRecv := a.doneRecv || decide (e.events.has EPOLLHUP) } false := by
  unfold noteHangup
  split_ifs with h
  · refine ⟨⟨?_, rfl, by simp [modifyAt]⟩, rfl, rfl⟩
    simpa [h] using modifyAt_of_live ha fun a => { a with doneRecv := true }
  · refine ⟨⟨?_, rfl, by simp⟩, rfl, rfl⟩
    simp [h, ← ha]

/-- The flush installs the pending mask. -/
theorem flushOne_sets (ha : w.heap p = some a) (ok : Bool) :
    w.Sets (w.flushOne p a ok) p { a with ioState := a.ioNewState } false := by
  unfold flushOne
  split_ifs with h
  · have e : { a with ioState := a.ioNewState } = a := by
      cases a
      simp_all
    refine ⟨?_, rfl, by simp⟩
    rw [e, ← ha, Function.update_eq_self]
  · exact ⟨modifyAt_of_live ha _, rfl, by simp [modifyAt]⟩
  · exact ⟨modifyAt_of_live ha _, rfl, by simp [modifyAt]⟩

theorem destroy_drops (ha : w.heap p = some a) (hfd : a.fd ≠ -1) : w.Drops (w.destroy p) p a where
  live := ha
  heap := by
    funext q
    rw [destroy_heap, Function.update_apply]
  managed q := by rw [destroy_managedFd ha hfd, OrdSet.mem_erase]
  processed q := by rw [destroy_processedSockets ha hfd, OrdSet.mem_erase]
  interest := destroy_interest ha hfd
  table := destroy_table ha hfd

/-- A construction followed by `attach` or `attachWriteOnly`. -/
theorem attachLogged_adds (hp : w.heap p = none) (fd : Fd) (mask : Mask) (ok : Bool) :
    w.Adds ((w.create p fd).attachLogged mask p ok) p
      { oid := w.nextOid, fd := fd, ioState := mask } true (w.addSucceeds fd ok) := by
  have hc : (w.create p fd).heap p = some { oid := w.nextOid, fd := fd } := by simp [create]
  rw [attachLogged_of_live hc]
  refine ⟨hp, ?_, fun q => ?_, ?_, ?_, ?_⟩
  · funext q
    simp only [recordAttached, modifyAt, epollAdd_heap, create, Function.update_apply]
    split_ifs <;> simp_all
  · simp [recordAttached, modifyAt, epollAdd_managedFd, create]
  · simp [recordAttached, modifyAt, epollAdd_processedSockets, create]
  · simp [recordAttached, modifyAt, epollAdd_interest, create, addSucceeds]
  · simp [recordAttached, modifyAt, epollAdd_table, create]

theorem attachReadonlyReturns_create (p : Addr) (fd : Fd) (ok : Bool) :
    (w.create p fd).attachReadonlyReturns p ok = w.addSucceeds fd ok := by
  simp [attachReadonlyReturns, create, addSucceeds]

/-- A construction followed by `attachReadonly`: nothing is recorded when it throws. -/
theorem attachReadonly_adds (hp : w.heap p = none) (fd : Fd) (ok : Bool) :
    w.Adds ((w.create p fd).attachReadonly p ok) p
      { oid := w.nextOid, fd := fd, ioState := if w.addSucceeds fd ok then EPOLLIN ||| EPOLLET else 0#32 }
      (w.addSucceeds fd ok) (w.addSucceeds fd ok) := by
  unfold attachReadonly
  rw [attachReadonlyReturns_create]
  cases hs : w.addSucceeds fd ok with
  | true =>
    have h := attachLogged_adds hp fd (EPOLLIN ||| EPOLLET) ok
    rw [hs] at h
    exact h
  | false => exact ⟨hp, rfl, fun q => by simp [create], rfl, rfl, rfl⟩

end World

namespace Call

variable {H : Type}

/-- A call that concerns descriptors only. -/
def isRaw : Call H → Bool
  | .openFd _ _ | .closeFd _ => true
  | _ => false

theorem applyAll_raw {cs : List (Call H)} {w w' : World H} (hcs : ∀ c ∈ cs, c.isRaw)
    (h : applyAll cs w = some w') : w.Same w' := by
  refine applyAll_inv (I := fun v => w.Same v) (fun c hc v _ hv => hv.trans ?_) h World.Same.rfl'
  have hraw := hcs c hc
  cases c <;> first | exact ⟨rfl, rfl, rfl⟩ | simp [isRaw] at hraw

/-- Such calls leave the registrations alone if they close unregistered descriptors only. -/
theorem applyAll_raw_interest {cs : List (Call H)} {w w' : World H} (hcs : ∀ c ∈ cs, c.isRaw)
    (hclose : ∀ fd, .closeFd fd ∈ cs → w.interest fd = none) (h : applyAll cs w = some w') :
    w'.interest = w.interest := by
  refine applyAll_inv (I := fun v => v.interest = w.interest) (fun c hc v _ hv => ?_) h rfl
  cases c with
  | closeFd fd =>
    rw [← hv]
    simp only [apply, World.closeFd, ← (congrFun hv fd).trans (hclose fd hc),
      Function.update_eq_self]
  | openFd fd f => exact hv
  | _ => exact absurd (hcs _ hc) (by simp [isRaw])

end Call

end EpollCoroutine
