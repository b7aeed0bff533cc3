import EpollCoroutine.Epoll.Change
import EpollCoroutine.Epoll.Stale

/-!
# Masks and registrations

While every `epoll_ctl` succeeds, what the kernel has registered for an object is its `io_state_`,
and the pending change is the difference between `io_state_` and its effective mask: the mask that
the next flush leaves installed.

* `World.eff`: the effective mask.
* `World.Registered`: the kernel agrees with `io_state_`, and every mask keeps `EPOLLET`.
* `World.Flushed`: no change of a mask is pending.
* `World.Raw`: open descriptors that are not registered.
-/

namespace EpollCoroutine

variable {H : Type}

namespace World

/-- The mask that the next flush leaves installed. -/
def eff (w : World H) (p : Addr) (a : AsyncFd H) : Mask :=
  if p ∈ w.processedSockets then a.ioNewState else a.ioState

/-- Every object is managed and registered with its `io_state_`; masks keep `EPOLLET`. -/
structure Registered (w : World H) : Prop where
  managed : ∀ p a, w.heap p = some a → p ∈ w.managedFd
  interest : ∀ p a, w.heap p = some a → a.fd ≠ -1 → w.interest a.fd = some ⟨a.ioState, p⟩
  et : ∀ p a, w.heap p = some a → a.ioState.has EPOLLET ∧ (w.eff p a).has EPOLLET

/-- No change of a mask is pending. -/
def Flushed (w : World H) : Prop := ∀ p a, w.heap p = some a → a.ioState = w.eff p a

/-- Open descriptors, each listed once, that are not registered. -/
structure Raw (w : World H) (l : List Fd) : Prop where
  nodup : l.Nodup
  opened : ∀ fd ∈ l, (w.table fd).isSome
  interest : ∀ fd ∈ l, w.interest fd = none

variable {w w' : World H} {p q : Addr} {a b c : AsyncFd H} {m n : Bool} {fd : Fd} {l : List Fd}

/-! ### The effective mask -/

theorem eff_congr (h : q ∈ w'.processedSockets ↔ q ∈ w.processedSockets) (c : AsyncFd H) :
    w'.eff q c = w.eff q c := by
  simp [eff, h]

theorem Same.eff (h : w.Same w') (q : Addr) (c : AsyncFd H) : w'.eff q c = w.eff q c :=
  eff_congr (by rw [h.processed]) c

theorem Sets.eff_of_ne (h : w.Sets w' p b m) (hq : q ≠ p) (c : AsyncFd H) :
    w'.eff q c = w.eff q c :=
  eff_congr (by rw [h.processed]; simp [hq]) c

/-- The effective mask of an object that is marked. -/
theorem Sets.eff_self (h : w.Sets w' p b true) : w'.eff p b = b.ioNewState := by
  simp [World.eff, (h.processed p).2 (Or.inl ⟨rfl, rfl⟩)]

/-- A change without a mark that keeps both masks keeps the effective one. -/
theorem Sets.eff_unmarked (h : w.Sets w' p b false) (hst : b.ioState = a.ioState)
    (hnew : b.ioNewState = a.ioNewState) : w'.eff p b = w.eff p a := by
  have hproc : p ∈ w'.processedSockets ↔ p ∈ w.processedSockets := by
    rw [h.processed]
    simp
  simp [World.eff, hproc, hst, hnew]

theorem Adds.eff (h : w.Adds w' p b m n) (q : Addr) (c : AsyncFd H) : w'.eff q c = w.eff q c :=
  eff_congr (by rw [h.processed]) c

theorem Drops.eff_of_ne (h : w.Drops w' p b) (hq : q ≠ p) (c : AsyncFd H) :
    w'.eff q c = w.eff q c :=
  eff_congr (by rw [h.processed]; simp [hq]) c

/-- The flush does not change what the next flush would install. -/
theorem flushOne_eff (ha : w.heap p = some a) (hp : p ∈ w.processedSockets) (ok : Bool) :
    (w.flushOne p a ok).eff p { a with ioState := a.ioNewState } = w.eff p a := by
  have hproc : p ∈ (w.flushOne p a ok).processedSockets :=
    ((flushOne_sets ha ok).processed p).2 (Or.inr hp)
  simp [World.eff, hproc, hp]

/-! ### Registrations -/

namespace Registered

/-- Two objects do not share a descriptor. -/
theorem fd_ne (h : w.Registered) (ha : w.heap p = some a) (hc : w.heap q = some c)
    (hfd : c.fd ≠ -1) (hne : q ≠ p) : c.fd ≠ a.fd := by
  intro e
  have h1 := h.interest q c hc hfd
  have h2 := h.interest p a ha (e ▸ hfd)
  rw [e, h2] at h1
  simp only [Option.some.injEq, Interest.mk.injEq] at h1
  exact hne h1.2.symm

theorem same (h : w.Registered) (hw : w.Same w') (hi : w'.interest = w.interest) :
    w'.Registered where
  managed := by rw [hw.heap, hw.managed]; exact h.managed
  interest := by rw [hw.heap, hi]; exact h.interest
  et q c hc := by
    rw [hw.eff]
    rw [hw.heap] at hc
    exact h.et q c hc

/-- A change that leaves the installed mask alone. -/
theorem puts (h : w.Registered) (hw : w.Puts w' p b m) (ha : w.heap p = some a)
    (hfd : b.fd = a.fd) (hst : b.ioState = a.ioState)
    (het : a.ioState.has EPOLLET → (w.eff p a).has EPOLLET → (w'.eff p b).has EPOLLET) :
    w'.Registered := by
  refine ⟨fun q c hc => ?_, fun q c hc hne => ?_, fun q c hc => ?_⟩
  · rw [hw.managed]
    rcases hw.heap_cases hc with ⟨rfl, rfl⟩ | ⟨-, hc⟩
    · exact h.managed q a ha
    · exact h.managed q c hc
  · rw [hw.interest]
    rcases hw.heap_cases hc with ⟨rfl, rfl⟩ | ⟨-, hc⟩
    · rw [hfd] at hne ⊢
      rw [hst]
      exact h.interest q a ha hne
    · exact h.interest q c hc hne
  · rcases hw.heap_cases hc with ⟨rfl, rfl⟩ | ⟨e, hc⟩
    · obtain ⟨h1, h2⟩ := h.et q a ha
      exact ⟨hst ▸ h1, het h1 h2⟩
    · rw [hw.toSets.eff_of_ne e]
      exact h.et q c hc

/-- The flush of an object, when `epoll_ctl` succeeds. -/
theorem flushOne (h : w.Registered) (hk : w.KernelOk) (ha : w.heap p = some a) (hfd : a.fd ≠ -1)
    (hp : p ∈ w.processedSockets) : (w.flushOne p a true).Registered := by
  have hw := flushOne_sets ha true
  have hint : (w.flushOne p a true).interest =
      Function.update w.interest a.fd (some ⟨a.ioNewState, p⟩) := by
    have hreg := h.interest p a ha hfd
    unfold World.flushOne
    split_ifs with e hmod
    · rw [← e, ← hreg, Function.update_eq_self]
    · rfl
    · have hopen : (w.table a.fd).isSome := (hk.interest_live a.fd _ hreg).1
      simp [modSucceeds, hreg, hopen] at hmod
  refine ⟨fun q c hc => ?_, fun q c hc hne => ?_, fun q c hc => ?_⟩
  · rw [hw.managed]
    rcases hw.heap_cases hc with ⟨rfl, -⟩ | ⟨-, hc⟩
    · exact h.managed q a ha
    · exact h.managed q c hc
  · rw [hint]
    rcases hw.heap_cases hc with ⟨rfl, rfl⟩ | ⟨e, hc⟩
    · rw [Function.update_self]
    · rw [Function.update_of_ne (h.fd_ne ha hc hne e)]
      exact h.interest q c hc hne
  · rcases hw.heap_cases hc with ⟨rfl, rfl⟩ | ⟨e, hc⟩
    · have het := (h.et q a ha).2
      rw [flushOne_eff ha hp]
      refine ⟨?_, het⟩
      simpa [World.eff, hp] using het
    · rw [hw.eff_of_ne e]
      exact h.et q c hc

/-- A new object on a descriptor that was not registered. -/
theorem adds (h : w.Registered) (hw : w.Adds w' p b true n)
    (hproc : ∀ q ∈ w.processedSockets, q ∈ w.managedFd)
    (hlive : ∀ q ∈ w.managedFd, ∃ c, w.heap q = some c) (hset : b.ioState.has EPOLLET)
    (hfd : b.fd ≠ -1 → n = true ∧ w.interest b.fd = none) (hint : b.fd = -1 → n = false) :
    w'.Registered := by
  refine ⟨fun q c hc => ?_, fun q c hc hne => ?_, fun q c hc => ?_⟩
  · rw [hw.managed]
    rcases hw.heap_cases hc with ⟨rfl, -⟩ | ⟨-, hc⟩
    · exact Or.inl ⟨rfl, rfl⟩
    · exact Or.inr (h.managed q c hc)
  · rw [hw.interest]
    rcases hw.heap_cases hc with ⟨rfl, rfl⟩ | ⟨e, hc⟩
    · rw [if_pos (hfd hne).1, Function.update_self]
    · have hold := h.interest q c hc hne
      by_cases hb : b.fd = -1
      · rw [hint hb]
        exact hold
      · obtain ⟨hn, hnone⟩ := hfd hb
        have hcb : c.fd ≠ b.fd := by
          intro e
          rw [e, hnone] at hold
          cases hold
        rw [if_pos hn, Function.update_of_ne hcb]
        exact hold
  · rw [hw.eff]
    rcases hw.heap_cases hc with ⟨rfl, rfl⟩ | ⟨-, hc⟩
    · -- the address was free, so no mark is left from an earlier object
      have hp : q ∉ w.processedSockets := by
        intro hq
        obtain ⟨c', hc'⟩ := hlive q (hproc q hq)
        rw [hw.free] at hc'
        cases hc'
      simpa [World.eff, hp] using hset
    · exact h.et q c hc

theorem drops (h : w.Registered) (hw : w.Drops w' p a) : w'.Registered := by
  refine ⟨fun q c hc => ?_, fun q c hc hne => ?_, fun q c hc => ?_⟩
  · obtain ⟨e, hc⟩ := hw.heap_cases hc
    exact (hw.managed q).2 ⟨h.managed q c hc, e⟩
  · obtain ⟨e, hc⟩ := hw.heap_cases hc
    rw [hw.interest, Function.update_of_ne (h.fd_ne hw.live hc hne e)]
    exact h.interest q c hc hne
  · obtain ⟨e, hc⟩ := hw.heap_cases hc
    rw [hw.eff_of_ne e]
    exact h.et q c hc

end Registered

/-! ### Descriptors without an object -/

theorem KernelOk.interest_none (hk : w.KernelOk) (h : w.table fd = none) :
    w.interest fd = none := by
  by_contra hne
  obtain ⟨i, hi⟩ := Option.ne_none_iff_exists'.1 hne
  have := (hk.interest_live fd i hi).1
  simp [h] at this

namespace Raw

theorem nil : w.Raw [] := ⟨List.nodup_nil, by simp, by simp⟩

theorem sublist (h : w.Raw l) {l' : List Fd} (hl : l'.Sublist l) : w.Raw l' where
  nodup := h.nodup.sublist hl
  opened fd hfd := h.opened fd (hl.subset hfd)
  interest fd hfd := h.interest fd (hl.subset hfd)

/-- A new descriptor. -/
theorem openFd (h : w.Raw l) (hk : w.KernelOk) (hfd : w.table fd = none) (f : File) :
    (w.openFd fd f).Raw (fd :: l) := by
  refine ⟨List.nodup_cons.2 ⟨fun hin => ?_, h.nodup⟩, fun fd' hfd' => ?_, fun fd' hfd' => ?_⟩
  · have := h.opened fd hin
    simp [hfd] at this
  · simp only [World.openFd, Function.update_apply]
    split_ifs with e
    · rfl
    · exact h.opened fd' ((List.mem_cons.1 hfd').resolve_left e)
  · show w.interest fd' = none
    rcases List.mem_cons.1 hfd' with rfl | hin
    · exact hk.interest_none hfd
    · exact h.interest fd' hin

/-- The two descriptors of a new pipe. -/
theorem pipe (h : w.Raw l) (hk : w.KernelOk) {r wr : Fd} {f g : File}
    (hw : Call.applyAll [.openFd r f, .openFd wr g] w = some w') : w'.Raw (wr :: r :: l) := by
  simp only [Call.applyAll_cons_iff, Call.applyAll_nil, Option.some.injEq] at hw
  obtain ⟨hr, hwr, rfl⟩ := hw
  have hk' := hk.apply hr
  simp only [Call.enabled, Bool.and_eq_true, Option.isNone_iff_eq_none] at hr hwr
  exact (h.openFd hk hr.1 f).openFd hk' hwr.1 g

/-- An object takes over one of the descriptors. -/
theorem adds (h : w.Raw l) (hw : w.Adds w' p b m n) {l' : List Fd} (hl : l'.Sublist l)
    (hfd : b.fd ∉ l') : w'.Raw l' where
  nodup := h.nodup.sublist hl
  opened fd hin := by rw [hw.table]; exact h.opened fd (hl.subset hin)
  interest fd hin := by
    have hold := h.interest fd (hl.subset hin)
    rw [hw.interest]
    split_ifs
    · rw [Function.update_of_ne fun e : fd = b.fd => hfd (e ▸ hin)]
      exact hold
    · exact hold

theorem addSucceeds (h : w.Raw l) (hfd : fd ∈ l) (ok : Bool) : w.addSucceeds fd ok = ok := by
  simp [World.addSucceeds, h.opened fd hfd, h.interest fd hfd]

end Raw

end World

end EpollCoroutine
