import EpollCoroutine.Epoll.Registered

/-!
# What has been taken since

An account of the descriptors and objects that a sequence of calls has taken since the world was
`w₀`, and not given back. It is kept up to date by one lemma for each kind of call, and an account
that is empty at the end says that nothing is left of the calls.

* `World.Holds w₀ w l objs`: the descriptors in `l` and the objects in `objs`, each with its
  descriptor, have been taken since `w₀`, and nothing else has changed.
* `World.Restored w₀ w`: the descriptor table, the interest set of the kernel and the two sets of
  `IOContext` are as they were.
* `Holds.restored`, `Holds.not_restored`: that is so exactly when no descriptor is left.
-/

namespace EpollCoroutine

namespace World

variable {H : Type}

/-- The descriptors, the registrations and the sets of `IOContext` are as in `w₀`. -/
structure Restored (w₀ w : World H) : Prop where
  table : w.table = w₀.table
  interest : w.interest = w₀.interest
  managed : w.managedFd = w₀.managedFd
  processed : w.processedSockets = w₀.processedSockets

/-- The sets of `IOContext` designate live objects, and the kernel knows live objects only. -/
structure Sound (w : World H) : Prop where
  kernel : w.KernelOk
  managed_live : ∀ p ∈ w.managedFd, ∃ a, w.heap p = some a
  processed_live : ∀ p ∈ w.processedSockets, ∃ a, w.heap p = some a

/-- Since `w₀`, the descriptors in `l` have been opened and the objects in `objs` constructed on
some of them. A registration that is new belongs to one of the objects. -/
structure Holds (w₀ w : World H) (l : Set Fd) (objs : Set (Addr × Fd)) : Prop where
  table : ∀ x ∉ l, w.table x = w₀.table x
  taken : ∀ x ∈ l, 0 ≤ x ∧ w₀.table x = none ∧ (w.table x).isSome
  heap : ∀ q, (∀ fd, (q, fd) ∉ objs) → w.heap q = w₀.heap q
  object : ∀ p fd, (p, fd) ∈ objs → fd ∈ l ∧ w₀.heap p = none ∧ ∃ a, w.heap p = some a ∧ a.fd = fd
  inj : ∀ p q fd, (p, fd) ∈ objs → (q, fd) ∈ objs → p = q
  interest : ∀ x, (∀ p, (p, x) ∉ objs) → w.interest x = w₀.interest x
  managed : ∀ q, (∀ fd, (q, fd) ∉ objs) → (q ∈ w.managedFd ↔ q ∈ w₀.managedFd)
  processed : ∀ q, (∀ fd, (q, fd) ∉ objs) → (q ∈ w.processedSockets ↔ q ∈ w₀.processedSockets)

namespace Holds

variable {w₀ w w' : World H} {l : Set Fd} {objs : Set (Addr × Fd)} {fd : Fd} {p : Addr}
  {a : AsyncFd H} {m n : Bool}

theorem refl (w : World H) : w.Holds w ∅ ∅ where
  table _ _ := rfl
  taken _ hx := hx.elim
  heap _ _ := rfl
  object _ _ h := h.elim
  inj _ _ _ h := h.elim
  interest _ _ := rfl
  managed _ _ := Iff.rfl
  processed _ _ := Iff.rfl

theorem openFd (h : w₀.Holds w l objs) (hl : fd ∉ l) (hfd : 0 ≤ fd ∧ w₀.table fd = none)
    (f : File) :
    w₀.Holds (w.openFd fd f) (insert fd l) objs where
  table x hx := by
    rw [Set.mem_insert_iff, not_or] at hx
    show Function.update w.table fd (some f) x = w₀.table x
    rw [Function.update_of_ne hx.1, h.table x hx.2]
  taken x hx := by
    show 0 ≤ x ∧ w₀.table x = none ∧ (Function.update w.table fd (some f) x).isSome
    by_cases hxf : x = fd
    · subst hxf
      exact ⟨hfd.1, hfd.2, by simp⟩
    · rw [Function.update_of_ne hxf]
      exact h.taken x (hx.resolve_left hxf)
  heap := h.heap
  object p fd' hp := ⟨Set.mem_insert_of_mem _ (h.object p fd' hp).1, (h.object p fd' hp).2⟩
  inj := h.inj
  interest := h.interest
  managed := h.managed
  processed := h.processed

/-- A descriptor without an object is closed. -/
theorem closeFd (h : w₀.Holds w l objs) (hk : w₀.KernelOk) (hfd : fd ∈ l)
    (hobj : ∀ p, (p, fd) ∉ objs) : w₀.Holds (w.closeFd fd) (l \ {fd}) objs where
  table x hx := by
    show Function.update w.table fd none x = w₀.table x
    by_cases hxf : x = fd
    · rw [hxf, Function.update_self, (h.taken fd hfd).2.1]
    · rw [Function.update_of_ne hxf]
      exact h.table x fun hxl => hx ⟨hxl, hxf⟩
  taken x hx := by
    show 0 ≤ x ∧ w₀.table x = none ∧ (Function.update w.table fd none x).isSome
    rw [Function.update_of_ne hx.2]
    exact h.taken x hx.1
  heap := h.heap
  object p fd' hp := by
    refine ⟨⟨(h.object p fd' hp).1, ?_⟩, (h.object p fd' hp).2⟩
    rintro rfl
    exact hobj p hp
  inj := h.inj
  interest x hx := by
    show Function.update w.interest fd none x = w₀.interest x
    by_cases hxf : x = fd
    · rw [hxf, Function.update_self, hk.interest_none (h.taken fd hfd).2.1]
    · rw [Function.update_of_ne hxf, h.interest x hx]
  managed := h.managed
  processed := h.processed

/-- An object is constructed on a descriptor that has none. -/
theorem adds (h : w₀.Holds w l objs) (hw : w.Adds w' p a m n) (hfd : a.fd ∈ l)
    (hobj : ∀ q, (q, a.fd) ∉ objs) : w₀.Holds w' l (insert (p, a.fd) objs) := by
  have hnew : ∀ fd, (p, fd) ∉ objs := by
    intro fd hmem
    obtain ⟨-, -, b, hb, -⟩ := h.object p fd hmem
    rw [hw.free] at hb
    cases hb
  have hsplit : ∀ {q : Addr}, (∀ fd, (q, fd) ∉ insert (p, a.fd) objs) → q ≠ p ∧
      ∀ fd, (q, fd) ∉ objs := by
    intro q hq
    refine ⟨fun e => hq a.fd ?_, fun fd hmem => hq fd (Set.mem_insert_of_mem _ hmem)⟩
    rw [e]
    exact Set.mem_insert _ _
  constructor
  · intro x hx
    rw [hw.table, h.table x hx]
  · intro x hx
    rw [hw.table]
    exact h.taken x hx
  · intro q hq
    obtain ⟨hne, hq⟩ := hsplit hq
    rw [hw.heap, Function.update_of_ne hne, h.heap q hq]
  · intro q fd hq
    rcases hq with hq | hq
    · cases hq
      refine ⟨hfd, ?_, a, ?_, rfl⟩
      · rw [← h.heap p hnew, hw.free]
      · rw [hw.heap, Function.update_self]
    · obtain ⟨hl, hnone, b, hb, hbfd⟩ := h.object q fd hq
      exact ⟨hl, hnone, b, (hw.frame hb).1, hbfd⟩
  · intro q r fd hq hr
    rcases hq with hq | hq
    · cases hq
      rcases hr with hr | hr
      · cases hr
        rfl
      · exact absurd hr (hobj r)
    · rcases hr with hr | hr
      · cases hr
        exact absurd hq (hobj q)
      · exact h.inj q r fd hq hr
  · intro x hx
    have hne : x ≠ a.fd := by
      rintro rfl
      exact hx p (Set.mem_insert _ _)
    rw [hw.interest]
    have hold := h.interest x fun q hq => hx q (Set.mem_insert_of_mem _ hq)
    split_ifs
    · rw [Function.update_of_ne hne, hold]
    · exact hold
  · intro q hq
    obtain ⟨hne, hq⟩ := hsplit hq
    rw [hw.managed, ← h.managed q hq]
    simp [hne]
  · intro q hq
    rw [hw.processed]
    exact h.processed q (hsplit hq).2

/-- An object is destroyed, which closes its descriptor. -/
theorem drops (h : w₀.Holds w l objs) (hs : w₀.Sound) (hw : w.Drops w' p a)
    (hobj : (p, a.fd) ∈ objs) : w₀.Holds w' (l \ {a.fd}) (objs \ {(p, a.fd)}) := by
  obtain ⟨hl, hnone, -⟩ := h.object p a.fd hobj
  have honly : ∀ {fd : Fd}, (p, fd) ∈ objs → fd = a.fd := by
    intro fd hmem
    obtain ⟨-, -, b, hb, rfl⟩ := h.object p fd hmem
    rw [hw.live] at hb
    cases hb
    rfl
  have hsplit : ∀ {q : Addr}, (∀ fd, (q, fd) ∉ objs \ {(p, a.fd)}) → q = p ∨
      ∀ fd, (q, fd) ∉ objs := by
    intro q hq
    refine or_iff_not_imp_left.2 fun hne fd hmem => hq fd ⟨hmem, ?_⟩
    rintro ⟨⟩
    exact hne rfl
  have hother : ∀ {q : Addr}, (∀ fd, (q, fd) ∉ objs) → q ≠ p := by
    rintro q hq rfl
    exact hq a.fd hobj
  have hsets : p ∉ w₀.managedFd ∧ p ∉ w₀.processedSockets := by
    refine ⟨fun hm => ?_, fun hm => ?_⟩
    · obtain ⟨b, hb⟩ := hs.managed_live p hm
      rw [hnone] at hb
      cases hb
    · obtain ⟨b, hb⟩ := hs.processed_live p hm
      rw [hnone] at hb
      cases hb
  constructor
  · intro x hx
    rw [hw.table]
    by_cases hxf : x = a.fd
    · rw [hxf, Function.update_self, (h.taken _ hl).2.1]
    · rw [Function.update_of_ne hxf]
      exact h.table x fun hxl => hx ⟨hxl, hxf⟩
  · intro x hx
    rw [hw.table, Function.update_of_ne hx.2]
    exact h.taken x hx.1
  · intro q hq
    rw [hw.heap]
    rcases hsplit hq with rfl | hq
    · rw [Function.update_self, hnone]
    · rw [Function.update_of_ne (hother hq), h.heap q hq]
  · intro q fd hq
    obtain ⟨hfd, hq0, b, hb, hbfd⟩ := h.object q fd hq.1
    have hne : q ≠ p := by
      rintro rfl
      exact hq.2 (by rw [honly hq.1]; rfl)
    refine ⟨⟨hfd, ?_⟩, hq0, b, (hw.frame hne hb).1, hbfd⟩
    rintro rfl
    exact hne (h.inj q p _ hq.1 hobj)
  · intro q r fd hq hr
    exact h.inj q r fd hq.1 hr.1
  · intro x hx
    rw [hw.interest]
    by_cases hxf : x = a.fd
    · rw [hxf, Function.update_self, hs.kernel.interest_none (h.taken _ hl).2.1]
    · rw [Function.update_of_ne hxf]
      refine h.interest x fun q hq => hx q ⟨hq, ?_⟩
      rintro ⟨⟩
      exact hxf rfl
  · intro q hq
    rw [hw.managed]
    rcases hsplit hq with rfl | hq
    · simp [hsets.1]
    · rw [h.managed q hq]
      exact and_iff_left (hother hq)
  · intro q hq
    rw [hw.processed]
    rcases hsplit hq with rfl | hq
    · simp [hsets.2]
    · rw [h.processed q hq]
      exact and_iff_left (hother hq)

/-- The kernel accepts a descriptor that has no object, unless it refuses for a reason of its own.
-/
theorem addSucceeds (h : w₀.Holds w l objs) (hs : w₀.Sound) (hfd : fd ∈ l)
    (hobj : ∀ q, (q, fd) ∉ objs) (ok : Bool) : w.addSucceeds fd ok = ok := by
  obtain ⟨-, hnone, hsome⟩ := h.taken fd hfd
  have hint : w.interest fd = none := by rw [h.interest fd hobj, hs.kernel.interest_none hnone]
  simp [World.addSucceeds, hsome, hint]

theorem free (h : w₀.Holds w l objs) (hp : w₀.heap p = none) (hobj : ∀ fd, (p, fd) ∉ objs) :
    w.heap p = none := by
  rw [h.heap p hobj, hp]

/-- An object is constructed and handed to `attachReadonly`, which returns if the kernel accepts. -/
theorem attachReadonly (h : w₀.Holds w l objs) (hs : w₀.Sound) (hp : w₀.heap p = none)
    (hnew : ∀ fd, (p, fd) ∉ objs) (hfd : fd ∈ l) (hobj : ∀ q, (q, fd) ∉ objs) (ok : Bool) :
    (w.create p fd).attachReadonlyReturns p ok = ok ∧
      w₀.Holds ((w.create p fd).attachReadonly p ok) l (insert (p, fd) objs) := by
  refine ⟨?_, h.adds (attachReadonly_adds (h.free hp hnew) fd ok) hfd hobj⟩
  rw [attachReadonlyReturns_create, h.addSucceeds hs hfd hobj]

theorem attachWriteOnly (h : w₀.Holds w l objs) (hp : w₀.heap p = none)
    (hnew : ∀ fd, (p, fd) ∉ objs) (hfd : fd ∈ l) (hobj : ∀ q, (q, fd) ∉ objs) (ok : Bool) :
    w₀.Holds ((w.create p fd).attachWriteOnly p ok) l (insert (p, fd) objs) :=
  h.adds (attachLogged_adds (h.free hp hnew) fd _ ok) hfd hobj

theorem destroy (h : w₀.Holds w l objs) (hs : w₀.Sound) (hobj : (p, fd) ∈ objs) :
    w₀.Holds (w.destroy p) (l \ {fd}) (objs \ {(p, fd)}) := by
  obtain ⟨hl, -, a, ha, rfl⟩ := h.object p fd hobj
  have hfd : a.fd ≠ -1 := by
    have h0 := (h.taken a.fd hl).1
    intro e
    rw [e] at h0
    cases h0
  exact h.drops hs (destroy_drops ha hfd) hobj

/-- Nothing is left. -/
theorem restored (h : w₀.Holds w ∅ ∅) : w₀.Restored w where
  table := funext fun x => h.table x (Set.notMem_empty x)
  interest := funext fun x => h.interest x fun _ => Set.notMem_empty _
  managed := OrdSet.eq_of_mem_iff fun q => h.managed q fun _ => Set.notMem_empty _
  processed := OrdSet.eq_of_mem_iff fun q => h.processed q fun _ => Set.notMem_empty _

/-- A descriptor is left. -/
theorem not_restored (h : w₀.Holds w l objs) (hfd : fd ∈ l) : ¬ w₀.Restored w := by
  intro hr
  obtain ⟨-, hnone, hsome⟩ := h.taken fd hfd
  rw [hr.table, hnone] at hsome
  cases hsome

end Holds

end World

end EpollCoroutine
