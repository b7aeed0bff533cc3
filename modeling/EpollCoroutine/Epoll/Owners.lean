import EpollCoroutine.Epoll.Change

/-!
# Owners

`IOContext` holds raw pointers; who is responsible for an object is known to the coroutines only.
For a relation `owns` between owners of any kind and addresses, `Owned w owns` says that

* what is owned is live, and has one owner;
* what is in `managed_fd` is live and owned, and `processedSockets` is a part of `managed_fd`.

The lemmas follow the four kinds of changes of `Change`.
-/

namespace EpollCoroutine

variable {H ω : Type}

/-- Every managed object is live and has exactly one owner. -/
structure World.Owned (w : World H) (owns : ω → Addr → Prop) : Prop where
  managed_live : ∀ p ∈ w.managedFd, ∃ a, w.heap p = some a
  processed_managed : ∀ p ∈ w.processedSockets, p ∈ w.managedFd
  live : ∀ o p, owns o p → ∃ a, w.heap p = some a
  inj : ∀ o o' p, owns o p → owns o' p → o = o'
  owned : ∀ p ∈ w.managedFd, ∃ o, owns o p

namespace World.Owned

variable {w w' : World H} {owns owns' : ω → Addr → Prop} {p : Addr} {a b : AsyncFd H} {m n : Bool}

/-- Only who owns what matters. -/
theorem congr (h : w.Owned owns) (ho : ∀ o q, owns' o q ↔ owns o q) : w.Owned owns' := by
  have : owns' = owns := by
    funext o q
    exact propext (ho o q)
  rwa [this]

theorem same (h : w.Owned owns) (hw : w.Same w') : w'.Owned owns where
  managed_live := by rw [hw.heap, hw.managed]; exact h.managed_live
  processed_managed := by rw [hw.managed, hw.processed]; exact h.processed_managed
  live := by rw [hw.heap]; exact h.live
  inj := h.inj
  owned := by rw [hw.managed]; exact h.owned

/-- A change of a managed object. -/
theorem sets (h : w.Owned owns) (hw : w.Sets w' p b m) (hm : m = true → p ∈ w.managedFd)
    : w'.Owned owns where
  managed_live q hq := by
    rw [hw.managed] at hq
    rw [hw.heap, Function.update_apply]
    split_ifs
    · exact ⟨b, rfl⟩
    · exact h.managed_live q hq
  processed_managed q hq := by
    rw [hw.managed]
    rcases (hw.processed q).1 hq with ⟨rfl, hmk⟩ | hq
    · exact hm hmk
    · exact h.processed_managed q hq
  live o q hq := by
    rw [hw.heap, Function.update_apply]
    split_ifs
    · exact ⟨b, rfl⟩
    · exact h.live o q hq
  inj := h.inj
  owned q hq := by
    rw [hw.managed] at hq
    exact h.owned q hq

/-- A new object with a new owner. -/
theorem adds (h : w.Owned owns) (hw : w.Adds w' p b m n) {o : ω}
    (ho : ∀ o' q, owns' o' q ↔ owns o' q ∨ (o' = o ∧ q = p)) :
    w'.Owned owns' := by
  -- nothing that is owned already is at the free address
  have hfree : ∀ o' q, owns o' q → q ≠ p := by
    rintro o' q hq rfl
    obtain ⟨a, ha⟩ := h.live o' q hq
    rw [hw.free] at ha
    cases ha
  have hold : ∀ q, (∃ a, w.heap q = some a) → ∃ a, w'.heap q = some a := by
    intro q hq
    rw [hw.heap, Function.update_apply]
    split_ifs
    · exact ⟨b, rfl⟩
    · exact hq
  have hnew : ∃ a, w'.heap p = some a := ⟨b, by rw [hw.heap]; simp⟩
  refine ⟨fun q hq => ?_, fun q hq => ?_, fun o' q hq => ?_, fun o1 o2 q h1 h2 => ?_,
    fun q hq => ?_⟩
  · rcases (hw.managed q).1 hq with ⟨rfl, -⟩ | hq
    · exact hnew
    · exact hold q (h.managed_live q hq)
  · rw [hw.processed] at hq
    exact (hw.managed q).2 (Or.inr (h.processed_managed q hq))
  · rcases (ho o' q).1 hq with hq | ⟨-, rfl⟩
    · exact hold q (h.live o' q hq)
    · exact hnew
  · rcases (ho o1 q).1 h1 with h1 | ⟨rfl, rfl⟩ <;> rcases (ho o2 q).1 h2 with h2 | ⟨rfl, e⟩
    · exact h.inj o1 o2 q h1 h2
    · exact absurd e (hfree o1 q h1)
    · exact absurd rfl (hfree o2 q h2)
    · rfl
  · rcases (hw.managed q).1 hq with ⟨rfl, -⟩ | hq
    · exact ⟨o, (ho o q).2 (Or.inr ⟨rfl, rfl⟩)⟩
    · obtain ⟨o', ho'⟩ := h.owned q hq
      exact ⟨o', (ho o' q).2 (Or.inl ho')⟩

/-- The end of an object. -/
theorem drops (h : w.Owned owns) (hw : w.Drops w' p a)
    (ho : ∀ o' q, owns' o' q ↔ owns o' q ∧ q ≠ p) : w'.Owned owns' := by
  have hold : ∀ q, q ≠ p → w'.heap q = w.heap q := by
    intro q hq
    rw [hw.heap, Function.update_of_ne hq]
  refine ⟨fun q hq => ?_, fun q hq => ?_, fun o' q hq => ?_, fun o1 o2 q h1 h2 => ?_,
    fun q hq => ?_⟩
  · obtain ⟨hq, hne⟩ := (hw.managed q).1 hq
    rw [hold q hne]
    exact h.managed_live q hq
  · obtain ⟨hq, hne⟩ := (hw.processed q).1 hq
    exact (hw.managed q).2 ⟨h.processed_managed q hq, hne⟩
  · obtain ⟨hq, hne⟩ := (ho o' q).1 hq
    rw [hold q hne]
    exact h.live o' q hq
  · exact h.inj o1 o2 q ((ho o1 q).1 h1).1 ((ho o2 q).1 h2).1
  · obtain ⟨hq, hne⟩ := (hw.managed q).1 hq
    obtain ⟨o', ho'⟩ := h.owned q hq
    exact ⟨o', (ho o' q).2 ⟨ho', hne⟩⟩

end World.Owned

end EpollCoroutine
