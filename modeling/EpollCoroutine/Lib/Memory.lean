import Mathlib.Tactic

/-!
# Writes through a pointer

Memory from a pointer on, as a function of the index, and the writes that a piece of code makes
through the pointer. Nothing stops an index at the end of the buffer that the pointer points to.

* `Write`: an index and the value stored there; `run` stores a list of them in order.
* `copy`: the writes that copy a list to consecutive indices.
* `Within`: the writes stay below a bound; `Within.frame` is what follows for the rest of memory.
* `view`: the first cells of memory, as the buffer that they are; `view_run` follows the writes in
  it, where `List.set` drops those beyond the end.
-/

namespace Memory

variable {α : Type*}

/-- One store. -/
structure Write (α : Type*) where
  index : ℕ
  value : α
  deriving DecidableEq

/-- Memory after the writes. -/
def run (ws : List (Write α)) (m : ℕ → α) : ℕ → α :=
  ws.foldl (fun m w => Function.update m w.index w.value) m

/-- The writes that put `l` at `start` and the indices that follow. -/
def copy : ℕ → List α → List (Write α)
  | _, [] => []
  | start, c :: l => ⟨start, c⟩ :: copy (start + 1) l

/-- The first `n` cells. -/
def view (n : ℕ) (m : ℕ → α) : List α := (List.range n).map m

/-- Every write is at an index below `n`. -/
def Within (n : ℕ) (ws : List (Write α)) : Prop := ∀ w ∈ ws, w.index < n

variable {n start : ℕ} {ws ws' : List (Write α)} {m : ℕ → α} {l : List α}

@[simp] theorem run_nil (m : ℕ → α) : run [] m = m := rfl

@[simp] theorem run_cons (w : Write α) (ws : List (Write α)) (m : ℕ → α) :
    run (w :: ws) m = run ws (Function.update m w.index w.value) := rfl

theorem run_append (ws ws' : List (Write α)) (m : ℕ → α) :
    run (ws ++ ws') m = run ws' (run ws m) :=
  List.foldl_append

/-! ### Bounds -/

@[simp] theorem within_nil (n : ℕ) : Within n ([] : List (Write α)) := by simp [Within]

@[simp] theorem within_cons (n : ℕ) (w : Write α) (ws : List (Write α)) :
    Within n (w :: ws) ↔ w.index < n ∧ Within n ws :=
  List.forall_mem_cons

theorem within_append (n : ℕ) (ws ws' : List (Write α)) :
    Within n (ws ++ ws') ↔ Within n ws ∧ Within n ws' :=
  List.forall_mem_append

/-- A copy ends where its list does. -/
theorem within_copy (h : start + l.length ≤ n) : Within n (copy start l) := by
  induction l generalizing start with
  | nil => exact within_nil n
  | cons c l ih =>
    rw [List.length_cons] at h
    have hstart : start < n := by omega
    rw [copy, within_cons]
    exact ⟨hstart, ih (by omega)⟩

/-- The memory from `n` on is untouched by writes below it. -/
theorem Within.frame (h : Within n ws) (m : ℕ → α) {i : ℕ} (hi : n ≤ i) : run ws m i = m i := by
  induction ws generalizing m with
  | nil => rfl
  | cons w ws ih =>
    obtain ⟨hw, hws⟩ := (within_cons n w ws).1 h
    have hne : i ≠ w.index := by omega
    rw [run_cons, ih hws, Function.update_of_ne hne]

/-! ### Seen through the buffer -/

theorem length_view (n : ℕ) (m : ℕ → α) : (view n m).length = n := by simp [view]

/-- A write beyond the end changes nothing in the buffer. -/
theorem view_update (n i : ℕ) (c : α) (m : ℕ → α) :
    view n (Function.update m i c) = (view n m).set i c := by
  refine List.ext_getElem (by simp [view]) fun j hj _ => ?_
  simp only [view, List.getElem_map, List.getElem_range, List.getElem_set, Function.update_apply,
    eq_comm]

/-- The buffer after the writes. -/
theorem view_run (n : ℕ) (ws : List (Write α)) (m : ℕ → α) :
    view n (run ws m) = ws.foldl (fun b w => b.set w.index w.value) (view n m) := by
  induction ws generalizing m with
  | nil => rfl
  | cons w ws ih => rw [run_cons, ih, view_update, List.foldl_cons]

/-- A copy that fits replaces a part of the buffer. -/
theorem foldl_copy {b : List α} (h : start + l.length ≤ b.length) :
    (copy start l).foldl (fun b w => b.set w.index w.value) b =
      b.take start ++ l ++ b.drop (start + l.length) := by
  induction l generalizing start b with
  | nil => simp [copy]
  | cons c l ih =>
    rw [List.length_cons] at h
    have hlt : start < b.length := by omega
    rw [copy, List.foldl_cons, ih (by rw [List.length_set]; omega)]
    have htake : (b.set start c).take (start + 1) = b.take start ++ [c] := by
      rw [List.take_set, List.take_succ_eq_append_getElem hlt,
        List.set_append_right _ _ (by rw [List.length_take_of_le hlt.le])]
      simp [List.length_take_of_le hlt.le]
    have hdrop : (b.set start c).drop (start + 1 + l.length) = b.drop (start + (l.length + 1)) := by
      rw [List.drop_set_of_lt (by omega)]
      congr 1
      omega
    rw [htake, hdrop, List.length_cons, List.append_assoc (b.take start) [c] l,
      List.singleton_append]

end Memory
