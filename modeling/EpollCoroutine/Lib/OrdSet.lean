import Mathlib.Tactic

/-!
# Ordered sets

A finite set over a linear order kept as a strictly increasing list, which is the order in which
it is iterated. `insert` adds an absent element at its place and leaves the set alone otherwise;
`erase` removes an element if it is there.
-/

/-- A finite set iterated in increasing order. -/
@[ext] structure OrdSet (α : Type*) [LinearOrder α] where
  elems : List α
  sorted : elems.Pairwise (· < ·)
  deriving DecidableEq

namespace OrdSet

variable {α : Type*} [LinearOrder α]

instance : Membership α (OrdSet α) := ⟨fun s a => a ∈ s.elems⟩

instance (a : α) (s : OrdSet α) : Decidable (a ∈ s) := inferInstanceAs (Decidable (a ∈ s.elems))

theorem mem_elems {a : α} {s : OrdSet α} : a ∈ s.elems ↔ a ∈ s := Iff.rfl

theorem eq_of_mem_iff {s t : OrdSet α} (h : ∀ a, a ∈ s ↔ a ∈ t) : s = t :=
  OrdSet.ext (s.sorted.eq_of_mem_iff t.sorted h)

/-- The empty set. -/
def empty : OrdSet α := ⟨[], List.Pairwise.nil⟩

@[simp] theorem not_mem_empty (a : α) : a ∉ (empty : OrdSet α) := List.not_mem_nil

/-- Insertion into an increasing list. -/
def insertList (a : α) : List α → List α
  | [] => [a]
  | b :: l => if a < b then a :: b :: l else if a = b then b :: l else b :: insertList a l

theorem mem_insertList {a x : α} {l : List α} : x ∈ insertList a l ↔ x = a ∨ x ∈ l := by
  induction l with
  | nil => simp [insertList]
  | cons b l ih =>
    simp only [insertList]
    split_ifs with h1 h2
    · simp
    · subst h2; simp
    · simp only [List.mem_cons, ih]; tauto

theorem pairwise_insertList {a : α} {l : List α} (h : l.Pairwise (· < ·)) :
    (insertList a l).Pairwise (· < ·) := by
  induction l with
  | nil => simp [insertList]
  | cons b l ih =>
    obtain ⟨hb, hl⟩ := List.pairwise_cons.1 h
    simp only [insertList]
    split_ifs with h1 h2
    · refine List.pairwise_cons.2 ⟨fun x hx => ?_, h⟩
      rcases List.mem_cons.1 hx with rfl | hx
      · exact h1
      · exact h1.trans (hb x hx)
    · exact h
    · refine List.pairwise_cons.2 ⟨fun x hx => ?_, ih hl⟩
      rcases mem_insertList.1 hx with rfl | hx
      · exact lt_of_le_of_ne (not_lt.1 h1) (Ne.symm h2)
      · exact hb x hx

/-- Insert an element. -/
def insert (a : α) (s : OrdSet α) : OrdSet α := ⟨insertList a s.elems, pairwise_insertList s.sorted⟩

/-- Remove an element. -/
def erase (a : α) (s : OrdSet α) : OrdSet α :=
  ⟨s.elems.filter (fun x => x ≠ a), s.sorted.filter _⟩

@[simp] theorem mem_insert {a x : α} {s : OrdSet α} : x ∈ s.insert a ↔ x = a ∨ x ∈ s :=
  mem_insertList

@[simp] theorem mem_erase {a x : α} {s : OrdSet α} : x ∈ s.erase a ↔ x ∈ s ∧ x ≠ a := by
  show x ∈ s.elems.filter _ ↔ _
  simp [List.mem_filter, mem_elems]

/-! ### Length -/

theorem length_insertList_le (a : α) (l : List α) : (insertList a l).length ≤ l.length + 1 := by
  induction l with
  | nil => exact le_rfl
  | cons b l ih =>
    simp only [insertList]
    split_ifs
    · exact le_rfl
    · exact Nat.le_succ _
    · simpa using ih

theorem length_insert_le (a : α) (s : OrdSet α) :
    (s.insert a).elems.length ≤ s.elems.length + 1 :=
  length_insertList_le a s.elems

theorem length_erase_le (a : α) (s : OrdSet α) : (s.erase a).elems.length ≤ s.elems.length :=
  List.length_filter_le _ _

end OrdSet
