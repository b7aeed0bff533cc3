import Mathlib.Tactic
import Mathlib.Data.Multiset.UnionInter
import Mathlib.Data.Set.Card

/-!
# Accounts

Keepers hold items, each keeper a multiset of them, while `live` says which items exist. A keeper
takes items that did not exist, gives items back, and may lose some.

* `Exclusive`: nothing is held twice, and what is held exists.
* `Covered`: what exists is held.
* `Orphan`: what exists and is not held.
* `Turnover`: what one keeper does; `Exclusive.turnover`, `Covered.turnover`, `Orphan.turnover`.
* `Transfer`: one keeper hands something over to another.
* `Exclusive.ncard`: while everything is held, what exists is counted keeper by keeper.
-/

namespace Accounts

variable {κ φ : Type*}

/-- No item is held twice, and every item that is held exists. -/
structure Exclusive (held : κ → Multiset φ) (live : φ → Prop) : Prop where
  nodup : ∀ k, (held k).Nodup
  disjoint : ∀ k k', k ≠ k' → Disjoint (held k) (held k')
  live : ∀ k, ∀ x ∈ held k, live x

/-- Every item that exists is held. -/
def Covered (held : κ → Multiset φ) (live : φ → Prop) : Prop := ∀ x, live x → ∃ k, x ∈ held k

/-- A keeper with the items `l` takes the new items `took`, gives `gave` back and loses `lost`, and
has `l'` in the end. -/
structure Turnover (live live' : φ → Prop) (l l' took gave lost : Multiset φ) : Prop where
  nodup : took.Nodup
  new : ∀ x ∈ took, ¬ live x
  balance : l' + (gave + lost) = took + l
  live_iff : ∀ x, live' x ↔ (live x ∨ x ∈ took) ∧ x ∉ gave

variable {held held' : κ → Multiset φ} {live live' : φ → Prop} {l' took gave lost : Multiset φ}
  {k k' : κ} {x : φ}

/-- An item has one keeper. -/
theorem Exclusive.unique (h : Exclusive held live) (hk : x ∈ held k) (hk' : x ∈ held k') :
    k = k' := by
  by_contra hne
  exact Multiset.disjoint_left.1 (h.disjoint k k' hne) hk hk'

/-! ### Taking and giving back -/

/-- Where an item of the keeper `k` or a new one is afterwards. -/
theorem Turnover.mem (ht : Turnover live live' (held k) l' took gave lost) :
    x ∈ took ∨ x ∈ held k ↔ x ∈ l' ∨ x ∈ gave ∨ x ∈ lost := by
  have h := congrArg (x ∈ ·) ht.balance
  simpa only [Multiset.mem_add, eq_iff_iff] using h.symm

/-- The items of the keeper `k` after it has acted, together with those that it has parted with. -/
theorem Turnover.nodup_after (h : Exclusive held live)
    (ht : Turnover live live' (held k) l' took gave lost) : (l' + (gave + lost)).Nodup := by
  rw [ht.balance, Multiset.nodup_add]
  exact ⟨ht.nodup, h.nodup k, Multiset.disjoint_left.2 fun hx hk => ht.new _ hx (h.live k _ hk)⟩

theorem Turnover.keeps {l : Multiset φ} (hl : l' = l) (hlive : ∀ x, live' x ↔ live x) :
    Turnover live live' l l' 0 0 0 := by
  refine ⟨Multiset.nodup_zero, by simp, by simp [hl], by simpa using hlive⟩

theorem Turnover.takes {l : Multiset φ} (hnodup : took.Nodup) (hnew : ∀ x ∈ took, ¬ live x)
    (hl : l' = took + l) (hlive : ∀ x, live' x ↔ live x ∨ x ∈ took) :
    Turnover live live' l l' took 0 0 := by
  refine ⟨hnodup, hnew, by simp [hl], by simpa using hlive⟩

theorem Turnover.gives {l : Multiset φ} (hl : l' + gave = l)
    (hlive : ∀ x, live' x ↔ live x ∧ x ∉ gave) : Turnover live live' l l' 0 gave 0 := by
  refine ⟨Multiset.nodup_zero, by simp, by simp [hl], by simpa using hlive⟩

theorem Turnover.loses {l : Multiset φ} (hl : l' + lost = l) (hlive : ∀ x, live' x ↔ live x) :
    Turnover live live' l l' 0 0 lost := by
  refine ⟨Multiset.nodup_zero, by simp, by simp [hl], by simpa using hlive⟩

/-- What else the keeper has does not matter. -/
theorem Turnover.frame {l : Multiset φ} (h : Turnover live live' l l' took gave lost)
    (m : Multiset φ) : Turnover live live' (m + l) (m + l') took gave lost := by
  refine ⟨h.nodup, h.new, ?_, h.live_iff⟩
  rw [add_assoc, h.balance, add_left_comm]

section Turnover

variable [DecidableEq κ]

theorem Exclusive.turnover (h : Exclusive held live)
    (ht : Turnover live live' (held k) l' took gave lost) :
    Exclusive (Function.update held k l') live' := by
  obtain ⟨hl', hpart, hdis⟩ := Multiset.nodup_add.1 (ht.nodup_after h)
  -- what another keeper holds does not come into the turnover
  have hother : ∀ j x, j ≠ k → x ∈ held j → x ∉ l' ∧ x ∉ gave := by
    intro j x hj hx
    have hno : ¬ (x ∈ took ∨ x ∈ held k) := by
      rintro (hx' | hx')
      · exact ht.new x hx' (h.live j x hx)
      · exact hj (h.unique hx hx')
    rw [ht.mem] at hno
    exact ⟨fun hx' => hno (Or.inl hx'), fun hx' => hno (Or.inr (Or.inl hx'))⟩
  refine ⟨fun j => ?_, fun i j hij => ?_, fun j x hx => ?_⟩
  · rw [Function.update_apply]
    split_ifs
    · exact hl'
    · exact h.nodup j
  · rw [Function.update_apply, Function.update_apply, Multiset.disjoint_left]
    intro x hi hj
    split_ifs at hi hj with hik hjk hjk
    · exact hij (hik.trans hjk.symm)
    · exact (hother j x hjk hj).1 hi
    · exact (hother i x hik hi).1 hj
    · exact hij (h.unique hi hj)
  · rw [Function.update_apply] at hx
    rw [ht.live_iff]
    split_ifs at hx with hj
    · have hgave : x ∉ gave := fun hg =>
        Multiset.disjoint_left.1 hdis hx (Multiset.mem_add.2 (Or.inl hg))
      rcases ht.mem.2 (Or.inl hx) with hx' | hx'
      · exact ⟨Or.inr hx', hgave⟩
      · exact ⟨Or.inl (h.live k x hx'), hgave⟩
    · exact ⟨Or.inl (h.live j x hx), (hother j x hj hx).2⟩

/-- As long as nothing is lost, everything stays held. -/
theorem Covered.turnover (h : Covered held live)
    (ht : Turnover live live' (held k) l' took gave 0) :
    Covered (Function.update held k l') live' := by
  intro x hx
  obtain ⟨hold, hgave⟩ := (ht.live_iff x).1 hx
  -- an item of `k` that was not given back is still with `k`
  have hkeep : x ∈ took ∨ x ∈ held k → x ∈ Function.update held k l' k := by
    intro hx'
    rw [Function.update_self]
    rcases ht.mem.1 hx' with hx' | hx' | hx'
    · exact hx'
    · exact absurd hx' hgave
    · exact absurd hx' (Multiset.notMem_zero x)
  rcases hold with hlive | htook
  · obtain ⟨j, hj⟩ := h x hlive
    by_cases hjk : j = k
    · exact ⟨k, hkeep (Or.inr (hjk ▸ hj))⟩
    · exact ⟨j, by rwa [Function.update_of_ne hjk]⟩
  · exact ⟨k, hkeep (Or.inl htook)⟩

end Turnover

/-! ### Losing -/

/-- An item that exists and that nobody holds. -/
def Orphan (held : κ → Multiset φ) (live : φ → Prop) (x : φ) : Prop := live x ∧ ∀ k, x ∉ held k

/-- What is not held can neither be given back nor taken: it stays for ever. -/
theorem Orphan.turnover [DecidableEq κ] (h : Orphan held live x)
    (ht : Turnover live live' (held k) l' took gave lost) :
    Orphan (Function.update held k l') live' x := by
  have hno : ¬ (x ∈ took ∨ x ∈ held k) := by
    rintro (hx | hx)
    · exact ht.new x hx h.1
    · exact h.2 k hx
  rw [ht.mem] at hno
  refine ⟨(ht.live_iff x).2 ⟨Or.inl h.1, fun hx => hno (Or.inr (Or.inl hx))⟩, fun j => ?_⟩
  rw [Function.update_apply]
  split_ifs
  · exact fun hx => hno (Or.inl hx)
  · exact h.2 j

/-- A lost item is one that nobody holds. -/
theorem Turnover.orphan [DecidableEq κ] (h : Exclusive held live)
    (ht : Turnover live live' (held k) l' took gave lost) (hx : x ∈ lost) :
    Orphan (Function.update held k l') live' x := by
  obtain ⟨-, hpart, hdis⟩ := Multiset.nodup_add.1 (ht.nodup_after h)
  have hgave : x ∉ gave := fun hg =>
    Multiset.disjoint_left.1 (Multiset.nodup_add.1 hpart).2.2 hg hx
  have hl' : x ∉ l' := fun hl =>
    Multiset.disjoint_left.1 hdis hl (Multiset.mem_add.2 (Or.inr hx))
  refine ⟨(ht.live_iff x).2 ⟨?_, hgave⟩, fun j => ?_⟩
  · rcases ht.mem.2 (Or.inr (Or.inr hx)) with hx' | hx'
    · exact Or.inr hx'
    · exact Or.inl (h.live k x hx')
  · rw [Function.update_apply]
    split_ifs with hj
    · exact hl'
    · intro hxj
      rcases ht.mem.2 (Or.inr (Or.inr hx)) with hx' | hx'
      · exact ht.new x hx' (h.live j x hxj)
      · exact hj (h.unique hxj hx')

/-! ### Handing over -/

section Transfer

/-- What `k` and `k'` hold together does not change, and nobody else is concerned. -/
structure Transfer (held held' : κ → Multiset φ) (k k' : κ) : Prop where
  ne : k ≠ k'
  balance : held' k + held' k' = held k + held k'
  others : ∀ j, j ≠ k → j ≠ k' → held' j = held j

theorem Transfer.mem (ht : Transfer held held' k k') :
    x ∈ held' k ∨ x ∈ held' k' ↔ x ∈ held k ∨ x ∈ held k' := by
  have h := congrArg (x ∈ ·) ht.balance
  simpa only [Multiset.mem_add, eq_iff_iff] using h

/-- The keeper that has an item after the transfer is the one that had it, or one of the two. -/
theorem Transfer.cases (ht : Transfer held held' k k') {j : κ} (hx : x ∈ held' j) :
    (j = k ∨ j = k') ∧ (x ∈ held k ∨ x ∈ held k') ∨ j ≠ k ∧ j ≠ k' ∧ x ∈ held j := by
  by_cases hj : j = k
  · exact Or.inl ⟨Or.inl hj, ht.mem.1 (Or.inl (hj ▸ hx))⟩
  by_cases hj' : j = k'
  · exact Or.inl ⟨Or.inr hj', ht.mem.1 (Or.inr (hj' ▸ hx))⟩
  · exact Or.inr ⟨hj, hj', by rwa [← ht.others j hj hj']⟩

theorem Exclusive.transfer (h : Exclusive held live) (ht : Transfer held held' k k') :
    Exclusive held' live := by
  have hsum : (held' k + held' k').Nodup := by
    rw [ht.balance, Multiset.nodup_add]
    exact ⟨h.nodup k, h.nodup k', h.disjoint k k' ht.ne⟩
  obtain ⟨hn, hn', hdis⟩ := Multiset.nodup_add.1 hsum
  refine ⟨fun j => ?_, fun i j hij => ?_, fun j x hx => ?_⟩
  · by_cases hj : j = k
    · rwa [hj]
    by_cases hj' : j = k'
    · rwa [hj']
    · rw [ht.others j hj hj']
      exact h.nodup j
  · refine Multiset.disjoint_left.2 fun {x} hi hj => ?_
    rcases ht.cases hi with ⟨hi', hx⟩ | ⟨hik, hik', hx⟩ <;>
      rcases ht.cases hj with ⟨hj', hy⟩ | ⟨hjk, hjk', hy⟩
    · rcases hi' with rfl | rfl <;> rcases hj' with rfl | rfl
      · exact hij rfl
      · exact Multiset.disjoint_left.1 hdis hi hj
      · exact Multiset.disjoint_left.1 hdis hj hi
      · exact hij rfl
    · rcases hx with hx | hx
      · exact hjk (h.unique hy hx)
      · exact hjk' (h.unique hy hx)
    · rcases hy with hy | hy
      · exact hik (h.unique hx hy)
      · exact hik' (h.unique hx hy)
    · exact hij (h.unique hx hy)
  · rcases ht.cases hx with ⟨-, hx | hx⟩ | ⟨-, -, hx⟩
    · exact h.live k x hx
    · exact h.live k' x hx
    · exact h.live j x hx

theorem Covered.transfer (h : Covered held live) (ht : Transfer held held' k k') :
    Covered held' live := by
  intro x hx
  obtain ⟨j, hj⟩ := h x hx
  by_cases hjk : j = k ∨ j = k'
  · have hx' : x ∈ held k ∨ x ∈ held k' := by
      rcases hjk with rfl | rfl
      · exact Or.inl hj
      · exact Or.inr hj
    rcases ht.mem.2 hx' with hx' | hx'
    · exact ⟨k, hx'⟩
    · exact ⟨k', hx'⟩
  · rw [not_or] at hjk
    exact ⟨j, by rwa [ht.others j hjk.1 hjk.2]⟩

theorem Orphan.transfer (h : Orphan held live x) (ht : Transfer held held' k k') :
    Orphan held' live x := by
  refine ⟨h.1, fun j hj => ?_⟩
  rcases ht.cases hj with ⟨-, hx | hx⟩ | ⟨-, -, hx⟩
  · exact h.2 k hx
  · exact h.2 k' hx
  · exact h.2 j hx

end Transfer

/-! ### Counting -/

/-- What exists is counted keeper by keeper. -/
theorem Exclusive.ncard [DecidableEq φ] (h : Exclusive held live) (hc : Covered held live)
    (s : Finset κ) (hs : ∀ k, k ∉ s → held k = 0) :
    {x | live x}.ncard = ∑ k ∈ s, (held k).card := by
  have hset : {x | live x} = ↑(s.biUnion fun k => (held k).toFinset) := by
    ext x
    simp only [Set.mem_ofPred_eq, Finset.coe_biUnion, Finset.mem_coe, Set.mem_iUnion,
      Multiset.mem_toFinset, exists_prop]
    constructor
    · intro hx
      obtain ⟨k, hk⟩ := hc x hx
      refine ⟨k, ?_, hk⟩
      by_contra hks
      rw [hs k hks] at hk
      exact Multiset.notMem_zero x hk
    · rintro ⟨k, -, hk⟩
      exact h.live k x hk
  rw [hset, Set.ncard_coe_finset, Finset.card_biUnion]
  · exact Finset.sum_congr rfl fun k _ => Multiset.toFinset_card_of_nodup (h.nodup k)
  · intro k _ k' _ hne
    refine Finset.disjoint_left.2 fun x hx hx' => ?_
    exact hne (h.unique (Multiset.mem_toFinset.1 hx) (Multiset.mem_toFinset.1 hx'))

end Accounts
