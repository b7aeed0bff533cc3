import EpollCoroutine.Task.Frames

/-!
# The result of `co_await`

The result of a task travels through the field `result` of the promise, which is not initialised:
`return_value` stores it, `unhandled_exception` stores nothing, and `final_awaiter` resumes the
waiter after both.

* `Machine.Delivers`: what `await_resume` has given to the waiters is what the promises hold.
* `results_delivered_iff`: every awaiting body has got what a `co_return` supplied exactly if no
  awaited body has ended by an exception.
-/

namespace EpollCoroutine.Coroutine

variable {V : Type}

namespace Machine

variable {M M' : Machine V} {f g : Handle}

/-- Each entry of `delivered` is the end of an awaited body, and each such end is there. -/
structure Delivers (M : Machine V) : Prop where
  ended : ∀ d ∈ M.delivered, (M.frame d.1).waiter ≠ none ∧
    ∃ e, (M.frame d.1).ended = some e ∧ d.2 = e.value
  delivered : ∀ f e, (M.frame f).waiter ≠ none → (M.frame f).ended = some e →
    (f, e.value) ∈ M.delivered

theorem Delivers.start : (Machine.start : Machine V).Delivers := by
  constructor <;> simp [Machine.start, Frame.unborn]

/-- A step in which no body ends. -/
theorem Delivers.keep (h : M.Delivers) (hdel : M'.delivered = M.delivered)
    (hended : ∀ f, (M'.frame f).ended = (M.frame f).ended)
    (hwaiter : ∀ f, (M'.frame f).waiter = (M.frame f).waiter ∨ (M.frame f).ended = none) :
    M'.Delivers := by
  refine ⟨fun d hd => ?_, fun f e hw he => ?_⟩
  · rw [hdel] at hd
    obtain ⟨hw, e, he, hv⟩ := h.ended d hd
    have hsame := (hwaiter d.1).resolve_right (by simp [he])
    exact ⟨hsame ▸ hw, e, (hended d.1).trans he, hv⟩
  · rw [hended] at he
    rw [(hwaiter f).resolve_right (by simp [he])] at hw
    rw [hdel]
    exact h.delivered f e hw he

/-- A frame goes to another place. -/
theorem Delivers.update (h : M.Delivers) {x : Frame V} (hdel : M'.delivered = M.delivered)
    (hframe : M'.frame = Function.update M.frame f x) (hx : x.ended = (M.frame f).ended)
    (hw : x.waiter = (M.frame f).waiter) : M'.Delivers := by
  refine h.keep hdel (fun c => ?_) fun c => Or.inl ?_
  · rw [hframe, Function.update_apply]
    split_ifs with hc
    · rw [hx, hc]
    · rfl
  · rw [hframe, Function.update_apply]
    split_ifs with hc
    · rw [hw, hc]
    · rfl

theorem finish_delivered (f : Handle) (rest : List Handle) (e : Exit V) :
    (M.finish f rest e).delivered =
      M.delivered ++ ((M.frame f).waiter.map fun _ => (f, ((M.frame f).exit e).result)).toList := by
  cases hw : (M.frame f).waiter <;> simp [finish, hw]

theorem finish_waiter (f : Handle) (rest : List Handle) (e : Exit V) (c : Handle) :
    ((M.finish f rest e).frame c).waiter = (M.frame c).waiter := by
  cases hw : (M.frame f).waiter with
  | none =>
    rw [finish_frame_of_none hw]
    split_ifs with hc <;> simp [hc]
  | some g =>
    rw [finish_frame_of_waiter hw]
    split_ifs with hcg hcf
    · rw [hcg]
    · simp [hcf]
    · rfl

theorem Linked.finish_ended (h : M.Linked) (f : Handle) (rest : List Handle) (e : Exit V)
    (c : Handle) :
    ((M.finish f rest e).frame c).ended = if c = f then some e else (M.frame c).ended := by
  cases hw : (M.frame f).waiter with
  | none =>
    rw [finish_frame_of_none hw]
    split_ifs
    · simp
    · rfl
  | some g =>
    have hgf : g ≠ f := (h.waiter_lt f g hw).ne
    rw [finish_frame_of_waiter hw]
    by_cases hcg : c = g
    · subst hcg
      rw [if_pos rfl, if_neg hgf]
    · rw [if_neg hcg]
      split_ifs
      · simp
      · rfl

/-- The end of a body. -/
theorem Delivers.finish (h : M.Delivers) (hok : M.Ok) (hf : M.place f = .running)
    (ht : (M.frame f).temps = [])
    (rest : List Handle) (e : Exit V) : (M.finish f rest e).Delivers := by
  have hend : (M.frame f).ended = none := by
    by_contra hne
    obtain h' | h' := (hok.frame f).ended hne <;>
      simp [show (M.frame f).place = .running from hf] at h'
  have hres : ((M.frame f).exit e).result = e.value := by
    have hx := ((hok.frame f).exit hf ht e rfl).result
    simpa using hx
  refine ⟨fun d hd => ?_, fun c e' hw he => ?_⟩
  · rw [finish_delivered, List.mem_append] at hd
    rw [finish_waiter, hok.linked.finish_ended]
    rcases hd with hd | hd
    · obtain ⟨hw, e', he', hv⟩ := h.ended d hd
      have hdf : d.1 ≠ f := by
        intro hdf
        rw [hdf, hend] at he'
        cases he'
      rw [if_neg hdf]
      exact ⟨hw, e', he', hv⟩
    · obtain ⟨g, hw, rfl⟩ := Option.map_eq_some_iff.1 (Option.mem_toList.1 hd)
      refine ⟨by rw [hw]; simp, e, if_pos rfl, hres⟩
  · rw [finish_waiter] at hw
    rw [hok.linked.finish_ended] at he
    rw [finish_delivered, List.mem_append]
    split_ifs at he with hcf
    · cases he
      subst hcf
      obtain ⟨g, hg⟩ := Option.ne_none_iff_exists'.1 hw
      refine Or.inr ?_
      rw [hg, hres]
      simp
    · exact Or.inl (h.delivered c e' hw he)

/-- One step. -/
theorem Delivers.step (h : M.Delivers) (hok : M.Ok) {l : Label V} (hs : M.step l = some M') :
    M'.Delivers := by
  have hnext : (M.frame M.next).ended = none := by
    rw [hok.linked.fresh _ le_rfl]
    rfl
  cases step_cases hs with
  | call =>
    refine h.keep rfl (fun c => ?_) fun c => ?_
    · rw [call_frame]
      split_ifs with hc
      · rw [hc, hnext]
      · rfl
    · rw [call_frame]
      split_ifs with hc
      · exact Or.inr (by rw [hc, hnext])
      · exact Or.inl rfl
  | @await _ g rest _ _ =>
    refine h.keep rfl (fun c => ?_) fun c => ?_
    · rw [await_frame]
      split_ifs with hc hcg
      · rw [hc, hnext]
      · rw [hcg]
      · rfl
    · rw [await_frame]
      split_ifs with hc hcg
      · exact Or.inr (by rw [hc, hnext])
      · exact Or.inl (by rw [hcg])
      · exact Or.inl rfl
  | detach | resume | suspend | wake => exact h.update rfl rfl rfl rfl
  | drop | endExpr =>
    refine h.keep rfl (fun c => ?_) fun c => Or.inl ?_
    · rw [dropTasks_frame]
      split_ifs <;> rfl
    · rw [dropTasks_frame]
      split_ifs <;> rfl
  | suspendDestroyed | finishDestroyed => exact ⟨h.ended, h.delivered⟩
  | finish _ hf ht => exact h.finish hok hf ht _ _

theorem delivers_reach {ok : Machine V → Label V → Prop} (h : Lts.Reach step ok Machine.start M) :
    M.Delivers :=
  h.inv_of (J := Ok) (fun _ hr => ok_reach hr) .start fun _ _ _ hok _ hd _ hs => hd.step hok hs

/-- The awaiting body has got the value that the awaited one passed to `co_return`. -/
def DeliversReturned (M : Machine V) : Prop :=
  ∀ d ∈ M.delivered, ∃ v, (M.frame d.1).ended = some (.returned v) ∧ d.2 = some v

end Machine

/-- **An awaiting body gets what a `co_return` supplied exactly if no awaited body ends by an
exception.** In every state of every run, whatever is awaited, detached, resumed or dropped, each
value that `co_await` has given to a body is the one the awaited body passed to `co_return`, if and
only if no body that is awaited has ended by an exception. -/
theorem results_delivered_iff {M : Machine V}
    (h : Lts.Reach Machine.step (fun _ _ => True) Machine.start M) :
    M.DeliversReturned ↔ ∀ f, (M.frame f).waiter ≠ none → (M.frame f).ended ≠ some .threw := by
  have hd := Machine.delivers_reach h
  constructor
  · intro hall f hw he
    obtain ⟨v, hv, -⟩ := hall _ (hd.delivered f .threw hw he)
    rw [he] at hv
    cases hv
  · intro hall d hmem
    obtain ⟨hw, e, he, hv⟩ := hd.ended d hmem
    cases e with
    | returned v => exact ⟨v, he, hv⟩
    | threw => exact absurd he (hall d.1 hw)

/-- A coroutine that awaits two others, one of which is suspended, and gets what they return. -/
theorem results_delivered_chain :
    ∃ M : Machine ℕ, M.delivered = [(1, some 7), (2, some 8)] ∧ M.DeliversReturned := by
  obtain ⟨M, h, hp⟩ := Lts.exists_reach Machine.step (fun _ _ => True) (Machine.start : Machine ℕ)
    [⟨.call, false⟩, ⟨.detach 0, false⟩, ⟨.await, false⟩, ⟨.finish (.returned 7), false⟩,
    ⟨.endExpr, false⟩,
      ⟨.await, false⟩, ⟨.suspend, false⟩, ⟨.wake 2, false⟩, ⟨.finish (.returned 8), false⟩]
    (fun _ _ => true) (fun _ _ _ => trivial)
    (fun M => decide (M.delivered = [(1, some 7), (2, some 8)] ∧ M.next = 3 ∧
      ∀ f ∈ List.range 3, (M.frame f).ended ≠ some .threw)) (by decide)
  obtain ⟨hdel, hnext, hthrew⟩ := of_decide_eq_true hp
  refine ⟨M, hdel, (results_delivered_iff h).2 fun f hw => ?_⟩
  have hlt : f < 3 := by
    by_contra hn
    rw [(Machine.ok_reach h).linked.fresh f (by rw [hnext]; exact not_lt.1 hn)] at hw
    exact hw rfl
  exact hthrew f (List.mem_range.2 hlt)

/-- The awaited body throws, and the awaiting one goes on with a result that was never stored. -/
theorem result_uninitialised :
    ¬∀ M : Machine ℕ, Lts.Reach Machine.step (fun _ _ => True) Machine.start M →
      M.DeliversReturned := by
  intro hall
  obtain ⟨M, h, hp⟩ := Lts.exists_reach Machine.step (fun _ _ => True) (Machine.start : Machine ℕ)
    [⟨.call, false⟩, ⟨.detach 0, false⟩, ⟨.await, false⟩, ⟨.finish .threw, false⟩]
    (fun _ _ => true) (fun _ _ _ => trivial)
    (fun M => decide (M.delivered = [(1, none)] ∧ M.stack = [0] ∧ M.place 0 = .running)) (by decide)
  obtain ⟨hdel, -, -⟩ := of_decide_eq_true hp
  obtain ⟨v, -, hv⟩ := hall M h (1, none) (by rw [hdel]; exact List.mem_singleton_self _)
  cases hv

end EpollCoroutine.Coroutine
