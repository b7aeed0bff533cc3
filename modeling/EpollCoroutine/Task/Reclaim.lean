import EpollCoroutine.Task.Lifetime

/-!
# No frame is lost

A frame is released by a `~task` or at its own final suspend. This module shows that somebody is
always left to do it.

* `Frame.Kept`: a frame that nobody awaits is kept in a variable or detached.
* `Machine.Rooted`: a frame is kept, or runs detached, or is a temporary of such a frame, and so on.
* `Machine.Needed`: what a frame is still there for.
* `frames_reclaimed`: in every run every live frame is rooted; when no body runs or is suspended and
  no task is kept, every frame is destroyed.
-/

namespace EpollCoroutine.Coroutine

variable {V : Type}

/-- A frame that is not destroyed and not awaited has a task in a variable, or is detached. -/
def Frame.Kept (x : Frame V) : Prop :=
  x.place ≠ .destroyed → x.waiter = none → x.held = true ∨ x.mDetached = true

namespace Machine

/-- Frames that somebody will destroy: the task is kept in a variable, or the body runs detached, or
the task is a temporary in the full expression of such a frame. -/
inductive Rooted (M : Machine V) : Handle → Prop
  | kept {f : Handle} (hlive : M.place f ≠ .destroyed) (hheld : (M.frame f).held = true) :
      Rooted M f
  | detached {f : Handle} (hlive : M.place f ≠ .destroyed) (hdet : (M.frame f).mDetached = true)
      (hend : (M.frame f).ended = none) : Rooted M f
  | temp {f g : Handle} (hf : f ∈ (M.frame g).temps) (hg : Rooted M g) : Rooted M f

/-- Every frame is kept by somebody, and the bodies that run are on the stack. -/
structure Held (M : Machine V) : Prop where
  kept : ∀ f, (M.frame f).Kept
  stack : ∀ f, M.place f = .running → f ∈ M.stack

variable {M M' : Machine V} {f g c : Handle}

theorem Held.start : (Machine.start : Machine V).Held := by
  constructor <;> simp [Machine.start, place, Frame.unborn, Frame.Kept]

/-- One frame changes, and is no less kept. -/
theorem Held.update (h : M.Held) {x : Frame V} (hx : x.Kept)
    (hframe : M'.frame = Function.update M.frame f x)
    (hstack : ∀ c, (if c = f then x.place else M.place c) = .running → c ∈ M'.stack) : M'.Held := by
  refine ⟨fun c => ?_, fun c hc => hstack c ?_⟩
  · rw [hframe, Function.update_apply]
    split_ifs
    · exact hx
    · exact h.kept c
  · rw [place, hframe, Function.update_apply] at hc
    split_ifs at hc ⊢ <;> exact hc

/-- The innermost body leaves the stack. -/
theorem Held.pop (h : M.Held) {rest : List Handle} (hstack : M.stack = f :: rest)
    (hf : M.place c = .running) (hne : c ≠ f) : c ∈ rest := by
  have hc := h.stack c hf
  rw [hstack] at hc
  exact (List.mem_cons.1 hc).resolve_left hne

theorem Held.finish (h : M.Held) (hl : M.Linked) {rest : List Handle} (hstack : M.stack = f :: rest)
    (hf : M.place f = .running) (e : Exit V) : (M.finish f rest e).Held := by
  cases hw : (M.frame f).waiter with
  | none =>
    have hframe := finish_frame_of_none hw rest e
    have hst : (M.finish f rest e).stack = rest := by
      rw [finish_stack, hw]
      rfl
    refine ⟨fun c => ?_, fun c hc => ?_⟩
    · rw [hframe]
      split_ifs
      · exact fun hd => absurd rfl hd
      · exact h.kept c
    · rw [place, hframe] at hc
      rw [hst]
      split_ifs at hc with hcf
      exact h.pop hstack hc hcf
  | some g =>
    have hframe := finish_frame_of_waiter hw rest e
    have hst : (M.finish f rest e).stack = g :: rest := by
      rw [finish_stack, hw]
      rfl
    have hga : M.place g = .awaiting f := hl.waiter_awaiting (by simp [hf]) (by simp [hf]) hw
    refine ⟨fun c => ?_, fun c hc => ?_⟩
    · rw [hframe]
      split_ifs
      · exact fun _ => h.kept g (by rw [← place, hga]; simp)
      · intro _ hn
        simp [hw] at hn
      · exact h.kept c
    · rw [place, hframe] at hc
      rw [hst]
      split_ifs at hc with hcg hcf
      · exact List.mem_cons.2 (Or.inl hcg)
      · exact List.mem_cons_of_mem _ (h.pop hstack hc hcf)

theorem Held.await (h : M.Held) {rest : List Handle} (hstack : M.stack = g :: rest)
    (hg : M.place g = .running) : (M.await g rest).Held := by
  refine ⟨fun c => ?_, fun c hc => ?_⟩
  · rw [await_frame]
    split_ifs
    · intro _ hn
      cases hn
    · exact fun _ => h.kept g (by rw [← place, hg]; simp)
    · exact h.kept c
  · rw [place, await_frame] at hc
    show c ∈ M.next :: rest
    split_ifs at hc with hcn hcg
    · exact List.mem_cons.2 (Or.inl hcn)
    · exact List.mem_cons_of_mem _ (h.pop hstack hc hcg)

theorem Held.dropTasks (h : M.Held) (hl : M.Linked) (owner : Option Handle) (l : List Handle)
    (junk : Bool) : (M.dropTasks owner l junk).Held := by
  refine ⟨fun c => ?_, fun c hc => ?_⟩
  · rw [dropTasks_frame]
    by_cases hd : c ∈ M.dropped l junk
    · rw [if_pos hd]
      exact fun hn => absurd rfl hn
    · rw [if_neg hd]
      intro hlive hn
      have hlive : M.place c ≠ .destroyed := hlive
      rcases h.kept c hlive hn with hheld | hdet
      · by_cases hcl : c ∈ l
        · -- the task of `c` is dropped, and the frame is not destroyed
          refine Or.inr ?_
          by_contra hdet
          exact hd (hl.mem_dropped.2 ⟨hl.lt_next hlive, Or.inl ⟨hcl, by simpa using hdet⟩⟩)
        · exact Or.inl (by simp [hheld, hcl])
      · exact Or.inr hdet
  · rw [dropTasks_place] at hc
    split_ifs at hc
    exact h.stack c hc

/-- A body begins or goes on: its frame is kept as before, and it is on the stack. -/
theorem Held.push (h : M.Held) {x : Frame V} (hx : x.Kept)
    (hframe : M'.frame = Function.update M.frame f x) (hstack : M'.stack = f :: M.stack) :
    M'.Held := by
  refine h.update hx hframe fun c hc => ?_
  rw [hstack]
  split_ifs at hc with hcf
  · exact List.mem_cons.2 (Or.inl hcf)
  · exact List.mem_cons_of_mem _ (h.stack c hc)

theorem Held.begin (h : M.Held) (hheld : (M.frame f).held = true) (d : Bool) :
    (M.begin f d).Held := by
  have hx : ({ M.frame f with
      place := .running
      started := true
      mDetached := (M.frame f).mDetached || d } : Frame V).Kept := fun _ _ => Or.inl hheld
  exact h.push hx rfl rfl

/-- One step. -/
theorem Held.step (h : M.Held) (hok : M.Ok) {l : Label V} (hs : M.step l = some M') : M'.Held := by
  -- a frame that goes on is kept as before
  have hsame : ∀ f p, M.place f ≠ .destroyed →
      ({ M.frame f with place := p } : Frame V).Kept := fun f p hf _ => h.kept f hf
  cases step_cases hs with
  | call =>
    refine h.update (f := M.next) (x := { place := .initial, held := true })
      (fun _ _ => Or.inl rfl) rfl fun c hc => ?_
    split_ifs at hc
    exact h.stack c hc
  | await hstack hg => exact h.await hstack hg
  | detach hheld | resume hheld => exact h.begin hheld _
  | drop => exact h.dropTasks hok.linked none _ _
  | @suspend _ f rest hstack hf =>
    refine h.update (f := f) (hsame f .suspended (by simp [hf])) rfl fun c hc => ?_
    split_ifs at hc with hcf
    exact h.pop hstack hc hcf
  | suspendDestroyed hstack hf | finishDestroyed hstack hf =>
    refine ⟨h.kept, fun c hc => h.pop hstack hc ?_⟩
    rintro rfl
    have hc : M.place c = .running := hc
    rw [hf] at hc
    cases hc
  | @wake _ f hf => exact h.push (hsame f .running (by simp [hf])) rfl rfl
  | endExpr => exact h.dropTasks hok.linked _ _ _
  | finish hstack hf => exact h.finish hok.linked hstack hf _

/-- Every run, whatever the program does. -/
theorem held_reach {ok : Machine V → Label V → Prop} (h : Lts.Reach step ok Machine.start M) :
    M.Held :=
  h.inv_of (J := Machine.Ok) (fun _ hr => ok_reach hr) .start fun _ _ _ hok _ hi _ hs =>
    hi.step hok hs

/-! ### Who destroys a frame -/

/-- A frame with temporaries is live. -/
theorem Ok.temps_live (h : M.Ok) (hc : c ∈ (M.frame g).temps) :
    M.place g ≠ .initial ∧ M.place g ≠ .final ∧ M.place g ≠ .destroyed := by
  have hnil := (h.frame g).temps_nil
  refine ⟨fun e => ?_, fun e => ?_, fun e => ?_⟩
  · rw [hnil (Or.inl e)] at hc
    cases hc
  · rw [hnil (Or.inr (Or.inl e))] at hc
    cases hc
  · rw [hnil (Or.inr (Or.inr e))] at hc
    cases hc

/-- By induction on the number of the frame: a waiter is older than the coroutine it awaits. -/
theorem Held.rooted (h : M.Held) (hok : M.Ok) (f : Handle) (hf : M.place f ≠ .destroyed) :
    M.Rooted f := by
  induction f using Nat.strong_induction_on with
  | _ f ih =>
    cases hw : (M.frame f).waiter with
    | some g =>
      have htemp := hok.linked.awaited f g hf hw
      exact .temp htemp (ih g (hok.linked.waiter_lt f g hw) (hok.temps_live htemp).2.2)
    | none =>
      rcases h.kept f hf hw with hheld | hdet
      · exact .kept hf hheld
      · refine .detached hf hdet ?_
        by_contra hend
        rcases (hok.frame f).ended hend with e | e
        · exact ((hok.frame f).final e).1 hw
        · exact hf e

/-- By induction from the newest frame: nothing is left to await when no body runs or is
suspended. -/
theorem Held.not_active (h : M.Held) (hok : M.Ok) (hstack : M.stack = [])
    (hsusp : ∀ f, M.place f ≠ .suspended) (f : Handle) :
    M.place f = .initial ∨ M.place f = .final ∨ M.place f = .destroyed := by
  induction hn : M.next - f using Nat.strong_induction_on generalizing f with
  | _ n ih =>
    cases hp : M.place f with
    | initial | final | destroyed => simp
    | running =>
      have hmem := h.stack f hp
      rw [hstack] at hmem
      cases hmem
    | suspended => exact absurd hp (hsusp f)
    | awaiting c =>
      obtain ⟨hc, hfin⟩ := hok.linked.awaiting f c hp
      obtain ⟨hw, hd, -⟩ := hok.linked.temp f c hc
      have hlt : f < c := hok.linked.waiter_lt c f hw
      have hcn : c < M.next := hok.linked.lt_next hd
      have hless : M.next - c < n := hn ▸ Nat.sub_lt_sub_left (hlt.trans hcn) hlt
      rcases ih (M.next - c) hless c rfl with e | e | e
      · rw [((hok.frame c).unstarted ((hok.frame c).initial_iff.1 e).1).1] at hw
        cases hw
      · exact absurd e hfin
      · exact absurd e hd

end Machine

/-- **No frame is lost.** In every run, whatever the program does with its tasks: every frame that
is not destroyed is kept in a variable, or runs detached, or is a temporary of a full expression of
such a frame, and so on; and once no body runs or is suspended and no task is kept in a variable,
every frame has been destroyed. -/
theorem frames_reclaimed {M : Machine V} {ok : Machine V → Label V → Prop}
    (h : Lts.Reach Machine.step ok Machine.start M) :
    (∀ f, M.place f ≠ .destroyed → M.Rooted f) ∧
      (M.stack = [] → (∀ f, M.place f ≠ .suspended) → (∀ f, (M.frame f).held = false) →
        ∀ f, M.place f = .destroyed) := by
  have hok := Machine.ok_reach h
  have hheld := Machine.held_reach h
  refine ⟨hheld.rooted hok, fun hstack hsusp hnone f => ?_⟩
  have hactive := hheld.not_active hok hstack hsusp
  rcases hactive f with e | e | e
  · have hkept := ((hok.frame f).initial_iff.1 e).2
    rw [hnone f] at hkept
    cases hkept
  · -- a frame at its final suspend is a temporary of one that is active
    obtain ⟨g, hw⟩ := Option.ne_none_iff_exists'.1 ((hok.frame f).final e).1
    have htemp := hok.linked.awaited f g (by rw [e]; simp) hw
    obtain ⟨h1, h2, h3⟩ := hok.temps_live htemp
    rcases hactive g with e' | e' | e'
    · exact absurd e' h1
    · exact absurd e' h2
    · exact absurd e' h3
  · exact e

/-- A detached coroutine awaits another one, which is suspended and completes; its own frame goes at
its final suspend, and then the task that was kept. -/
theorem frames_reclaimed_nested : ∃ M : Machine Bool, M.next = 2 ∧ M.place 0 = .destroyed ∧
    M.place 1 = .destroyed := by
  obtain ⟨M, h, hp⟩ := Lts.exists_reach Machine.step (fun _ _ => True)
    (Machine.start : Machine Bool)
    [⟨.call, false⟩, ⟨.detach 0, false⟩, ⟨.await, false⟩, ⟨.suspend, false⟩, ⟨.drop 0, false⟩,
      ⟨.wake 1, false⟩, ⟨.finish (.returned true), false⟩, ⟨.endExpr, false⟩,
      ⟨.finish (.returned false), false⟩]
    (fun _ _ => true) (fun _ _ _ => trivial)
    (fun M => decide (M.next = 2 ∧ M.stack = [] ∧
      (M.place 0 ≠ .suspended ∧ (M.frame 0).held = false) ∧
      M.place 1 ≠ .suspended ∧ (M.frame 1).held = false)) (by decide)
  obtain ⟨hnext, hstack, h0, h1⟩ := of_decide_eq_true hp
  have hall : ∀ f, M.place f ≠ .suspended ∧ (M.frame f).held = false := by
    intro f
    match f with
    | 0 => exact h0
    | 1 => exact h1
    | f + 2 =>
      have hunborn : M.frame (f + 2) = .unborn :=
        (Machine.ok_reach h).linked.fresh _ (hnext ▸ Nat.le_add_left 2 f)
      simp [Machine.place, hunborn, Frame.unborn]
  have hgone := (frames_reclaimed h).2 hstack (fun f => (hall f).1) fun f => (hall f).2
  exact ⟨M, hnext, hgone 0, hgone 1⟩

end EpollCoroutine.Coroutine
