import EpollCoroutine.Task.Frames

/-!
# When frames are destroyed

`~task` and `final_awaiter` share the destruction of frames.

* `destroyed_once`: while tasks are only awaited, detached or dropped unused, every frame is
  destroyed exactly once, and at the right time.
* `handles_live`: no operation is applied to a destroyed frame, as long as a task that is detached
  or resumed is dropped before its coroutine has completed.
-/

namespace EpollCoroutine.Coroutine

variable {V : Type}

namespace Machine

variable {M M' : Machine V} {f g c : Handle}

/-- How often the frame has been destroyed. -/
def destroys (M : Machine V) (f : Handle) : ℕ :=
  M.uses.countP fun u => decide (u.op = .destroy ∧ u.handle = f)

/-- Exactly-once destruction: no frame is destroyed twice, a frame is destroyed only at its final
suspend or when its body has never begun; an awaited frame is destroyed once the full expression
that awaits it has ended, a detached frame once it has reached its final suspend, and a frame that
was never started once its task is dropped. -/
structure DestroyedOnce (M : Machine V) : Prop where
  once : ∀ f, M.destroys f ≤ 1
  notEarly : ∀ u ∈ M.uses, u.op = .destroy → u.place = .final ∨ u.place = .initial
  awaited : ∀ c g, (M.frame c).waiter = some g → c ∉ (M.frame g).temps → M.destroys c = 1
  detached : ∀ f, (M.frame f).mDetached = true → (M.frame f).ended ≠ none → M.destroys f = 1
  unstarted : ∀ f, f < M.next → (M.frame f).started = false → (M.frame f).held = false →
    M.destroys f = 1

/-- A task is awaited, detached or dropped, but not just resumed. -/
def NotResumed (_ : Machine V) (l : Label V) : Prop := ∀ f, l.act ≠ .resume f

/-! ### Counting -/

/-- The frame has existed and is destroyed. -/
def Gone (M : Machine V) (f : Handle) : Prop := f < M.next ∧ M.place f = .destroyed

instance (M : Machine V) (f : Handle) : Decidable (M.Gone f) := inferInstanceAs (Decidable (_ ∧ _))

/-- Destruction is counted right, and only a detached task is kept after it was started. -/
structure Counted (M : Machine V) : Prop where
  count : ∀ f, M.destroys f = if M.Gone f then 1 else 0
  notEarly : ∀ u ∈ M.uses, u.op = .destroy → u.place = .final ∨ u.place = .initial
  kept : ∀ f, (M.frame f).held = true → (M.frame f).started = true → (M.frame f).mDetached = true

theorem Counted.start : (Machine.start : Machine V).Counted := by
  constructor <;> simp [Machine.start, destroys, Gone, Frame.unborn]

theorem destroys_append {us : List Use} (hu : M'.uses = M.uses ++ us) (f : Handle) :
    M'.destroys f = M.destroys f + us.countP fun u => decide (u.op = .destroy ∧ u.handle = f) := by
  rw [destroys, hu, List.countP_append]
  rfl

/-- A step that destroys nothing. -/
theorem Counted.quiet (h : M.Counted) {us : List Use} (hu : M'.uses = M.uses ++ us)
    (hus : ∀ u ∈ us, u.op ≠ .destroy) (hgone : ∀ f, M'.Gone f ↔ M.Gone f)
    (hkept : ∀ f, (M'.frame f).held = true → (M'.frame f).started = true → (M'.frame f).mDetached = true) :
    M'.Counted := by
  refine ⟨fun f => ?_, fun u hmem hop => ?_, hkept⟩
  · have hzero : us.countP (fun u => decide (u.op = .destroy ∧ u.handle = f)) = 0 := by
      rw [List.countP_eq_zero]
      intro u hmem
      simp [hus u hmem]
    rw [destroys_append hu, hzero, h.count]
    simp only [hgone, Nat.add_zero]
  · rw [hu] at hmem
    rcases List.mem_append.1 hmem with hmem | hmem
    · exact h.notEarly u hmem hop
    · exact absurd hop (hus u hmem)

/-- The frame after an update is not destroyed, and it was not before. -/
theorem gone_update {x : Frame V} (hx : x.place ≠ .destroyed) (hf : M.place f ≠ .destroyed)
    (hframe : M'.frame = Function.update M.frame f x) (hnext : M'.next = M.next) (c : Handle) :
    M'.Gone c ↔ M.Gone c := by
  unfold Gone place
  rw [hframe, hnext, Function.update_apply]
  split_ifs with hc
  · subst hc
    simp [hx, show (M.frame c).place ≠ .destroyed from hf]
  · rfl

/-! ### The tasks that are dropped -/

section Drop

variable {owner : Option Handle} {l : List Handle} {junk : Bool}

theorem dropTasks_uses :
    (M.dropTasks owner l junk).uses = M.uses ++
      ((l ++ (M.dropped l junk).filter fun c => c ∉ l).flatMap (M.usesOf [.promise, .done]) ++
        (M.dropped l junk).map fun c => ⟨.destroy, c, M.place c⟩) := by
  rw [← List.append_assoc, List.map_eq_flatMap]
  rfl

/-- What is done to the handles when tasks are dropped. -/
theorem mem_dropTasks_uses {u : Use} (hu : u ∈ (M.dropTasks owner l junk).uses) :
    u ∈ M.uses ∨ u.place = M.place u.handle ∧
      (u.op ≠ .destroy ∧ (u.handle ∈ l ∨ u.handle ∈ M.dropped l junk) ∨
        u.op = .destroy ∧ u.handle ∈ M.dropped l junk) := by
  rw [dropTasks_uses] at hu
  rcases List.mem_append.1 hu with hu | hu
  · exact Or.inl hu
  · refine Or.inr ?_
    rcases List.mem_append.1 hu with hu | hu
    · obtain ⟨c, hc, hu⟩ := List.mem_flatMap.1 hu
      have hcl : c ∈ l ∨ c ∈ M.dropped l junk := by
        rcases List.mem_append.1 hc with hc | hc
        · exact Or.inl hc
        · exact Or.inr (List.mem_filter.1 hc).1
      obtain ⟨op, hop, rfl⟩ := List.mem_map.1 hu
      refine ⟨rfl, Or.inl ⟨?_, hcl⟩⟩
      rintro rfl
      simp at hop
    · obtain ⟨c, hc, rfl⟩ := List.mem_map.1 hu
      exact ⟨rfl, Or.inr ⟨rfl, hc⟩⟩

/-- Every frame that goes is destroyed once. -/
theorem dropTasks_destroys (f : Handle) :
    (M.dropTasks owner l junk).destroys f = M.destroys f + if f ∈ M.dropped l junk then 1 else 0 := by
  rw [destroys_append dropTasks_uses, List.countP_append]
  have hzero : ((l ++ (M.dropped l junk).filter fun c => c ∉ l).flatMap (M.usesOf [.promise, .done])).countP
      (fun u => decide (u.op = .destroy ∧ u.handle = f)) = 0 := by
    rw [List.countP_eq_zero]
    intro u hu
    obtain ⟨c, -, hu⟩ := List.mem_flatMap.1 hu
    obtain ⟨op, hop, rfl⟩ := List.mem_map.1 hu
    have hne : op ≠ .destroy := by
      rintro rfl
      simp at hop
    simp [hne]
  have hnodup : (M.dropped l junk).Nodup := (List.nodup_range).filter _
  have hcount : ((M.dropped l junk).map fun c => (⟨.destroy, c, M.place c⟩ : Use)).countP
      (fun u => decide (u.op = .destroy ∧ u.handle = f)) = (M.dropped l junk).count f := by
    rw [List.countP_map, List.count]
    refine List.countP_congr fun c _ => ?_
    simp
  rw [hzero, hcount, hnodup.count, Nat.zero_add]

/-- Only live frames go, if the tasks of `l` have live frames. -/
theorem Linked.dropped_live (h : M.Linked) (hl : ∀ c ∈ l, M.place c ≠ .destroyed)
    (hc : c ∈ M.dropped l junk) :
    M.place c ≠ .destroyed := by
  obtain ⟨_, ⟨hcl, _⟩ | ⟨g, _, htemp, _⟩⟩ := h.mem_dropped.1 hc
  · exact hl c hcl
  · exact (h.temp g c htemp).2.1

/-- Frames without temporaries go alone. -/
theorem Linked.dropped_sub (h : M.Linked) (hl : ∀ c ∈ l, (M.frame c).temps = [])
    (hc : c ∈ M.dropped l junk) :
    c ∈ l := by
  induction c using Nat.strong_induction_on with
  | _ c ih =>
    obtain ⟨_, ⟨hcl, _⟩ | ⟨g, hw, htemp, hg⟩⟩ := h.mem_dropped.1 hc
    · exact hcl
    · have hgl := ih g (h.waiter_lt c g hw) hg
      rw [hl g hgl] at htemp
      cases htemp

/-- Dropping detached tasks destroys nothing. -/
theorem Linked.dropped_detached (h : M.Linked) (hl : ∀ c ∈ l, (M.frame c).mDetached = true) :
    c ∉ M.dropped l junk := by
  induction c using Nat.strong_induction_on with
  | _ c ih =>
    intro hc
    obtain ⟨_, ⟨hcl, hnd⟩ | ⟨g, hw, _, hg⟩⟩ := h.mem_dropped.1 hc
    · rw [hl c hcl] at hnd
      cases hnd
    · exact ih g (h.waiter_lt c g hw) hg

/-- The end of a full expression destroys its temporaries, which have completed. -/
theorem Ok.dropped_temps (h : M.Ok) (hg : M.place g = .running)
    (hc : c ∈ M.dropped (M.frame g).temps junk) :
    M.place c = .final := by
  have hfinal : ∀ c ∈ (M.frame g).temps, M.place c = .final := fun c hc => h.linked.temp_final hg hc
  exact hfinal c (h.linked.dropped_sub
    (fun c' hc' => (h.frame c').temps_nil (Or.inr (Or.inl (hfinal c' hc')))) hc)

/-- The drop of a task that was never started destroys its frame alone. -/
theorem Ok.dropped_unstarted (h : M.Ok) (hheld : (M.frame f).held = true)
    (hst : (M.frame f).started = false)
    (hc : c ∈ M.dropped [f] junk) : M.place c = .initial := by
  have hinit := h.initial_of_held hheld hst
  have hcf : c ∈ [f] := h.linked.dropped_sub (fun c' hc' => by
    rw [List.mem_singleton.1 hc']
    exact (h.frame f).temps_nil (Or.inl hinit)) hc
  rw [List.mem_singleton.1 hcf]
  exact hinit

theorem Linked.gone_dropTasks (h : M.Linked) (f : Handle) :
    (M.dropTasks owner l junk).Gone f ↔ M.Gone f ∨ f ∈ M.dropped l junk := by
  show f < M.next ∧ _ ↔ _
  rw [dropTasks_place]
  split_ifs with hf
  · simp [hf, (h.mem_dropped.1 hf).1]
  · simp [hf, Gone]

theorem Counted.dropTasks (h : M.Counted) (hl : M.Linked)
    (hplace : ∀ c ∈ M.dropped l junk, M.place c = .final ∨ M.place c = .initial) :
    (M.dropTasks owner l junk).Counted := by
  refine ⟨fun f => ?_, fun u hu hop => ?_, fun f hheld hst => ?_⟩
  · rw [dropTasks_destroys, h.count]
    simp only [hl.gone_dropTasks]
    by_cases hf : f ∈ M.dropped l junk
    · have hlive : ¬ M.Gone f := by
        rintro ⟨_, hd⟩
        rcases hplace f hf with hp | hp <;> simp [hp] at hd
      simp [hf, hlive]
    · simp [hf]
  · rcases mem_dropTasks_uses hu with hu | ⟨hp, ⟨hne, _⟩ | ⟨_, hmem⟩⟩
    · exact h.notEarly u hu hop
    · exact absurd hop hne
    · rw [hp]
      exact hplace _ hmem
  · rw [dropTasks_frame] at hheld hst ⊢
    split_ifs at hheld hst ⊢ with hf
    · exact h.kept f (Bool.and_eq_true_iff.1 hheld).1 hst
    · exact h.kept f (Bool.and_eq_true_iff.1 hheld).1 hst

end Drop

/-! ### Exactly once -/

theorem Counted.call (h : M.Counted) : M.call.Counted := by
  refine h.quiet rfl (by simp) (fun f => ?_) fun f => ?_
  · show f < M.next + 1 ∧ (M.call.frame f).place = .destroyed ↔ f < M.next ∧
      (M.frame f).place = .destroyed
    rw [call_frame]
    split_ifs with hf
    · simp [hf]
    · exact and_congr_left' (Nat.lt_succ_iff.trans (Nat.le_iff_lt_or_eq.trans (or_iff_left hf)))
  · rw [call_frame]
    split_ifs
    · simp
    · exact h.kept f

theorem Counted.await (h : M.Counted) (hg : M.place g = .running) (rest : List Handle) :
    (M.await g rest).Counted := by
  refine h.quiet rfl (by simp) (fun f => ?_) fun f => ?_
  · show f < M.next + 1 ∧ ((M.await g rest).frame f).place = .destroyed ↔
      f < M.next ∧ (M.frame f).place = .destroyed
    rw [await_frame]
    split_ifs with hf hfg
    · simp [hf]
    · simp [hfg, show (M.frame g).place = .running from hg]
    · exact and_congr_left' (Nat.lt_succ_iff.trans (Nat.le_iff_lt_or_eq.trans (or_iff_left hf)))
  · rw [await_frame]
    split_ifs
    · simp
    · exact h.kept g
    · exact h.kept f

/-- One frame goes to another place, and nothing is destroyed. -/
theorem Counted.update (h : M.Counted) {x : Frame V} {us : List Use} (hu : M'.uses = M.uses ++ us)
    (hus : ∀ u ∈ us, u.op ≠ .destroy) (hx : x.place ≠ .destroyed) (hf : M.place f ≠ .destroyed)
    (hframe : M'.frame = Function.update M.frame f x) (hnext : M'.next = M.next)
    (hkept : x.held = true → x.started = true → x.mDetached = true) : M'.Counted := by
  refine h.quiet hu hus (gone_update hx hf hframe hnext) fun c => ?_
  rw [hframe, Function.update_apply]
  split_ifs
  · exact hkept
  · exact h.kept c

theorem Counted.finish (h : M.Counted) (hok : M.Ok) (hf : M.place f = .running) (rest : List Handle)
    (e : Exit V) :
    (M.finish f rest e).Counted := by
  have hkept : ((M.frame f).exit e).held = true → ((M.frame f).exit e).started = true →
      ((M.frame f).exit e).mDetached = true := by
    cases e <;> exact h.kept f
  cases hw : (M.frame f).waiter with
  | none =>
    have hframe := finish_frame_of_none hw rest e
    have huses := finish_uses_of_none hw rest e
    have hlt : f < M.next := hok.linked.lt_next (by simp [hf])
    have hgone : ∀ c, (M.finish f rest e).Gone c ↔ M.Gone c ∨ c = f := by
      intro c
      unfold Gone place
      rw [finish_next, hframe]
      split_ifs with hc
      · simp [hc, hlt]
      · simp [hc]
    have hlive : ¬ M.Gone f := by simp [Gone, hf]
    refine ⟨fun c => ?_, fun u hu hop => ?_, fun c => ?_⟩
    · rw [destroys_append huses, h.count]
      simp only [hgone]
      by_cases hc : c = f
      · simp [hc, hlive]
      · simp [hc, Ne.symm hc]
    · rw [huses] at hu
      rcases List.mem_append.1 hu with hu | hu
      · exact h.notEarly u hu hop
      · fin_cases hu <;> simp
    · rw [hframe]
      split_ifs
      · exact hkept
      · exact h.kept c
  | some g =>
    have hframe := finish_frame_of_waiter hw rest e
    have hga : M.place g = .awaiting f := hok.linked.waiter_awaiting (by simp [hf]) (by simp [hf]) hw
    have huses := finish_uses_of_waiter hw rest e
    refine h.quiet huses (by simp) (fun c => ?_) fun c => ?_
    · unfold Gone place at *
      rw [finish_next, hframe]
      split_ifs with hcg hcf
      · simp [hcg, hga]
      · simp [hcf, hf]
      · rfl
    · rw [hframe]
      split_ifs
      · exact h.kept g
      · exact hkept
      · exact h.kept c

/-- One step of a program that does not just resume a task. -/
theorem Counted.step (h : M.Counted) (hok : M.Ok) {l : Label V} (hl : NotResumed M l)
    (hs : M.step l = some M') :
    M'.Counted := by
  cases step_cases hs with
  | call => exact h.call
  | await _ hg => exact h.await hg _
  | detach hheld hst =>
    have hinit := hok.initial_of_held hheld hst
    exact h.update rfl (by simp [usesOf]) (by simp) (by simp [hinit]) rfl rfl (by simp)
  | resume hheld hst => exact absurd rfl (hl _)
  | @drop _ f hheld =>
    refine h.dropTasks hok.linked fun c hc => ?_
    cases hst : (M.frame f).started with
    | true =>
      refine absurd hc (hok.linked.dropped_detached fun c' hc' => ?_)
      rw [List.mem_singleton.1 hc']
      exact h.kept f hheld hst
    | false => exact Or.inr (hok.dropped_unstarted hheld hst hc)
  | suspend _ hf => exact h.update (List.append_nil _).symm (by simp) (by simp) (by simp [hf]) rfl rfl (h.kept _)
  | suspendDestroyed => exact ⟨h.count, h.notEarly, h.kept⟩
  | wake hf => exact h.update (List.append_nil _).symm (by simp) (by simp) (by simp [hf]) rfl rfl (h.kept _)
  | @endExpr _ g _ _ hg =>
    exact h.dropTasks hok.linked fun c hc => Or.inl (hok.dropped_temps hg hc)
  | finish _ hf ht => exact h.finish hok hf _ _
  | finishDestroyed =>
    exact h.quiet rfl (by simp [usesOf]) (fun _ => Iff.rfl) h.kept

theorem destroyedOnce_of (h : M.Counted) (hok : M.Ok) : M.DestroyedOnce where
  once f := by
    rw [h.count]
    split_ifs <;> omega
  notEarly := h.notEarly
  awaited c g hw hc := by
    have hlt : c < M.next := by
      by_contra hn
      rw [hok.linked.fresh c (not_lt.1 hn)] at hw
      cases hw
    have hd : M.place c = .destroyed := by
      by_contra hd
      exact hc (hok.linked.awaited c g hd hw)
    rw [h.count, if_pos ⟨hlt, hd⟩]
  detached f hdet hend := by
    have hlt : f < M.next := by
      by_contra hn
      rw [hok.linked.fresh f (not_lt.1 hn)] at hdet
      cases hdet
    have hd : M.place f = .destroyed := by
      rcases (hok.frame f).ended hend with hfin | hd
      · exact absurd ((hok.frame f).detached hdet) ((hok.frame f).final hfin).1
      · exact hd
    rw [h.count, if_pos ⟨hlt, hd⟩]
  unstarted f hlt hst hheld := by
    have hd : M.place f = .destroyed := by
      rcases ((hok.frame f).unstarted hst).2.2.2 with hi | hd
      · rw [((hok.frame f).initial_iff.1 hi).2] at hheld
        cases hheld
      · exact hd
    rw [h.count, if_pos ⟨hlt, hd⟩]

end Machine

/-- **Frames are destroyed exactly once.** In every state of every run in which tasks are awaited as
temporaries, detached, or dropped without having been started, and dropped at any time, no frame is
destroyed twice, no frame whose body has begun is destroyed before its final suspend, and each frame
has been destroyed when its use is over. -/
theorem destroyed_once {M : Machine V} (h : Lts.Reach Machine.step Machine.NotResumed Machine.start M) :
    M.DestroyedOnce := by
  have hinv : M.Counted := h.inv_of (J := Machine.Ok) (fun _ hr => Machine.ok_reach hr) .start
    fun _ _ _ hok _ hc hl hs => hc.step hok hl hs
  exact Machine.destroyedOnce_of hinv (Machine.ok_reach h)

/-- A detached coroutine awaits another one that is suspended once; both complete, and the task is
dropped last. -/
theorem destroyed_once_nested :
    ∃ M : Machine Bool, M.destroys 0 = 1 ∧ M.destroys 1 = 1 ∧ M.DestroyedOnce := by
  obtain ⟨M, h, hp⟩ := Lts.exists_reach Machine.step Machine.NotResumed
    (Machine.start : Machine Bool)
    [⟨.call, false⟩, ⟨.detach 0, false⟩, ⟨.await, false⟩, ⟨.suspend, false⟩, ⟨.wake 1, false⟩,
      ⟨.finish (.returned true), false⟩, ⟨.endExpr, false⟩, ⟨.finish (.returned true), false⟩,
        ⟨.drop 0, false⟩]
    (fun _ l => match l.act with
      | .resume _ => false
      | _ => true)
    (fun M l hl f hf => by rw [hf] at hl; cases hl)
    (fun M => decide (M.destroys 0 = 1 ∧ M.destroys 1 = 1)) (by decide)
  obtain ⟨h0, h1⟩ := of_decide_eq_true hp
  exact ⟨M, h0, h1, destroyed_once h⟩

/-! ### Operations on live frames -/

namespace Machine

variable {M M' : Machine V} {f g c : Handle}

/-- The task of a coroutine that has been detached or resumed is dropped before the coroutine
reaches its final suspend, and that of a resumed one while neither it nor a coroutine that it awaits
is running. -/
def DropsInTime (M : Machine V) (l : Label V) : Prop :=
  ∀ f, l.act = .drop f → (M.frame f).started = true →
    (M.frame f).ended = none ∧ ((M.frame f).mDetached = false → ∀ c ∈ M.victims [f], M.place c ≠ .running)

/-- No operation was applied to a destroyed frame, and exactly the innermost bodies run. -/
structure Safe (M : Machine V) : Prop where
  uses : ∀ u ∈ M.uses, u.place ≠ .destroyed
  running : ∀ f ∈ M.stack, M.place f = .running
  nodup : M.stack.Nodup

theorem Safe.start : (Machine.start : Machine V).Safe := by
  constructor <;> simp [Machine.start]

theorem uses_append {us : List Use} (hu : M'.uses = M.uses ++ us) (h : M.Safe)
    (hus : ∀ u ∈ us, u.place ≠ .destroyed) : ∀ u ∈ M'.uses, u.place ≠ .destroyed := by
  intro u hmem
  rw [hu] at hmem
  rcases List.mem_append.1 hmem with hmem | hmem
  · exact h.uses u hmem
  · exact hus u hmem

/-- A body begins or goes on. -/
theorem Safe.push (h : M.Safe) {x : Frame V} {us : List Use} (hu : M'.uses = M.uses ++ us)
    (hus : ∀ u ∈ us, u.place ≠ .destroyed) (hx : x.place = .running) (hf : M.place f ≠ .running)
    (hframe : M'.frame = Function.update M.frame f x) (hstack : M'.stack = f :: M.stack) :
    M'.Safe := by
  have hnot : f ∉ M.stack := fun hmem => hf (h.running f hmem)
  refine ⟨uses_append hu h hus, fun c hc => ?_, ?_⟩
  · rw [place, hframe, Function.update_apply]
    rw [hstack] at hc
    split_ifs with hcf
    · exact hx
    · exact h.running c ((List.mem_cons.1 hc).resolve_left hcf)
  · rw [hstack]
    exact List.nodup_cons.2 ⟨hnot, h.nodup⟩

/-- Tasks are dropped whose frames are live, and no running frame goes. -/
theorem Safe.dropTasks (h : M.Safe) (hl : M.Linked) {owner : Option Handle} {l : List Handle}
    {junk : Bool}
    (hlive : ∀ c ∈ l, M.place c ≠ .destroyed)
    (hrun : ∀ c ∈ M.dropped l junk, M.place c ≠ .running) :
    (M.dropTasks owner l junk).Safe := by
  refine ⟨fun u hu => ?_, fun c hc => ?_, h.nodup⟩
  · rcases mem_dropTasks_uses hu with hu | ⟨hp, ⟨_, hmem | hmem⟩ | ⟨_, hmem⟩⟩
    · exact h.uses u hu
    · rw [hp]
      exact hlive _ hmem
    · rw [hp]
      exact hl.dropped_live hlive hmem
    · rw [hp]
      exact hl.dropped_live hlive hmem
  · have hcr : M.place c = .running := h.running c hc
    rw [dropTasks_place, if_neg fun hd => hrun c hd hcr]
    exact hcr

theorem Safe.await (h : M.Safe) (hl : M.Linked) {rest : List Handle}
    (hstack : M.stack = g :: rest) :
    (M.await g rest).Safe := by
  have hnd : g ∉ rest ∧ rest.Nodup := List.nodup_cons.1 (hstack ▸ h.nodup)
  have hrest : ∀ c ∈ rest, M.place c = .running :=
    fun c hc => h.running c (hstack ▸ List.mem_cons_of_mem _ hc)
  have hnext : M.next ∉ rest := by
    intro hmem
    have hlt := hl.lt_next (f := M.next) (by rw [hrest _ hmem]; simp)
    exact lt_irrefl _ hlt
  refine ⟨uses_append rfl h (by simp), fun c hc => ?_, List.nodup_cons.2 ⟨hnext, hnd.2⟩⟩
  rw [place, await_frame]
  split_ifs with hcn hcg
  · rfl
  · exact absurd (hcg ▸ (List.mem_cons.1 hc).resolve_left hcn) hnd.1
  · exact hrest c ((List.mem_cons.1 hc).resolve_left hcn)

theorem Safe.finish (h : M.Safe) (hl : M.Linked) {rest : List Handle} (hstack : M.stack = f :: rest)
    (hf : M.place f = .running) (e : Exit V) : (M.finish f rest e).Safe := by
  have hnd : f ∉ rest ∧ rest.Nodup := List.nodup_cons.1 (hstack ▸ h.nodup)
  have hrest : ∀ c ∈ rest, M.place c = .running :=
    fun c hc => h.running c (hstack ▸ List.mem_cons_of_mem _ hc)
  cases hw : (M.frame f).waiter with
  | none =>
    have hframe := finish_frame_of_none hw rest e
    have huses := finish_uses_of_none hw rest e
    have hst : (M.finish f rest e).stack = rest := by
      rw [finish_stack, hw]
      rfl
    refine ⟨uses_append huses h (by simp), fun c hc => ?_, by rw [hst]; exact hnd.2⟩
    rw [hst] at hc
    have hcf : c ≠ f := fun e => hnd.1 (e ▸ hc)
    rw [place, hframe, if_neg hcf]
    exact hrest c hc
  | some g =>
    have hframe := finish_frame_of_waiter hw rest e
    have hga : M.place g = .awaiting f := hl.waiter_awaiting (by simp [hf]) (by simp [hf]) hw
    have huses := finish_uses_of_waiter hw rest e
    have hst : (M.finish f rest e).stack = g :: rest := by
      rw [finish_stack, hw]
      rfl
    have hgrest : g ∉ rest := by
      intro hmem
      rw [hrest g hmem] at hga
      cases hga
    refine ⟨uses_append huses h (by simp [hga]), fun c hc => ?_, ?_⟩
    · rw [hst] at hc
      rw [place, hframe]
      split_ifs with hcg hcf
      · rfl
      · exact absurd (hcf ▸ (List.mem_cons.1 hc).resolve_left hcg) hnd.1
      · exact hrest c ((List.mem_cons.1 hc).resolve_left hcg)
    · rw [hst]
      exact List.nodup_cons.2 ⟨hgrest, hnd.2⟩

/-- The drop of a kept task, in time. -/
theorem Safe.drop (h : M.Safe) (hok : M.Ok) (hheld : (M.frame f).held = true) {junk : Bool}
    (hl : DropsInTime M ⟨.drop f, junk⟩) : (M.dropTasks none [f] junk).Safe := by
  have hlive : M.place f ≠ .destroyed := by
    refine (hok.frame f).held_live hheld ?_
    cases hst : (M.frame f).started with
    | true => exact (hl f rfl hst).1
    | false => exact ((hok.frame f).unstarted hst).2.2.1
  refine h.dropTasks hok.linked (fun c hc => List.mem_singleton.1 hc ▸ hlive) fun c hc => ?_
  cases hst : (M.frame f).started with
  | true =>
    cases hdet : (M.frame f).mDetached with
    | true =>
      refine absurd hc (hok.linked.dropped_detached fun c' hc' => ?_)
      rw [List.mem_singleton.1 hc']
      exact hdet
    | false =>
      refine (hl f rfl hst).2 hdet c ?_
      simpa [dropped, Frame.destroysOnDrop_eq, hdet] using hc
  | false => simp [hok.dropped_unstarted hheld hst hc]

/-- One step. -/
theorem Safe.step (h : M.Safe) (hok : M.Ok) {l : Label V} (hl : DropsInTime M l)
    (hs : M.step l = some M') :
    M'.Safe := by
  cases step_cases hs with
  | call =>
    refine ⟨uses_append rfl h (by simp), fun c hc => ?_, h.nodup⟩
    have hcr : M.place c = .running := h.running c hc
    have hlt : c < M.next := hok.linked.lt_next (by simp [hcr])
    rw [place, call_frame, if_neg hlt.ne]
    exact hcr
  | await hstack _ => exact h.await hok.linked hstack
  | detach hheld hst | resume hheld hst =>
    have hinit := hok.initial_of_held hheld hst
    exact h.push rfl (by simp [usesOf, hinit]) rfl (by simp [hinit]) rfl rfl
  | drop hheld => exact h.drop hok hheld hl
  | @suspend _ f rest hstack hf =>
    have hnd : f ∉ rest ∧ rest.Nodup := List.nodup_cons.1 (hstack ▸ h.nodup)
    refine ⟨h.uses, fun c hc => ?_, hnd.2⟩
    have hcf : c ≠ f := fun e => hnd.1 (e ▸ hc)
    show (Function.update M.frame f _ c).place = _
    rw [Function.update_of_ne hcf]
    exact h.running c (hstack ▸ List.mem_cons_of_mem _ hc)
  | suspendDestroyed hstack hf | finishDestroyed hstack hf =>
    rw [h.running _ (hstack ▸ List.mem_cons_self)] at hf
    cases hf
  | wake hf =>
    exact h.push (List.append_nil _).symm (by simp) rfl (by simp [hf]) rfl rfl
  | @endExpr _ g _ _ hg =>
    exact h.dropTasks hok.linked (fun c hc => (hok.linked.temp g c hc).2.1) fun c hc => by
      simp [hok.dropped_temps hg hc]
  | finish hstack hf _ => exact h.finish hok.linked hstack hf _

end Machine

/-- **Operations are applied to live frames only, as long as tasks are dropped in time.** In every
run in which each task that was detached or resumed is dropped before its coroutine reaches its
final suspend (a resumed one while the coroutine is suspended), no `resume`, `done`, `promise` or
`destroy` of `task` or `final_awaiter` is applied to a destroyed frame. -/
theorem handles_live {M : Machine V} (h : Lts.Reach Machine.step Machine.DropsInTime Machine.start M) :
    ∀ u ∈ M.uses, u.place ≠ .destroyed := by
  have hinv : M.Safe := h.inv_of (J := Machine.Ok) (fun _ hr => Machine.ok_reach hr) .start
    fun _ _ _ hok _ hsafe hl hs => hsafe.step hok hl hs
  exact hinv.uses

/-- A test for `DropsInTime`. -/
def Machine.dropsInTime (M : Machine V) (l : Label V) : Bool :=
  match l.act with
  | .drop f => !(M.frame f).started || ((M.frame f).ended.isNone &&
      ((M.frame f).mDetached || (M.victims [f]).all fun c => M.place c ≠ .running))
  | _ => true

theorem Machine.dropsInTime_sound {M : Machine V} {l : Label V} (h : M.dropsInTime l = true) :
    M.DropsInTime l := by
  intro f hf hst
  simp only [Machine.dropsInTime, hf, hst, Bool.not_true, Bool.false_or, Bool.and_eq_true,
    Option.isNone_iff_eq_none,
    Bool.or_eq_true, List.all_eq_true, decide_eq_true_iff] at h
  exact ⟨h.1, fun hd => h.2.resolve_left (by simp [hd])⟩

/-- A coroutine that was resumed awaits another one, which is suspended when the task is dropped. -/
theorem handles_live_dropped :
    ∃ M : Machine Bool, M.Gone 0 ∧ M.Gone 1 ∧ ∀ u ∈ M.uses, u.place ≠ .destroyed := by
  obtain ⟨M, h, hp⟩ := Lts.exists_reach Machine.step Machine.DropsInTime
    (Machine.start : Machine Bool)
    [⟨.call, false⟩, ⟨.resume 0, false⟩, ⟨.await, false⟩, ⟨.suspend, false⟩, ⟨.drop 0, false⟩]
    Machine.dropsInTime (fun _ _ => Machine.dropsInTime_sound)
    (fun M => decide (M.Gone 0 ∧ M.Gone 1)) (by decide)
  obtain ⟨h0, h1⟩ := of_decide_eq_true hp
  exact ⟨M, h0, h1, handles_live h⟩

/-- A detached coroutine completes inside `detach()` and destroys its frame; `~task` then asks it
whether it is done. -/
theorem done_destroyed :
    ¬∀ M : Machine Bool, Lts.Reach Machine.step (fun _ _ => True) Machine.start M →
      ∀ u ∈ M.uses, u.place ≠ .destroyed := by
  intro hall
  obtain ⟨M, h, hp⟩ := Lts.exists_reach Machine.step (fun _ _ => True)
    (Machine.start : Machine Bool)
    [⟨.call, false⟩, ⟨.detach 0, false⟩, ⟨.finish (.returned true), false⟩, ⟨.drop 0, false⟩]
    (fun _ _ => true) (fun _ _ _ => trivial)
    (fun M => decide (⟨.done, 0, .destroyed⟩ ∈ M.uses)) (by decide)
  exact hall M h _ (of_decide_eq_true hp) rfl

end EpollCoroutine.Coroutine
