import EpollCoroutine.Task.Machine

/-!
# Coroutine frames and their waiters

What holds of the frames in every run, whatever the program does with its tasks.

* `Frame.Ok`: a frame by itself.
* `Machine.Linked`: the `waiter` of a promise and the temporaries of the waiting body agree.
* `mem_victims`: which frames are destroyed together, as the least set closed under temporaries.
* `Ok.step`, `ok_reach`: every step, and every run, keeps both.
-/

namespace EpollCoroutine.Coroutine

variable {V : Type}

/-! ### One frame -/

/-- The value a body has passed to `co_return`, none if it has thrown. -/
def Exit.value : Exit V → Option V
  | .returned v => some v
  | .threw => none

/-- The body has begun and is not at its final suspend. -/
def Place.Plain (p : Place) : Prop := p = .initial ∨ p = .running ∨ p = .suspended

namespace Frame

/-- A frame by itself. It waits at the initial suspend until its task is used; a task that is kept
has no waiter; only a frame with a waiter stays at its final suspend; a detached frame is destroyed
there only; and the memory of a kept task is released only there. -/
structure Ok (x : Frame V) : Prop where
  initial_iff : x.place = .initial ↔ x.started = false ∧ x.held = true
  unstarted : x.started = false →
    x.waiter = none ∧ x.mDetached = false ∧ x.ended = none ∧
      (x.place = .initial ∨ x.place = .destroyed)
  held : x.held = true → x.waiter = none
  detached : x.mDetached = true → x.waiter = none
  final : x.place = .final → x.waiter ≠ none ∧ x.ended ≠ none
  ended : x.ended ≠ none → x.place = .final ∨ x.place = .destroyed
  detached_destroyed : x.mDetached = true → x.place = .destroyed → x.ended ≠ none
  held_live : x.held = true → x.ended = none → x.place ≠ .destroyed
  temps_nil : x.place = .initial ∨ x.place = .final ∨ x.place = .destroyed → x.temps = []
  result : x.result = x.ended.bind Exit.value

variable {x : Frame V}

theorem Ok.unborn : (unborn : Frame V).Ok := by
  constructor <;> simp [Frame.unborn]

/-- The body of a frame that is neither at its initial nor its final suspend has begun. -/
theorem Ok.started_of (h : x.Ok) (hi : x.place ≠ .initial) (hd : x.place ≠ .destroyed) :
    x.started = true := by
  by_contra hs
  obtain hp | hp := (h.unstarted (by simpa using hs)).2.2.2
  · exact hi hp
  · exact hd hp

/-- A kept task that has not been used. -/
theorem Ok.begin (h : x.Ok) (hheld : x.held = true) (hs : x.started = false) (d : Bool) :
    ({ x with place := .running, started := true, mDetached := x.mDetached || d } : Frame V).Ok := by
  obtain ⟨hw, hdet, hend, _⟩ := h.unstarted hs
  have htemps := h.temps_nil (Or.inl (h.initial_iff.2 ⟨hs, hheld⟩))
  constructor <;> simp_all [h.result]

/-- A body that goes on or is suspended. -/
theorem Ok.move (h : x.Ok) (hi : x.place ≠ .initial) (hf : x.place ≠ .final)
    (hd : x.place ≠ .destroyed)
    {p : Place} (hp : p = .running ∨ p = .suspended ∨ ∃ c, p = .awaiting c) (ts : List Handle) :
    ({ x with place := p, temps := ts } : Frame V).Ok := by
  have hs := h.started_of hi hd
  have hend : x.ended = none := by
    by_contra hne
    obtain h' | h' := h.ended hne
    · exact hf h'
    · exact hd h'
  have hpl : p ≠ .initial ∧ p ≠ .final ∧ p ≠ .destroyed := by
    rcases hp with rfl | rfl | ⟨c, rfl⟩ <;> simp
  have hheld := h.held
  have hdet := h.detached
  have hres := h.result
  constructor <;> simp_all

/-- The end of the body. -/
theorem Ok.exit (h : x.Ok) (hr : x.place = .running) (ht : x.temps = []) (e : Exit V) {p : Place}
    (hp : p = if x.waiter = none then .destroyed else .final) :
    ({ x.exit e with place := p } : Frame V).Ok := by
  have hs := h.started_of (by simp [hr]) (by simp [hr])
  have hend : x.ended = none := by
    by_contra hne
    obtain h' | h' := h.ended hne <;> simp [hr] at h'
  have hheld := h.held
  have hdet := h.detached
  have hres := h.result
  rw [hend] at hres
  cases hw : x.waiter with
  | none =>
    rw [hw, if_pos rfl] at hp
    cases e <;> constructor <;> simp_all [Frame.exit, Exit.value]
  | some g =>
    rw [hw, if_neg (by simp)] at hp
    cases e <;> constructor <;> simp_all [Frame.exit, Exit.value]

/-- A frame is destroyed by `~task`. -/
theorem Ok.destroy (h : x.Ok) (hd : x.mDetached = false) :
    ({ x with place := .destroyed, temps := [], held := false } : Frame V).Ok := by
  have hun := h.unstarted
  have hres := h.result
  constructor <;> simp_all

/-- A full expression ends. -/
theorem Ok.clear (h : x.Ok) : ({ x with temps := [] } : Frame V).Ok :=
  { h with temps_nil := fun _ => rfl }

/-- A task is dropped that does not destroy its frame. -/
theorem Ok.drop (h : x.Ok) (hd : x.mDetached = true) : ({ x with held := false } : Frame V).Ok := by
  have hs : x.started = true := by
    by_contra hs
    rw [(h.unstarted (by simpa using hs)).2.1] at hd
    cases hd
  have hi : x.place ≠ .initial := by
    rw [ne_eq, h.initial_iff, hs]
    simp
  have hw := h.detached hd
  have hfin : x.place ≠ .final := fun e => (h.final e).1 hw
  have hend := h.ended
  have hdes := h.detached_destroyed hd
  have htemps := h.temps_nil
  have hres := h.result
  constructor <;> simp_all

end Frame

/-! ### Waiters and temporaries -/

namespace Machine

variable {M M' : Machine V} {f g c : Handle}

/-- The waiters stored in the promises and the temporaries of the full expressions agree. -/
structure Linked (M : Machine V) : Prop where
  fresh : ∀ f, M.next ≤ f → M.frame f = .unborn
  waiter_lt : ∀ c g, (M.frame c).waiter = some g → g < c
  temp : ∀ g c, c ∈ (M.frame g).temps →
    (M.frame c).waiter = some g ∧ M.place c ≠ .destroyed ∧
    (M.place c = .final ∨ M.place g = .awaiting c)
  awaited : ∀ c g, M.place c ≠ .destroyed → (M.frame c).waiter = some g → c ∈ (M.frame g).temps
  awaiting : ∀ g c, M.place g = .awaiting c → c ∈ (M.frame g).temps ∧ M.place c ≠ .final

/-! The frames after each of the operations. -/

theorem call_frame (M : Machine V) (c : Handle) :
    M.call.frame c = if c = M.next then { place := .initial, held := true } else M.frame c := by
  simp only [Machine.call, Function.update_apply]

/-- The frames after `co_await` of a new task. -/
theorem await_frame (M : Machine V) (g : Handle) (rest : List Handle) (c : Handle) :
    (M.await g rest).frame c =
      if c = M.next then { place := .running, waiter := some g, started := true }
      else if c = g then { M.frame g with place := .awaiting M.next, temps := M.next :: (M.frame g).temps }
      else M.frame c := by
  simp only [Machine.await, Function.update_apply]

/-- The frames after the end of a body that is awaited. -/
theorem finish_frame_of_waiter (hw : (M.frame f).waiter = some g) (rest : List Handle) (e : Exit V)
    (c : Handle) :
    (M.finish f rest e).frame c =
      if c = g then { M.frame g with place := .running }
      else if c = f then { (M.frame f).exit e with place := .final }
      else M.frame c := by
  simp only [finish, Frame.exit_waiter, hw, Function.update_apply]

/-- The frames after the end of a body that nobody awaits. -/
theorem finish_frame_of_none (hw : (M.frame f).waiter = none) (rest : List Handle) (e : Exit V)
    (c : Handle) :
    (M.finish f rest e).frame c =
      if c = f then { (M.frame f).exit e with place := .destroyed } else M.frame c := by
  simp only [finish, Frame.exit_waiter, hw, Function.update_apply]

theorem finish_uses_of_waiter (hw : (M.frame f).waiter = some g) (rest : List Handle) (e : Exit V) :
    (M.finish f rest e).uses = M.uses ++
      [⟨.promise, f, .final⟩, ⟨.promise, f, .final⟩, ⟨.resume, g, M.place g⟩,
      ⟨.promise, f, .final⟩] := by
  simp only [finish, Frame.exit_waiter, hw]

theorem finish_uses_of_none (hw : (M.frame f).waiter = none) (rest : List Handle) (e : Exit V) :
    (M.finish f rest e).uses = M.uses ++ [⟨.promise, f, .final⟩, ⟨.destroy, f, .final⟩] := by
  simp only [finish, Frame.exit_waiter, hw]

theorem finish_stack (f : Handle) (rest : List Handle) (e : Exit V) :
    (M.finish f rest e).stack = (M.frame f).waiter.toList ++ rest := by
  cases hw : (M.frame f).waiter <;> simp [finish, hw]

theorem finish_next (f : Handle) (rest : List Handle) (e : Exit V) :
    (M.finish f rest e).next = M.next := by
  unfold finish
  dsimp only
  split <;> rfl

namespace Linked

theorem lt_next (h : M.Linked) (hf : M.place f ≠ .destroyed) : f < M.next := by
  by_contra hn
  rw [place, h.fresh f (not_lt.1 hn)] at hf
  exact hf rfl

/-- The waiter of a running body awaits it. -/
theorem waiter_awaiting (h : M.Linked) (hd : M.place c ≠ .destroyed) (hf : M.place c ≠ .final)
    (hw : (M.frame c).waiter = some g) : M.place g = .awaiting c := by
  obtain ⟨_, _, hfin | hg⟩ := h.temp g c (h.awaited c g hd hw)
  · exact absurd hfin hf
  · exact hg

/-- The temporaries of a running body have completed. -/
theorem temp_final (h : M.Linked) (hg : M.place g = .running) (hc : c ∈ (M.frame g).temps) :
    M.place c = .final := by
  obtain ⟨_, _, hfin | ha⟩ := h.temp g c hc
  · exact hfin
  · rw [hg] at ha
    cases ha

/-- Between the initial and the final suspend, and not in `co_await` of a task, a frame may change
its place. -/
theorem modify (h : M.Linked) {x : Frame V} (hp : (M.place f).Plain) (hp' : x.place.Plain)
    (hw : x.waiter = (M.frame f).waiter) (ht : x.temps = (M.frame f).temps)
    (hframe : M'.frame = Function.update M.frame f x) (hnext : M'.next = M.next) : M'.Linked := by
  have hlt : f < M.next := h.lt_next fun e => by simp [Place.Plain, e] at hp
  have hwaiter : ∀ c, (M'.frame c).waiter = (M.frame c).waiter := by
    intro c
    rw [hframe, Function.update_apply]
    split_ifs with hc
    · rw [hw, hc]
    · rfl
  have htemps : ∀ c, (M'.frame c).temps = (M.frame c).temps := by
    intro c
    rw [hframe, Function.update_apply]
    split_ifs with hc
    · rw [ht, hc]
    · rfl
  have hplace : ∀ c, M'.place c = if c = f then x.place else M.place c := by
    intro c
    rw [place, hframe, Function.update_apply]
    split_ifs <;> rfl
  unfold Place.Plain at hp hp'
  refine ⟨fun c hc => ?_, fun c g => ?_, fun g c hc => ?_, fun c g hd hw' => ?_, fun g c hg => ?_⟩
  · rw [hnext] at hc
    rw [hframe, Function.update_of_ne (hlt.trans_le hc).ne', h.fresh c hc]
  · rw [hwaiter]
    exact h.waiter_lt c g
  · rw [htemps] at hc
    obtain ⟨h1, h2, h3⟩ := h.temp g c hc
    rw [hwaiter, hplace, hplace]
    refine ⟨h1, ?_, ?_⟩
    · split_ifs <;> grind
    · split_ifs <;> grind
  · rw [hplace] at hd
    rw [hwaiter] at hw'
    rw [htemps]
    refine h.awaited c g ?_ hw'
    split_ifs at hd <;> grind
  · rw [hplace] at hg
    rw [htemps, hplace]
    have hgf : g ≠ f := by
      rintro rfl
      rw [if_pos rfl] at hg
      simp [hg] at hp'
    rw [if_neg hgf] at hg
    obtain ⟨h1, h2⟩ := h.awaiting g c hg
    refine ⟨h1, ?_⟩
    split_ifs <;> grind

/-- A frame with a waiter, or with temporaries, exists. -/
theorem waiter_ne_next (h : M.Linked) (hw : (M.frame c).waiter = some g) : c ≠ M.next := by
  rintro rfl
  rw [h.fresh _ le_rfl] at hw
  cases hw

theorem temp_ne_next (h : M.Linked) (hc : c ∈ (M.frame g).temps) : c ≠ M.next :=
  h.waiter_ne_next (h.temp g c hc).1

theorem call (h : M.Linked) : M.call.Linked := by
  have hplace : ∀ c, M.call.place c = if c = M.next then .initial else M.place c := by
    intro c
    rw [place, call_frame]
    split_ifs <;> rfl
  have hwaiter : ∀ c, (M.call.frame c).waiter = (M.frame c).waiter := by
    intro c
    rw [call_frame]
    split_ifs with hc
    · rw [hc, h.fresh _ le_rfl]
      rfl
    · rfl
  have htemps : ∀ c, (M.call.frame c).temps = (M.frame c).temps := by
    intro c
    rw [call_frame]
    split_ifs with hc
    · rw [hc, h.fresh _ le_rfl]
      rfl
    · rfl
  refine ⟨fun c hc => ?_, fun c g => ?_, fun g c hc => ?_, fun c g hd hw => ?_, fun g c hg => ?_⟩
  · have hlt : M.next < c := hc
    rw [call_frame, if_neg hlt.ne', h.fresh c hlt.le]
  · rw [hwaiter]
    exact h.waiter_lt c g
  · rw [htemps] at hc
    obtain ⟨h1, h2, h3⟩ := h.temp g c hc
    rw [hwaiter, hplace, hplace, if_neg (h.temp_ne_next hc)]
    refine ⟨h1, h2, h3.imp_right fun e => ?_⟩
    split_ifs with hg
    · rw [place, hg, h.fresh _ le_rfl] at e
      cases e
    · exact e
  · rw [hwaiter] at hw
    rw [hplace, if_neg (h.waiter_ne_next hw)] at hd
    rw [htemps]
    exact h.awaited c g hd hw
  · rw [hplace] at hg
    split_ifs at hg
    obtain ⟨h1, h2⟩ := h.awaiting g c hg
    rw [htemps, hplace, if_neg (h.temp_ne_next h1)]
    exact ⟨h1, h2⟩

theorem await (h : M.Linked) (hg : M.place g = .running) (rest : List Handle) :
    (M.await g rest).Linked := by
  have hlt : g < M.next := h.lt_next (by simp [hg])
  have h1 := h.fresh
  have h2 := h.waiter_lt
  have h3 := h.temp
  have h4 := h.awaited
  have h5 := h.awaiting
  have hnext := h.fresh M.next le_rfl
  refine ⟨fun c hc => ?_, fun c g' hw => ?_, fun g' c hc => ?_, fun c g' hd hw => ?_, fun g' c hg' => ?_⟩
  · have hc' : M.next < c := hc
    rw [await_frame, if_neg hc'.ne', if_neg (hlt.trans hc').ne', h.fresh c hc'.le]
  · rw [await_frame] at hw
    grind
  · simp only [place, await_frame] at hc h3 hg ⊢
    grind [Frame.unborn]
  · simp only [place, await_frame] at hd hw h4 hg ⊢
    grind [Frame.unborn]
  · simp only [place, await_frame] at hg' h5 h3 hg ⊢
    grind [Frame.unborn]

end Linked

theorem Linked.finish (h : M.Linked) (hf : M.place f = .running) (ht : (M.frame f).temps = [])
    (rest : List Handle)
    (e : Exit V) : (M.finish f rest e).Linked := by
  have hlt : f < M.next := h.lt_next (by simp [hf])
  have h2 := h.waiter_lt
  have h3 := h.temp
  have h4 := h.awaited
  have h5 := h.awaiting
  cases hw : (M.frame f).waiter with
  | none =>
    have hframe := finish_frame_of_none hw rest e
    refine ⟨fun c hc => ?_, fun c g' hw' => ?_, fun g' c hc => ?_, fun c g' hd hw' => ?_, fun g' c hg' => ?_⟩
    · rw [finish_next] at hc
      rw [hframe, if_neg (hlt.trans_le hc).ne', h.fresh c hc]
    · rw [hframe] at hw'
      grind [Frame.exit_waiter]
    · simp only [place, hframe] at hc h3 hf ⊢
      grind [Frame.exit_temps]
    · simp only [place, hframe] at hd hw' h4 hf ⊢
      grind
    · simp only [place, hframe] at hg' h5 h3 hf ⊢
      grind
  | some g =>
    have hgf : g < f := h.waiter_lt f g hw
    have hga : M.place g = .awaiting f := h.waiter_awaiting (by simp [hf]) (by simp [hf]) hw
    have hframe := finish_frame_of_waiter hw rest e
    refine ⟨fun c hc => ?_, fun c g' hw' => ?_, fun g' c hc => ?_, fun c g' hd hw' => ?_, fun g' c hg' => ?_⟩
    · rw [finish_next] at hc
      rw [hframe, if_neg ((hgf.trans hlt).trans_le hc).ne', if_neg (hlt.trans_le hc).ne',
        h.fresh c hc]
    · rw [hframe] at hw'
      grind [Frame.exit_waiter]
    · simp only [place, hframe] at hc h3 hf hga ⊢
      grind [Frame.exit_temps, Frame.exit_waiter]
    · simp only [place, hframe] at hd hw' h4 hf hga ⊢
      grind [Frame.exit_temps, Frame.exit_waiter]
    · simp only [place, hframe] at hg' h5 h3 hf hga ⊢
      grind [Frame.exit_temps, Frame.exit_waiter]

/-! ### Destroying frames -/

/-- A waiter is older than what it awaits, so any fuel from the handle on gives the same. -/
theorem Linked.below_eq (h : M.Linked) (l : List Handle) {n m : ℕ} (hn : c ≤ n) (hm : c ≤ m) :
    M.below l n c = M.below l m c := by
  have hzero : ∀ k, M.below l k 0 = decide (0 ∈ l) := by
    intro k
    cases k with
    | zero => rfl
    | succ k =>
      cases hw : (M.frame 0).waiter with
      | none => simp [below, hw]
      | some g => exact absurd (h.waiter_lt 0 g hw) (Nat.not_lt_zero g)
  induction n generalizing m c with
  | zero =>
    obtain rfl : c = 0 := Nat.le_zero.1 hn
    rw [hzero, hzero]
  | succ n ih =>
    cases m with
    | zero =>
      obtain rfl : c = 0 := Nat.le_zero.1 hm
      rw [hzero, hzero]
    | succ m =>
      cases hw : (M.frame c).waiter with
      | none => simp [below, hw]
      | some g =>
        have hg : g < c := h.waiter_lt c g hw
        have hbelow : M.below l n g = M.below l m g :=
          ih (Nat.lt_succ_iff.1 (hg.trans_le hn)) (Nat.lt_succ_iff.1 (hg.trans_le hm))
        simp [below, hw, hbelow]

/-- A frame is destroyed together with those of `l` if it is one of them, or a temporary of one that
is. -/
theorem Linked.mem_victims (h : M.Linked) {l : List Handle} :
    c ∈ M.victims l ↔ c < M.next ∧
      (c ∈ l ∨ ∃ g, (M.frame c).waiter = some g ∧ c ∈ (M.frame g).temps ∧ g ∈ M.victims l) := by
  have hmem : ∀ c, c ∈ M.victims l ↔ c < M.next ∧ M.below l M.next c = true := by
    intro c
    simp [victims]
  rw [hmem]
  refine and_congr_right fun hc => ?_
  obtain ⟨n, hn⟩ : ∃ n, M.next = n + 1 := ⟨M.next - 1, (Nat.succ_pred_eq_of_pos (Nat.zero_lt_of_lt hc)).symm⟩
  rw [hn, below, Bool.or_eq_true, decide_eq_true_iff]
  refine or_congr_right ?_
  cases hw : (M.frame c).waiter with
  | none => simp
  | some g =>
    have hgc : g < c := h.waiter_lt c g hw
    have hgn : g ≤ n := Nat.le_of_lt_succ (hgc.trans (lt_of_lt_of_eq hc hn))
    have hbelow : M.below l n g = M.below l M.next g :=
      h.below_eq l hgn (by rw [hn]; exact Nat.le_succ_of_le hgn)
    simp [hmem, hbelow, hgc.trans hc]

section Drop

variable {owner : Option Handle} {l : List Handle} {junk : Bool}

/-- The frames that `~task` destroys when the tasks of `l` are dropped. -/
def dropped (M : Machine V) (l : List Handle) (junk : Bool) : List Handle :=
  M.victims (l.filter fun c => (M.frame c).destroysOnDrop junk)

theorem dropTasks_frame (c : Handle) :
    (M.dropTasks owner l junk).frame c =
      if c ∈ M.dropped l junk then { M.frame c with place := .destroyed, temps := [], held := false }
      else { M.frame c with
        temps := if owner = some c then [] else (M.frame c).temps
        held := (M.frame c).held && decide (c ∉ l) } := rfl

theorem dropTasks_place (M : Machine V) (owner : Option Handle) (l : List Handle) (junk : Bool)
    (c : Handle) :
    (M.dropTasks owner l junk).place c = if c ∈ M.dropped l junk then .destroyed else M.place c := by
  rw [place, dropTasks_frame]
  split_ifs <;> rfl

theorem Linked.mem_dropped (h : M.Linked) :
    c ∈ M.dropped l junk ↔ c < M.next ∧ ((c ∈ l ∧ (M.frame c).mDetached = false) ∨
      ∃ g, (M.frame c).waiter = some g ∧ c ∈ (M.frame g).temps ∧ g ∈ M.dropped l junk) := by
  rw [dropped, h.mem_victims]
  simp [Frame.destroysOnDrop_eq]

/-- The tasks of `l` are dropped: the temporaries of a running body, or tasks that are not awaited.
-/
structure Droppable (M : Machine V) (owner : Option Handle) (l : List Handle) : Prop where
  waiter : ∀ c ∈ l, (M.frame c).waiter = owner
  temps : ∀ g, owner = some g → (M.frame g).temps = l ∧ M.place g = .running

theorem Linked.dropTasks (h : M.Linked) (hdet : ∀ c, (M.frame c).mDetached = true → (M.frame c).waiter = none)
    (hl : M.Droppable owner l) : (M.dropTasks owner l junk).Linked := by
  have hplace := M.dropTasks_place owner l junk
  have hwaiter : ∀ c, ((M.dropTasks owner l junk).frame c).waiter = (M.frame c).waiter := by
    intro c
    rw [dropTasks_frame]
    split_ifs <;> rfl
  have htemps : ∀ c, ((M.dropTasks owner l junk).frame c).temps =
      if c ∈ M.dropped l junk ∨ owner = some c then [] else (M.frame c).temps := by
    intro c
    rw [dropTasks_frame]
    by_cases hc : c ∈ M.dropped l junk
    · rw [if_pos hc, if_pos (Or.inl hc)]
    · rw [if_neg hc]
      by_cases ho : owner = some c
      · rw [if_pos (Or.inr ho)]
        exact if_pos ho
      · rw [if_neg (not_or.2 ⟨hc, ho⟩)]
        exact if_neg ho
  -- a temporary that is destroyed goes with its owner, or is one of `l`
  have hclosed : ∀ g c, c ∈ (M.frame g).temps → g ∉ M.dropped l junk → owner ≠ some g →
      c ∉ M.dropped l junk := by
    intro g c hc hg ho hcd
    have hw := (h.temp g c hc).1
    obtain ⟨_, ⟨hcl, _⟩ | ⟨g', hw', _, hg'⟩⟩ := h.mem_dropped.1 hcd
    · exact ho ((hl.waiter c hcl).symm.trans hw)
    · rw [hw] at hw'
      cases hw'
      exact hg hg'
  refine ⟨fun c hc => ?_, fun c g => ?_, fun g c hc => ?_, fun c g hd hw => ?_, fun g c hg => ?_⟩
  · have hc' : M.next ≤ c := hc
    have hnot : c ∉ M.dropped l junk := fun hd => absurd (h.mem_dropped.1 hd).1 (not_lt.2 hc')
    rw [dropTasks_frame, if_neg hnot, h.fresh c hc']
    simp [Frame.unborn]
  · rw [hwaiter]
    exact h.waiter_lt c g
  · rw [htemps] at hc
    split_ifs at hc with hg
    · cases hc
    · obtain ⟨hgd, ho⟩ := not_or.1 hg
      rw [hwaiter, hplace, hplace, if_neg (hclosed g c hc hgd ho), if_neg hgd]
      exact h.temp g c hc
  · rw [hplace] at hd
    rw [hwaiter] at hw
    split_ifs at hd with hcd
    · exact absurd rfl hd
    · have hc := h.awaited c g hd hw
      have hlt : c < M.next := h.lt_next hd
      rw [htemps, if_neg]
      · exact hc
      · rintro (hgd | ho)
        · exact hcd (h.mem_dropped.2 ⟨hlt, Or.inr ⟨g, hw, hc, hgd⟩⟩)
        · have hcl : c ∈ l := (hl.temps g ho).1 ▸ hc
          have hnd : (M.frame c).mDetached = false := by
            by_contra hnd
            rw [hdet c (by simpa using hnd)] at hw
            cases hw
          exact hcd (h.mem_dropped.2 ⟨hlt, Or.inl ⟨hcl, hnd⟩⟩)
  · rw [hplace] at hg
    split_ifs at hg with hgd
    have ho : owner ≠ some g := by
      intro ho
      rw [(hl.temps g ho).2] at hg
      cases hg
    obtain ⟨hc, hfin⟩ := h.awaiting g c hg
    rw [htemps, if_neg (not_or.2 ⟨hgd, ho⟩), hplace, if_neg (hclosed g c hc hgd ho)]
    exact ⟨hc, hfin⟩

end Drop

/-! ### Every step keeps the frames consistent -/

/-- The frames are consistent, each by itself and with one another. -/
structure Ok (M : Machine V) : Prop where
  frame : ∀ f, (M.frame f).Ok
  linked : M.Linked

theorem Ok.start : (Machine.start : Machine V).Ok :=
  ⟨fun _ => .unborn, by constructor <;> simp [Machine.start, place, Frame.unborn]⟩

theorem Ok.initial_of_held (h : M.Ok) (hheld : (M.frame f).held = true)
    (hs : (M.frame f).started = false) :
    M.place f = .initial :=
  (h.frame f).initial_iff.2 ⟨hs, hheld⟩

theorem Ok.update (h : M.Ok) {x : Frame V} (hx : x.Ok) (hp : (M.place f).Plain)
    (hp' : x.place.Plain)
    (hw : x.waiter = (M.frame f).waiter) (ht : x.temps = (M.frame f).temps)
    (hframe : M'.frame = Function.update M.frame f x) (hnext : M'.next = M.next) : M'.Ok := by
  refine ⟨fun c => ?_, h.linked.modify hp hp' hw ht hframe hnext⟩
  rw [hframe, Function.update_apply]
  split_ifs
  · exact hx
  · exact h.frame c

theorem Ok.call (h : M.Ok) : M.call.Ok := by
  refine ⟨fun c => ?_, h.linked.call⟩
  rw [call_frame]
  split_ifs
  · constructor <;> simp
  · exact h.frame c

theorem Ok.await (h : M.Ok) (hg : M.place g = .running) (rest : List Handle) :
    (M.await g rest).Ok := by
  refine ⟨fun c => ?_, h.linked.await hg rest⟩
  have hg' : (M.frame g).place = .running := hg
  rw [await_frame]
  split_ifs
  · constructor <;> simp
  · exact (h.frame g).move (by simp [hg']) (by simp [hg']) (by simp [hg'])
      (Or.inr (Or.inr ⟨_, rfl⟩)) _
  · exact h.frame c

theorem Ok.begin (h : M.Ok) (hheld : (M.frame f).held = true) (hs : (M.frame f).started = false)
    (d : Bool) :
    (M.begin f d).Ok :=
  h.update ((h.frame f).begin hheld hs d) (Or.inl (h.initial_of_held hheld hs))
    (Or.inr (Or.inl rfl)) rfl rfl rfl rfl

theorem Ok.pause (h : M.Ok) (hf : M.place f = .running) (rest : List Handle) :
    (M.pause f rest).Ok := by
  have hf' : (M.frame f).place = .running := hf
  exact h.update ((h.frame f).move (by simp [hf']) (by simp [hf']) (by simp [hf']) (Or.inr (Or.inl rfl)) _)
    (Or.inr (Or.inl hf)) (Or.inr (Or.inr rfl)) rfl rfl rfl rfl

theorem Ok.wake (h : M.Ok) (hf : M.place f = .suspended) : (M.wake f).Ok := by
  have hf' : (M.frame f).place = .suspended := hf
  exact h.update ((h.frame f).move (by simp [hf']) (by simp [hf']) (by simp [hf']) (Or.inl rfl) _)
    (Or.inr (Or.inr hf)) (Or.inr (Or.inl rfl)) rfl rfl rfl rfl

theorem Ok.finish (h : M.Ok) (hf : M.place f = .running) (ht : (M.frame f).temps = [])
    (rest : List Handle)
    (e : Exit V) : (M.finish f rest e).Ok := by
  refine ⟨fun c => ?_, h.linked.finish hf ht rest e⟩
  cases hw : (M.frame f).waiter with
  | none =>
    rw [finish_frame_of_none hw]
    split_ifs
    · exact (h.frame f).exit hf ht e (by rw [hw, if_pos rfl])
    · exact h.frame c
  | some g =>
    have hga : (M.frame g).place = .awaiting f :=
      h.linked.waiter_awaiting (by simp [hf]) (by simp [hf]) hw
    rw [finish_frame_of_waiter hw]
    split_ifs
    · exact (h.frame g).move (by simp [hga]) (by simp [hga]) (by simp [hga]) (Or.inl rfl) _
    · exact (h.frame f).exit hf ht e (by rw [hw, if_neg (by simp)])
    · exact h.frame c

theorem Ok.dropTasks (h : M.Ok) {owner : Option Handle} {l : List Handle} (hl : M.Droppable owner l)
    (junk : Bool) : (M.dropTasks owner l junk).Ok := by
  have hdet : ∀ c, (M.frame c).mDetached = true → (M.frame c).waiter = none :=
    fun c => (h.frame c).detached
  refine ⟨fun c => ?_, h.linked.dropTasks hdet hl⟩
  rw [dropTasks_frame]
  by_cases hc : c ∈ M.dropped l junk
  · rw [if_pos hc]
    refine (h.frame c).destroy ?_
    obtain ⟨_, ⟨_, hnd⟩ | ⟨g, hw, _⟩⟩ := h.linked.mem_dropped.1 hc
    · exact hnd
    · by_contra hnd
      rw [hdet c (by simpa using hnd)] at hw
      cases hw
  · rw [if_neg hc]
    have hheld : ({ M.frame c with held := (M.frame c).held && decide (c ∉ l) } : Frame V).Ok := by
      by_cases hdrop : c ∈ l ∧ (M.frame c).held = true
      · -- its task is dropped and it is not destroyed, so it is detached
        obtain ⟨hcl, hcheld⟩ := hdrop
        have hlt : c < M.next := by
          by_contra hn
          rw [h.linked.fresh c (not_lt.1 hn)] at hcheld
          cases hcheld
        have hcdet : (M.frame c).mDetached = true := by
          by_contra hnd
          exact hc (h.linked.mem_dropped.2 ⟨hlt, Or.inl ⟨hcl, by simpa using hnd⟩⟩)
        simpa [hcl] using (h.frame c).drop hcdet
      · have hsame : ((M.frame c).held && decide (c ∉ l)) = (M.frame c).held := by
          by_cases hcl : c ∈ l <;> simp_all
        rw [hsame]
        exact h.frame c
    split_ifs
    · exact hheld.clear
    · exact hheld

/-- Each of the tasks that `endExpr` drops is awaited by the running body. -/
theorem Linked.droppable_temps (h : M.Linked) (hg : M.place g = .running) :
    M.Droppable (some g) (M.frame g).temps where
  waiter c hc := (h.temp g c hc).1
  temps g' hg' := by
    cases hg'
    exact ⟨rfl, hg⟩

/-- A task that is kept is not awaited. -/
theorem Ok.droppable_held (h : M.Ok) (hheld : (M.frame f).held = true) : M.Droppable none [f] where
  waiter c hc := by
    rw [List.mem_singleton.1 hc]
    exact (h.frame f).held hheld
  temps g' hg' := by cases hg'

/-- One step. -/
theorem Ok.step (h : M.Ok) {l : Label V} (hs : M.step l = some M') : M'.Ok := by
  cases step_cases hs with
  | call => exact h.call
  | await _ hg => exact h.await hg _
  | detach hheld hst | resume hheld hst => exact h.begin hheld hst _
  | drop hheld => exact h.dropTasks (h.droppable_held hheld) _
  | suspend _ hf => exact h.pause hf _
  | suspendDestroyed | finishDestroyed => exact ⟨h.frame, h.linked.fresh, h.linked.waiter_lt, h.linked.temp,
      h.linked.awaited, h.linked.awaiting⟩
  | wake hf => exact h.wake hf
  | endExpr _ hg => exact h.dropTasks (h.linked.droppable_temps hg) _
  | finish _ hf ht => exact h.finish hf ht _ _

/-- Every run, whatever the program does. -/
theorem ok_reach {ok : Machine V → Label V → Prop} (h : Lts.Reach step ok Machine.start M) : M.Ok :=
  h.inv .start fun _ _ _ hi _ hs => hi.step hs

end Machine

end EpollCoroutine.Coroutine
