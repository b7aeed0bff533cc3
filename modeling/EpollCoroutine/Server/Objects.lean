import EpollCoroutine.Epoll.Owners
import EpollCoroutine.Epoll.Stale
import EpollCoroutine.Server.Moves

/-!
# The objects of the server

* `Coros.Owns`: the listening `Socket` belongs to the `accept` coroutine, the other objects to their
  sessions.
* `ObjectsOk`: every object is owned once and fits the place of its session. It holds in every
  state of every run, whatever the system calls do (`objectsOk_reach`).
* `sets_designate_live`: the two sets of `IOContext` hold live objects only.
-/

namespace EpollCoroutine

/-! ### Ownership -/

/-- Who an object belongs to. -/
inductive Owner
  | acceptor
  | session (sid : ℕ) (r : Role)
  deriving DecidableEq

/-- The objects of the coroutines. -/
def Coros.Owns (co : Coros) : Owner → Addr → Prop
  | .acceptor, p => co.acceptor ≠ .boot ∧ p = co.listen
  | .session sid r, p => ∃ s, co.sessions sid = some s ∧ s.ptr r = some p

/-- The objects of a session are managed, except while a `PipedAsyncCommand` whose construction has
thrown is destroyed, and have valid descriptors, except before the first `recv`. -/
structure Session.Ok (w : World Handle) (s : Session) : Prop where
  shape : s.Shape
  managed : ∀ r p, s.ptr r = some p → p ∈ w.managedFd ∨ (r ≠ .socket ∧ ∃ t, s.pc = .cleanup t)
  valid : ∀ r p a, s.ptr r = some p → w.heap p = some a → a.fd = -1 →
    r = .socket ∧ s.pc = .call .recv

/-- The objects of the server. -/
structure ObjectsOk (w : World Handle) (co : Coros) : Prop where
  kernel : w.KernelOk
  owned : w.Owned co.Owns
  session : ∀ sid s, co.sessions sid = some s → s.Ok w
  listen : co.acceptor ≠ .boot → ∃ a, w.heap co.listen = some a ∧ a.fd ≠ -1 ∧
    co.listen ∈ w.managedFd
  boot : co.acceptor = .boot → ∀ sid, co.sessions sid = none
  fresh : ∀ sid s, co.sessions sid = some s → sid < co.nextFrame

/-! ### Each kind of change -/

section Changes

variable {w w' : World Handle} {co co' : Coros} {sid : ℕ} {s s' : Session} {p : Addr}
  {a b : AsyncFd Handle} {m n : Bool}

/-- A session is affected through its own objects only. -/
theorem Session.Ok.frame (h : s.Ok w)
    (hw : ∀ r q, s.ptr r = some q → (q ∈ w.managedFd → q ∈ w'.managedFd) ∧
      ∀ a', w'.heap q = some a' → ∃ a, w.heap q = some a ∧ a.fd = a'.fd) : s.Ok w' where
  shape := h.shape
  managed r q hq := (h.managed r q hq).imp_left (hw r q hq).1
  valid r q a' hq ha' hfd := by
    obtain ⟨a, ha, e⟩ := (hw r q hq).2 a' ha'
    exact h.valid r q a hq ha (e.trans hfd)

theorem Session.Ok.same (h : s.Ok w) (hw : w.Same w') : s.Ok w' :=
  h.frame fun r q _ => by
    rw [hw.managed, hw.heap]
    exact ⟨id, fun a' ha' => ⟨a', ha', rfl⟩⟩

theorem Session.Ok.sets (h : s.Ok w) (hw : w.Sets w' p b m) (ha : w.heap p = some a)
    (hfd : b.fd = a.fd) : s.Ok w' :=
  h.frame fun r q _ => by
    rw [hw.managed, hw.heap]
    refine ⟨id, fun a' ha' => ?_⟩
    by_cases e : q = p
    · subst e
      rw [Function.update_self] at ha'
      cases ha'
      exact ⟨a, ha, hfd.symm⟩
    · rw [Function.update_of_ne e] at ha'
      exact ⟨a', ha', rfl⟩

namespace ObjectsOk

/-- Only the sessions, the listening `Socket` and the numbering matter. -/
theorem congr (h : ObjectsOk w co) (hs : co'.sessions = co.sessions) (hl : co'.listen = co.listen)
    (ha : co'.acceptor = .boot ↔ co.acceptor = .boot) (hn : co.nextFrame ≤ co'.nextFrame) :
    ObjectsOk w co' where
  kernel := h.kernel
  owned := h.owned.congr fun o q => by cases o <;> simp [Coros.Owns, hs, hl, ha]
  session := by rw [hs]; exact h.session
  listen hb := by rw [hl]; exact h.listen fun e => hb (ha.2 e)
  boot hb := by rw [hs]; exact h.boot (ha.1 hb)
  fresh sid s hs' := by
    rw [hs] at hs'
    exact (h.fresh sid s hs').trans_le hn

theorem same (h : ObjectsOk w co) (hw : w.Same w') (hk : w'.KernelOk) : ObjectsOk w' co where
  kernel := hk
  owned := h.owned.same hw
  session sid s hs := (h.session sid s hs).same hw
  listen := by rw [hw.heap, hw.managed]; exact h.listen
  boot := h.boot
  fresh := h.fresh

theorem sets (h : ObjectsOk w co) (hw : w.Sets w' p b m) (ha : w.heap p = some a)
    (hfd : b.fd = a.fd) (hm : m = true → p ∈ w.managedFd) (hk : w'.KernelOk) : ObjectsOk w' co where
  kernel := hk
  owned := h.owned.sets hw hm
  session sid s hs := (h.session sid s hs).sets hw ha hfd
  listen hb := by
    obtain ⟨a', ha', hne, hmem⟩ := h.listen hb
    rw [hw.heap, hw.managed, Function.update_apply]
    split_ifs with e
    · rw [e, ha] at ha'
      cases ha'
      exact ⟨b, rfl, hfd.trans_ne hne, hmem⟩
    · exact ⟨a', ha', hne, hmem⟩
  boot := h.boot
  fresh := h.fresh

/-- A session moves on with the same objects. -/
theorem moveOn (h : ObjectsOk w co) (hs : co.sessions sid = some s) (s' : Session)
    (hptr : s'.ptr = s.ptr)
    (hok : s'.Ok w) : ObjectsOk w (co.setSession sid (some s')) where
  kernel := h.kernel
  owned := h.owned.congr fun o q => by
    cases o with
    | acceptor => rfl
    | session sid' r =>
      simp only [Coros.Owns, Coros.setSession, Function.update_apply]
      split_ifs with e
      · subst e
        simp [hs, hptr]
      · rfl
  session sid' t ht := by
    simp only [Coros.setSession, Function.update_apply] at ht
    split_ifs at ht with e
    · cases ht
      exact hok
    · exact h.session sid' t ht
  listen := h.listen
  boot hb := absurd (h.boot hb sid) (by simp [hs])
  fresh sid' t ht := by
    simp only [Coros.setSession, Function.update_apply] at ht
    split_ifs at ht with e
    · subst e
      exact h.fresh sid' s hs
    · exact h.fresh sid' t ht

/-- A new object of the session `sid`, which may itself be new. -/
theorem adds (h : ObjectsOk w co) (hw : w.Adds w' p b m n) (hk : w'.KernelOk) {r : Role}
    (hs : co'.sessions = Function.update co.sessions sid (some s'))
    (hptr : ∀ r' q, s'.ptr r' = some q ↔
      (∃ s, co.sessions sid = some s ∧ s.ptr r' = some q) ∨ (r' = r ∧ q = p))
    (hok : s'.Ok w') (hb : co.acceptor ≠ .boot) (hb' : co'.acceptor ≠ .boot)
    (hl : co'.listen = co.listen) (hn : co.nextFrame ≤ co'.nextFrame)
    (hsid : sid < co'.nextFrame) : ObjectsOk w' co' := by
  have hother : ∀ o q, co.Owns o q → q ≠ p := by
    rintro o q ho rfl
    obtain ⟨c, hc⟩ := h.owned.live o q ho
    rw [hw.free] at hc
    cases hc
  have hold : ∀ q, q ≠ p → w'.heap q = w.heap q := fun q hq => by
    rw [hw.heap, Function.update_of_ne hq]
  refine ⟨hk, h.owned.adds hw (o := .session sid r) (fun o q => ?_), fun sid' t ht => ?_, fun _ => ?_,
    fun e => absurd e hb', fun sid' t ht => ?_⟩
  · cases o with
    | acceptor => simp [Coros.Owns, hb, hb', hl]
    | session sid' r' =>
      simp only [Coros.Owns, hs, Function.update_apply]
      split_ifs with e
      · subst e
        simp [hptr]
      · simp [e]
  · rw [hs, Function.update_apply] at ht
    split_ifs at ht with e
    · cases ht
      exact hok
    · refine (h.session sid' t ht).frame fun r' q hq => ?_
      have hne := hother (.session sid' r') q ⟨t, ht, hq⟩
      exact ⟨fun hm => (hw.managed q).2 (Or.inr hm), fun a' ha' => ⟨a', hold q hne ▸ ha', rfl⟩⟩
  · obtain ⟨c, hc, hfd, hm⟩ := h.listen hb
    have hne := hother .acceptor co.listen ⟨hb, rfl⟩
    rw [hl, hold _ hne]
    exact ⟨c, hc, hfd, (hw.managed _).2 (Or.inr hm)⟩
  · rw [hs, Function.update_apply] at ht
    split_ifs at ht with e
    · exact e ▸ hsid
    · exact (h.fresh sid' t ht).trans_le hn

/-- An object of the session `sid` is destroyed; the session may end with it. -/
theorem drops (h : ObjectsOk w co) (hw : w.Drops w' p a) (hk : w'.KernelOk) {r : Role}
    (hsid : co.sessions sid = some s) (hp : s.ptr r = some p) {t : Option Session}
    (hs : co'.sessions = Function.update co.sessions sid t)
    (hptr : ∀ r' q, (∃ s', t = some s' ∧ s'.ptr r' = some q) ↔ s.ptr r' = some q ∧ r' ≠ r)
    (hok : ∀ s', t = some s' → s'.Ok w') (ha : co'.acceptor = co.acceptor)
    (hl : co'.listen = co.listen) (hn : co'.nextFrame = co.nextFrame) : ObjectsOk w' co' := by
  have hown : co.Owns (.session sid r) p := ⟨s, hsid, hp⟩
  have hother : ∀ o q, co.Owns o q → o ≠ .session sid r → q ≠ p := by
    rintro o q ho hne rfl
    exact hne (h.owned.inj _ _ q ho hown)
  have hold : ∀ q, q ≠ p → w'.heap q = w.heap q := fun q hq => by
    rw [hw.heap, Function.update_of_ne hq]
  refine ⟨hk, h.owned.drops hw (fun o q => ?_), fun sid' t' ht => ?_, fun hb => ?_, fun hb => ?_,
    fun sid' t' ht => ?_⟩
  · cases o with
    | acceptor =>
      simp only [Coros.Owns, ha, hl]
      refine ⟨fun ho => ⟨ho, hother .acceptor q ho (by simp)⟩, fun ho => ho.1⟩
    | session sid' r' =>
      by_cases e : sid' = sid
      · subst e
        simp only [Coros.Owns, hs, Function.update_self, hptr, hsid, Option.some.injEq,
          exists_eq_left']
        refine ⟨fun ⟨hq, hne⟩ => ⟨hq, hother (.session sid' r') q ⟨s, hsid, hq⟩ (by simp [hne])⟩,
          fun ⟨hq, hne⟩ => ⟨hq, ?_⟩⟩
        rintro rfl
        rw [hp] at hq
        exact hne (Option.some.inj hq).symm
      · simp only [Coros.Owns, hs, Function.update_of_ne e]
        exact ⟨fun ho => ⟨ho, hother (.session sid' r') q ho (by simp [e])⟩, fun ho => ho.1⟩
  · rw [hs, Function.update_apply] at ht
    split_ifs at ht with e
    · exact hok t' ht
    · refine (h.session sid' t' ht).frame fun r' q hq => ?_
      have hne := hother (.session sid' r') q ⟨t', ht, hq⟩ (by simp [e])
      exact ⟨fun hm => (hw.managed q).2 ⟨hm, hne⟩, fun a' ha' => ⟨a', hold q hne ▸ ha', rfl⟩⟩
  · rw [ha] at hb
    obtain ⟨c, hc, hfd, hm⟩ := h.listen hb
    have hne := hother .acceptor co.listen ⟨hb, rfl⟩ (by simp)
    rw [hl, hold _ hne]
    exact ⟨c, hc, hfd, (hw.managed _).2 ⟨hm, hne⟩⟩
  · rw [ha] at hb
    exact absurd (h.boot hb sid) (by simp [hsid])
  · rw [hn]
    rw [hs, Function.update_apply] at ht
    split_ifs at ht with e
    · exact e ▸ h.fresh sid s hsid
    · exact h.fresh sid' t' ht

end ObjectsOk

end Changes

/-! ### Steps -/

section Steps

variable {w w' : World Handle} {co co' : Coros} {sid : ℕ} {s : Session}

/-- The session may move on to `s'`, whose place has no object under construction. -/
theorem Session.Ok.moveOn {s' : Session} (h : s.Ok w) (hptr : s'.ptr = s.ptr) (hshape : s'.Shape)
    (hclean : ∀ t, s.pc = .cleanup t → ∀ r, r ≠ .socket → s.ptr r = none)
    (hvalid : s.pc = .call .recv → s'.pc ≠ .call .recv → ∀ p a, s.ptr .socket = some p →
      w.heap p = some a → a.fd ≠ -1) : s'.Ok w where
  shape := hshape
  managed r p hp := by
    rw [hptr] at hp
    rcases h.managed r p hp with hm | ⟨hr, t, ht⟩
    · exact Or.inl hm
    · rw [hclean t ht r hr] at hp
      cases hp
  valid r p a hp ha hfd := by
    rw [hptr] at hp
    obtain ⟨rfl, hpc⟩ := h.valid r p a hp ha hfd
    refine ⟨rfl, ?_⟩
    by_contra hne
    exact hvalid hpc hne p a hp ha hfd

/-- A step of a session. -/
theorem ObjectsOk.moves (h : ObjectsOk w co) (hs : co.sessions sid = some s) {c : Choice}
    {after : After}
    (hm : Session.Moves w w' sid co.nextFrame s c after) (hk : w'.KernelOk) (via : Bool) :
    ObjectsOk w' (co.settle sid via after) := by
  have hok := h.session sid s hs
  have hb : co.acceptor ≠ .boot := fun e => by simp [h.boot e sid] at hs
  -- the object of an operation is managed: no operation runs during a cleanup
  have hmanaged : ∀ {r p}, s.ptr r = some p → (∀ t, s.pc ≠ .cleanup t) → p ∈ w.managedFd := by
    intro r p hp hpc
    rcases hok.managed r p hp with hmem | ⟨-, t, ht⟩
    · exact hmem
    · exact absurd ht (hpc t)
  -- an operation that gets on from the first `recv` had a valid descriptor
  have hvalid : ∀ {o : Op} {p : Addr} {a b : AsyncFd Handle} {m : Bool}, s.pc = .call o →
      s.ptr o.role = some p → w.Puts w' p b m → b.fd = a.fd → (o = .recv → a.fd ≠ -1) →
      s.pc = .call .recv → ∀ q c, s.ptr .socket = some q → w'.heap q = some c → c.fd ≠ -1 := by
    intro o p a b m hpc hp hw hfd hne e q c hq hc
    rw [hpc] at e
    cases e
    rw [show Op.role .recv = .socket from rfl, hq] at hp
    cases hp
    rw [hw.heap, Function.update_self] at hc
    cases hc
    exact hfd.trans_ne (hne rfl)
  cases hm with
  | raw hw hptr _ _ hstart _ _ hclean hshape =>
    exact (h.same hw hk).moveOn hs _ hptr
      ((hok.same hw).moveOn hptr hshape hclean fun e => absurd e (hstart .recv).1)
  | again hw hpc hshape =>
    have h' := (h.same hw hk).moveOn hs { s with frame := co.nextFrame, pc := .call .recv, vars := {} }
      rfl ((hok.same hw).moveOn rfl hshape (by simp [hpc]) (by simp))
    exact h'.congr rfl rfl Iff.rfl (Nat.le_succ _)
  | @completes o p a r dr hpc hp ha hfd hw hshape =>
    have hpc' : ∀ t, s.pc ≠ .cleanup t := by
      rcases hpc with e | e <;> simp [e]
    have hptr := (Session.complete_rest s o r dr).1
    refine (h.sets hw.toSets ha rfl (fun _ => hmanaged hp hpc') hk).moveOn hs _ hptr
      ((hok.sets hw.toSets ha rfl).moveOn hptr hshape (fun t e => absurd e (hpc' t)) fun e _ => ?_)
    rcases hpc with hpc | hpc
    · exact hvalid (a := a) hpc hp hw rfl (fun _ => hfd e) e
    · rw [hpc] at e
      cases e
  | @suspends o p a hpc hp ha hfd hw hshape =>
    have hpc' : ∀ t, s.pc ≠ .cleanup t := by simp [hpc]
    have hfd' : ((a.begun o).setCoro o.dir (.echo sid s.frame)).fd = a.fd := by simp
    have h' := (h.sets hw.toSets ha hfd' (fun _ => hmanaged hp hpc') hk).moveOn hs
      { s with pc := .susp o, opNo := s.opNo + 1 } rfl
      ((hok.sets hw.toSets ha hfd').moveOn rfl hshape (fun t e => absurd e (hpc' t)) fun e _ =>
        hvalid (a := a) hpc hp hw hfd' (fun ho => by
          rcases hfd with hfd | hfd
          · rw [ho] at hfd
            cases hfd
          · exact hfd) e)
    exact h'.congr rfl rfl Iff.rfl le_rfl
  | @attaches r p fd b b' oid s' hr hnone hfd hw hptr _ _ hstart _ _ hpc hclean hshape =>
    refine h.adds hw hk (r := r) rfl (fun r' q => ?_)
      ⟨hshape, fun r' q hq => ?_, fun r' q c hq hc hcfd => ?_⟩
      hb hb rfl le_rfl (h.fresh sid s hs)
    · rw [hptr, Function.update_apply]
      simp only [hs, Option.some.injEq, exists_eq_left']
      split_ifs with e
      · subst e
        simp [hnone, eq_comm]
      · simp [e]
    · rw [hptr, Function.update_apply] at hq
      split_ifs at hq with e
      · cases hq
        cases b with
        | true => exact Or.inl ((hw.managed _).2 (Or.inl ⟨rfl, rfl⟩))
        | false => exact Or.inr ⟨e ▸ hr, true, hclean rfl⟩
      · exact Or.inl ((hw.managed q).2 (Or.inr (hmanaged hq hpc)))
    · rw [hptr, Function.update_apply] at hq
      rw [hw.heap, Function.update_apply] at hc
      split_ifs at hq with e
      · cases hq
        rw [if_pos rfl] at hc
        cases hc
        rw [show fd = -1 from hcfd] at hfd
        exact absurd hfd (by decide)
      · have hqp : q ≠ p := by
          rintro rfl
          obtain ⟨c', hc'⟩ := h.owned.live (.session sid r') q ⟨s, hs, hq⟩
          rw [hw.free] at hc'
          cases hc'
        rw [if_neg hqp] at hc
        exact absurd (hok.valid r' q c hq hc hcfd).2 (hstart .recv).1
  | @drops r p a s' hr hp hw hptr _ _ hstart _ _ hclean hshape =>
    have hne : ∀ r' q, s'.ptr r' = some q → s.ptr r' = some q ∧ r' ≠ r ∧ q ≠ p := by
      intro r' q hq
      rw [hptr, Function.update_apply] at hq
      split_ifs at hq with e
      refine ⟨hq, e, ?_⟩
      rintro rfl
      have := h.owned.inj (.session sid r') (.session sid r) q ⟨s, hs, hq⟩ ⟨s, hs, hp⟩
      cases this
      exact e rfl
    refine h.drops hw hk hs hp (t := some s') rfl (fun r' q => ?_) (fun t ht => ?_) rfl rfl rfl
    · simp only [Option.some.injEq, exists_eq_left', hptr, Function.update_apply]
      split_ifs with e <;> simp [e]
    · cases ht
      refine ⟨hshape, fun r' q hq => ?_, fun r' q c hq hc hcfd => ?_⟩
      · obtain ⟨hq', -, hqp⟩ := hne r' q hq
        rcases hok.managed r' q hq' with hmem | ⟨hr', t, ht⟩
        · exact Or.inl ((hw.managed q).2 ⟨hmem, hqp⟩)
        · exact Or.inr ⟨hr', t, hclean t ht⟩
      · obtain ⟨hq', -, hqp⟩ := hne r' q hq
        rw [hw.heap, Function.update_of_ne hqp] at hc
        exact absurd (hok.valid r' q c hq' hc hcfd).2 (hstart .recv).1
  | @closes p a t hpc hp hw =>
    refine h.drops hw hk hs hp (t := none) rfl (fun r' q => ?_) (by simp) rfl rfl rfl
    simp only [reduceCtorEq, false_and, exists_false, false_iff, not_and, not_not]
    intro hq
    have := hok.shape.holds r' q hq
    rw [hpc] at this
    cases r' <;> simp_all [Pc.holds]
  | @exits o p a hpc hp ha hw =>
    have hpc' : ∀ t, s.pc ≠ .cleanup t := by simp [hpc]
    exact h.sets hw.toSets ha (by simp) (fun _ => hmanaged hp hpc') hk

/-- A resumption. -/
theorem ObjectsOk.resume (h : ObjectsOk w co) {hd : Handle} (hr : co.resume hd = some co') :
    ObjectsOk w co' := by
  rcases Coros.resume_cases hr with ⟨n, -, hn, rfl⟩ | ⟨sid, s, o, -, hs, hpc, rfl⟩
  · exact h.congr rfl rfl (by simp [hn]) le_rfl
  · have hok := h.session sid s hs
    have hshape : ({ s with pc := .retry o } : Session).Shape :=
      .of_holds (hok.shape.holds_mono (by rw [hpc]; exact fun r => id)) (by simp)
    have h' := h.moveOn hs { s with pc := .retry o } rfl
      (hok.moveOn rfl hshape (by simp [hpc]) (by simp [hpc]))
    exact h'.congr rfl rfl Iff.rfl le_rfl

/-- Before the listening `Socket` exists nothing is owned. -/
theorem ObjectsOk.not_owns (h : ObjectsOk w co) (hpc : co.acceptor = .boot) (o : Owner) (q : Addr) :
    ¬ co.Owns o q := by
  cases o with
  | acceptor => exact fun ho => ho.1 hpc
  | session sid r =>
    rintro ⟨s, hs, -⟩
    simp [h.boot hpc sid] at hs

/-- The construction of the listening `Socket`. -/
theorem ObjectsOk.boots (h : ObjectsOk w co) (hpc : co.acceptor = .boot) {p : Addr}
    {a b : AsyncFd Handle} {m n : Bool} {w₁ w₂ : World Handle} (hfd : b.fd ≠ -1) (hw₁ : w.Same w₁)
    (hw₂ : w₁.Adds w₂ p a true n) (hw' : w₂.Sets w' p b m) (hk : w'.KernelOk) :
    ObjectsOk w' { co with listen := p, acceptor := .call } := by
  have hm : p ∈ w₂.managedFd := (hw₂.managed p).2 (Or.inl ⟨rfl, rfl⟩)
  have howned : w₂.Owned ({ co with listen := p, acceptor := .call } : Coros).Owns := by
    refine (h.owned.same hw₁).adds hw₂ (o := .acceptor) fun o q => ?_
    have hno := h.not_owns hpc o q
    cases o with
    | acceptor => simp [Coros.Owns, hpc]
    | session sid r => simp [Coros.Owns, h.boot hpc sid]
  refine ⟨hk, howned.sets hw' fun _ => hm, fun sid s hs => ?_, fun _ => ?_, by simp, fun sid s hs => ?_⟩
  · simp [h.boot hpc sid] at hs
  · exact ⟨b, by rw [hw'.heap, Function.update_self], hfd, by rw [hw'.managed]; exact hm⟩
  · simp [h.boot hpc sid] at hs

/-- A step of the `accept` coroutine. -/
theorem ObjectsOk.accept (h : ObjectsOk w co) {c : Choice} (hm : Coros.AcceptMoves w w' co c co')
    (hk : w'.KernelOk) : ObjectsOk w' co' := by
  cases hm with
  | @boots p fd oid b w₁ w₂ hpc hfd hw₁ hw₂ hw' =>
    refine h.boots hpc (fun e => ?_) hw₁ hw₂ hw'.toSets hk
    rw [show fd = -1 from e] at hfd
    exact absurd hfd (by decide)
  | @bootFails p fd w₁ hpc hw₁ hp hw' =>
    have hmanaged : ∀ q, q ∉ w'.managedFd := by
      intro q hq
      rw [hw'] at hq
      obtain ⟨o, ho⟩ := (h.owned.same hw₁).owned q hq
      exact h.not_owns hpc o q ho
    refine ⟨hk, ⟨fun q hq => absurd hq (hmanaged q), fun q hq => ?_, fun o q ho => ?_, h.owned.inj,
      fun q hq => absurd hq (hmanaged q)⟩, fun sid s hs => ?_, fun e => absurd hpc e, h.boot, h.fresh⟩
    · rw [hw'] at hq ⊢
      exact (h.owned.same hw₁).processed_managed q hq
    · exact absurd ho (h.not_owns hpc o q)
    · simp [h.boot hpc sid] at hs
  | @completes fd a w₁ hpc ha hw₁ hw' hsame =>
    have hb : co.acceptor ≠ .boot := by rcases hpc with e | e <;> simp [e]
    obtain ⟨-, -, -, hm⟩ := h.listen hb
    have h' := h.sets (hw₁.toSets.same hsame) ha rfl (fun _ => hm) hk
    exact h'.congr rfl rfl (by simp [hb]) le_rfl
  | suspends hpc ha hw' =>
    obtain ⟨-, -, -, hm⟩ := h.listen (by simp [hpc])
    have h' := h.sets hw'.toSets ha (by simp) (fun _ => hm) hk
    exact h'.congr rfl rfl (by simp [hpc]) le_rfl
  | exits hpc ha hw' =>
    obtain ⟨-, -, -, hm⟩ := h.listen (by simp [hpc])
    exact h.sets hw'.toSets ha (by simp) (fun _ => hm) hk
  | @makes fd p oid b hpc hw' =>
    have hb : co.acceptor ≠ .boot := by simp [hpc]
    have hnew : co.sessions co.nextFrame = none := by
      by_contra hne
      obtain ⟨s, hs⟩ := Option.ne_none_iff_exists'.1 hne
      exact absurd (h.fresh _ s hs) (lt_irrefl _)
    have hptr : ∀ r q, (Session.start co.nextFrame p).ptr r = some q ↔ r = .socket ∧ q = p := by
      intro r q
      simp only [Session.start, Function.update_apply]
      split_ifs with e <;> simp [e, eq_comm]
    refine h.adds hw' hk (r := .socket) rfl (fun r q => ?_) ⟨.of_holds (fun r q hq => ?_) ?_,
      fun r q hq => ?_, fun r q c hq _ _ => ?_⟩ hb (by simp) rfl (Nat.le_succ _) (Nat.lt_succ_self _)
    · simp [hptr, hnew]
    · rw [((hptr r q).1 hq).1]
      rfl
    · simp [Session.start]
    · rw [((hptr r q).1 hq).2]
      exact Or.inl ((hw'.managed p).2 (Or.inl ⟨rfl, rfl⟩))
    · exact ⟨((hptr r q).1 hq).1, rfl⟩

/-- Every step of the server keeps the objects in order, whatever the system calls do. -/
theorem ObjectsOk.step {S S' : State} {l : Label Choice} (h : ObjectsOk S.w S.co)
    (hs : S.step l = some S') : ObjectsOk S'.w S'.co := by
  cases Server.step_cases hs with
  | wait _ _ hS | batchEnd _ hS | unmanaged _ _ hS | noIn _ _ _ hS | noOut _ _ hS
  | sendNull _ _ _ _ hS | flushEnd _ hS => subst hS; exact h
  | recvNull _ _ _ ha _ hS =>
    subst hS
    exact h.sets (World.noteHangup_puts ha).toSets ha rfl (by simp) (h.kernel.noteHangup _)
  | recv _ _ _ ha _ hco hS =>
    subst hS
    exact (h.sets (World.noteHangup_puts ha).toSets ha rfl (by simp)
      (h.kernel.noteHangup _)).resume hco
  | send _ _ _ _ hco hS => subst hS; exact h.resume hco
  | flush _ ha hS =>
    subst hS
    exact h.sets (World.flushOne_sets ha _) ha rfl (by simp) (h.kernel.flushOne ha _)
  | @co k c m w' _ hm hw hS =>
    subst hS
    have hk := Call.applyAll_inv (I := World.KernelOk) (fun c _ w hc hk => hk.apply hc) hw
      h.kernel
    rcases (Coros.step_cases hm).acceptor_or_session hw with
      ⟨-, hacc⟩ | ⟨sid, via, s, act, pr, -, hsid, hact, -, rfl⟩
    · exact h.accept hacc hk
    · have hok := h.session sid s hsid
      have hmv := Session.moves hact hw hok.shape fun r p a hp ha e => (hok.valid r p a hp ha e).2
      exact (h.moves hsid hmv hk via).congr rfl rfl Iff.rfl le_rfl
  | env hco hS =>
    subst hS
    obtain ⟨pid, pr, -, -, rfl⟩ := Coros.env_cases hco
    exact h.congr rfl rfl Iff.rfl le_rfl

/-- Nothing is constructed when `main` begins, whatever is open. -/
theorem objectsOk_startWith (opened : Finset ℕ) :
    ObjectsOk (State.startWith opened).w (State.startWith opened).co where
  kernel := .before opened
  owned :=
    { managed_live := fun p hp => by simp [State.startWith, World.before, World.initial] at hp
      processed_managed := fun p hp => by
        simp [State.startWith, World.before, World.initial] at hp
      live := by
        rintro (_ | ⟨sid, r⟩) p ho
        · exact absurd rfl ho.1
        · obtain ⟨s, hs, -⟩ := ho
          cases hs
      inj := by
        rintro (_ | ⟨sid, r⟩) o' p ho
        · exact absurd rfl ho.1
        · obtain ⟨s, hs, -⟩ := ho
          cases hs
      owned := fun p hp => by simp [State.startWith, World.before, World.initial] at hp }
  session sid s hs := by cases hs
  listen hb := absurd rfl hb
  boot _ _ := rfl
  fresh sid s hs := by cases hs

theorem objectsOk_start : ObjectsOk State.start.w State.start.co :=
  State.startWith_empty ▸ objectsOk_startWith ∅

/-- The objects stay in order. -/
theorem ObjectsOk.reach {ok : State → Label Choice → Prop} {S₀ S : State}
    (h0 : ObjectsOk S₀.w S₀.co) (h : Lts.Reach State.step ok S₀ S) : ObjectsOk S.w S.co :=
  h.inv (I := fun S => ObjectsOk S.w S.co) h0 fun _ _ _ hi _ hst => hi.step hst

/-- The objects are in order in every state reached. -/
theorem objectsOk_reach {ok : State → Label Choice → Prop} {S : State}
    (h : Lts.Reach State.step ok State.start S) : ObjectsOk S.w S.co :=
  objectsOk_start.reach h

end Steps

/-- **The sets of `IOContext` designate live objects.** In every state of every run, in particular
at every `epoll_wait` and at every iteration of the flush loop, and whatever the system calls do,
every pointer in `managed_fd` and in `processedSockets` designates an object that has been
constructed and not destroyed, and `processedSockets` is a part of `managed_fd`. -/
theorem sets_designate_live {S : State} (h : Lts.Reach State.step (fun _ _ => True) State.start S) :
    (∀ p ∈ S.w.managedFd, ∃ a, S.w.heap p = some a) ∧
      (∀ p ∈ S.w.processedSockets, ∃ a, S.w.heap p = some a) ∧
      ∀ p ∈ S.w.processedSockets, p ∈ S.w.managedFd := by
  have howned := (objectsOk_reach h).owned
  refine ⟨howned.managed_live, fun p hp => ?_, howned.processed_managed⟩
  exact howned.managed_live p (howned.processed_managed p hp)

/-- At the first flush with a connection, both `Socket`s are there. -/
theorem sets_designate_live_flush : ∃ S : State, S.ctl = .flush [1, 2] ∧
    (∃ a, S.w.heap 1 = some a) ∧ ∃ a, S.w.heap 2 = some a := by
  obtain ⟨S, h, hp⟩ := Lts.exists_reach State.step (fun _ _ => True) State.start
    (listenRun ++ connectRun 2 4 ++ [.next]) (fun _ _ => true) (fun _ _ _ => trivial)
    (fun S => decide (S.ctl = .flush [1, 2] ∧ 1 ∈ S.w.processedSockets ∧
      2 ∈ S.w.processedSockets)) (by decide)
  obtain ⟨hctl, h1, h2⟩ := of_decide_eq_true hp
  have hlive := (sets_designate_live h).2.1
  exact ⟨S, hctl, hlive 1 h1, hlive 2 h2⟩

end EpollCoroutine
