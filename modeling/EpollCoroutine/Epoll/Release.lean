import EpollCoroutine.Epoll.Change
import EpollCoroutine.Lib.Ownership

/-!
# Destructors

How the objects that hold a descriptor give it up: `AsyncFileDescriptor`, and the classes derived
from it of which each has a destructor of its own, `Socket` and `PopenAsyncCommand`.

* `Dtor`: the body of a destructor, as the calls it makes and what it leaves in `fd_`. A derived
  destructor is followed by that of the base, which looks at `fd_` again: `Dtor.andThen`.
* `Ledger`: the world with the classes of its objects, and a log of all constructions, releases and
  destructions. `Ledger.step` is a construction, a destruction or any other call, each of which
  succeeds; the kernel hands out numbers that are not open, also such that were closed before.
* `SingleRelease`: every object that is destroyed has detached once and closed its number once, and
  nobody releases a number that is not his.
* `single_release_iff`: a run has this property unless it destroys a `PopenAsyncCommand`.
-/

namespace EpollCoroutine

/-- A call that gives a descriptor up: the `EPOLL_CTL_DEL` of `IOContext::detach`, `close`, or the
`close` that is a part of `pclose`. -/
inductive Release
  | epollCtlDel (fd : Fd)
  | close (fd : Fd)
  | pclose (fd : Fd)
  deriving DecidableEq

/-- The effect of the call when it is made for the object at `p`. -/
def Release.apply {H : Type} (p : Addr) : Release → World H → World H
  | .epollCtlDel fd, w => w.detach p fd
  | .close fd, w | .pclose fd, w => w.closeFd fd

/-! ### The classes -/

/-- The body of a destructor: the calls it makes and the value of `fd_` afterwards. -/
abbrev Dtor := Fd → List Release × Fd

/-- The destructor of a derived class is followed by that of its base. -/
def Dtor.andThen (d base : Dtor) : Dtor := fun fd =>
  let (l, fd') := d fd
  let (l', fd'') := base fd'
  (l ++ l', fd'')

/-- `~AsyncFileDescriptor`. -/
def asyncFileDescriptorDtor : Dtor := fun fd =>
  if fd = -1 then ([], fd) else ([.epollCtlDel fd, .close fd], -1)

/-- `~Socket`: its statements are commented out. -/
def socketDtor : Dtor := fun fd => ([], fd)

/-- `~PopenAsyncCommand`, when `fileno(mPipe)` is `mPipe`. It leaves `fd_` as it is. -/
def popenAsyncCommandDtor (mPipe : Fd) : Dtor := fun fd =>
  if fd = -1 then ([], fd) else ([.epollCtlDel fd, .close fd, .pclose mPipe], fd)

/-- The classes whose objects hold a descriptor. -/
inductive Class
  | asyncFileDescriptor
  | socket
  | popenAsyncCommand
  deriving DecidableEq

/-- The class of an object, and the number of the stream that a `PopenAsyncCommand` keeps. -/
inductive Instance
  | asyncFileDescriptor
  | socket
  | popenAsyncCommand (mPipe : Fd)
  deriving DecidableEq

/-- The class of an object. -/
def Instance.cls : Instance → Class
  | .asyncFileDescriptor => .asyncFileDescriptor
  | .socket => .socket
  | .popenAsyncCommand _ => .popenAsyncCommand

/-- What runs when an object is destroyed. -/
def Instance.dtor : Instance → Dtor
  | .asyncFileDescriptor => asyncFileDescriptorDtor
  | .socket => socketDtor.andThen asyncFileDescriptorDtor
  | .popenAsyncCommand mPipe => (popenAsyncCommandDtor mPipe).andThen asyncFileDescriptorDtor

namespace Class

variable {H : Type}

/-- The object that a constructor makes; `fd` is the number of the stream of a
`PopenAsyncCommand`. -/
def inst (fd : Fd) : Class → Instance
  | .asyncFileDescriptor => .asyncFileDescriptor
  | .socket => .socket
  | .popenAsyncCommand => .popenAsyncCommand fd

/-- `AsyncFileDescriptor(fd, ..)`, `Socket(fd, ..)` and `PopenAsyncCommand(stream, ..)` where `fd`
is `fileno(stream)`, constructed at `p`. -/
def construct (p : Addr) (fd : Fd) (w : World H) : Class → World H
  | .asyncFileDescriptor => w.create p fd
  | .socket => (w.create p fd).attach p true
  | .popenAsyncCommand => (w.create p fd).attachReadonly p true

/-- Whether the calls of the constructor succeed. -/
def succeeds (fd : Fd) (w : World H) : Class → Bool
  | .asyncFileDescriptor => decide (0 ≤ fd) && (w.table fd).isSome
  | .socket | .popenAsyncCommand => decide (0 ≤ fd) && w.addSucceeds fd true

end Class

/-! ### The log -/

/-- What the log says of an object. -/
inductive Entry
  | constructed (o : ℕ) (k : Class) (p : Addr) (fd : Fd)
  | released (o : ℕ) (r : Release)
  | destroyed (o : ℕ)
  deriving DecidableEq

namespace Entry

/-- The object. -/
def object : Entry → ℕ
  | .constructed o _ _ _ | .released o _ | .destroyed o => o

/-- `o` detaches from the `IOContext`. -/
def isDetach (o : ℕ) : Entry → Bool
  | .released o' (.epollCtlDel _) => o' = o
  | _ => false

/-- `o` closes a number. -/
def isClose (o : ℕ) : Entry → Bool
  | .released o' (.close _) | .released o' (.pclose _) => o' = o
  | _ => false

/-- What an object does with a number. -/
def act : Entry → Option (Ownership.Act ℕ Fd)
  | .constructed o _ _ fd => some (.take o fd)
  | .released o (.epollCtlDel fd) => some (.use o fd)
  | .released o (.close fd) | .released o (.pclose fd) => some (.giveUp o fd)
  | .destroyed _ => none

end Entry

/-- What the objects have done with the numbers. -/
def acts (log : List Entry) : List (Ownership.Act ℕ Fd) := log.filterMap Entry.act

/-- The object that owns a number. -/
def owner (log : List Entry) : Fd → Option ℕ := Ownership.owners (fun _ => none) (acts log)

/-- Descriptors are released once. -/
structure SingleRelease (log : List Entry) : Prop where
  detached : ∀ o, .destroyed o ∈ log → log.countP (Entry.isDetach o) = 1
  closed : ∀ o, .destroyed o ∈ log → log.countP (Entry.isClose o) = 1
  kept : ∀ o, .destroyed o ∉ log →
    log.countP (Entry.isDetach o) = 0 ∧ log.countP (Entry.isClose o) = 0
  rightful : Ownership.Rightful (fun _ => none) (acts log)

/-! ### Runs -/

/-- The world, what each of its objects is an instance of, and the log. -/
structure Ledger (H : Type) where
  world : World H
  instances : Addr → Option Instance
  log : List Entry

/-- What happens next. -/
inductive Happening (H : Type)
  | construct (k : Class) (p : Addr) (fd : Fd)
  | destroy (k : Class) (p : Addr)
  | call (c : Call H)

/-- `PopenAsyncCommand(cmd, ..)`: `popen` opens a stream with the number `fd`. -/
def popenAsyncCommand {H : Type} (p : Addr) (fd : Fd) (f : File) : List (Happening H) :=
  [.call (.openFd fd f), .construct .popenAsyncCommand p fd]

namespace Ledger

variable {H : Type} (s : Ledger H)

/-- Nothing has happened. -/
def start : Ledger H := ⟨.initial, fun _ => none, []⟩

/-- A construction. -/
def construct (k : Class) (p : Addr) (fd : Fd) : Ledger H where
  world := k.construct p fd s.world
  instances := Function.update s.instances p (some (k.inst fd))
  log := s.log ++ [.constructed s.world.nextOid k p fd]

/-- The destruction of the object `a` at `p`. -/
def destroy (p : Addr) (a : AsyncFd H) (i : Instance) : Ledger H where
  world := (((i.dtor a.fd).1.foldl fun w r => r.apply p w) s.world).free p
  instances := Function.update s.instances p none
  log := s.log ++ (i.dtor a.fd).1.map (.released a.oid) ++ [.destroyed a.oid]

/-- A call that constructs and destroys nothing. Numbers of objects are closed by destructors. -/
def allows : Call H → Bool
  | .create _ _ | .destroy _ => false
  | .closeFd fd => (owner s.log fd).isNone
  | _ => true

/-- One step. A constructor gets a number that is open and of which no object is in charge; an
object is destroyed as what it was constructed as. -/
def step (s : Ledger H) : Happening H → Option (Ledger H)
  | .construct k p fd =>
    if (s.world.heap p).isNone && (owner s.log fd).isNone && k.succeeds fd s.world then
      some (s.construct k p fd)
    else none
  | .destroy k p =>
    match s.world.heap p, s.instances p with
    | some a, some i => if i.cls = k then some (s.destroy p a i) else none
    | _, _ => none
  | .call c =>
    if s.allows c && c.enabled s.world then some { s with world := c.apply s.world } else none

/-- A sequence of steps. -/
def run : Ledger H → List (Happening H) → Option (Ledger H) :=
  Lts.exec step fun _ _ => true

/-- What a step can be. -/
inductive StepCase : Happening H → Ledger H → Prop
  | construct {k : Class} {p : Addr} {fd : Fd} (hp : s.world.heap p = none)
      (hfd : owner s.log fd = none) (hk : k.succeeds fd s.world = true) :
      StepCase (.construct k p fd) (s.construct k p fd)
  | destroy {p : Addr} {a : AsyncFd H} {i : Instance} (ha : s.world.heap p = some a)
      (hi : s.instances p = some i) : StepCase (.destroy i.cls p) (s.destroy p a i)
  | call {c : Call H} (hallows : s.allows c = true) (henabled : c.enabled s.world = true) :
      StepCase (.call c) { s with world := c.apply s.world }

variable {s} {s' : Ledger H} {e : Happening H} {es : List (Happening H)}

theorem step_cases (h : s.step e = some s') : s.StepCase e s' := by
  cases e with
  | construct k p fd =>
    simp only [step] at h
    split_ifs at h with hc
    simp only [Bool.and_eq_true, Option.isNone_iff_eq_none] at hc
    cases h
    exact .construct hc.1.1 hc.1.2 hc.2
  | destroy k p =>
    simp only [step] at h
    split at h
    · rename_i a i ha hi
      split_ifs at h with hk
      cases h
      subst hk
      exact .destroy ha hi
    · cases h
  | call c =>
    simp only [step] at h
    split_ifs at h with hc
    rw [Bool.and_eq_true] at hc
    cases h
    exact .call hc.1 hc.2

theorem run_cons : s.run (e :: es) = (s.step e).bind fun s' => s'.run es := by
  simp [run, Lts.exec]

/-- The log only grows. -/
theorem step_log (h : s.step e = some s') : ∃ l, s'.log = s.log ++ l := by
  cases step_cases h with
  | construct => exact ⟨_, rfl⟩
  | destroy => exact ⟨_, List.append_assoc _ _ _⟩
  | call => exact ⟨[], (List.append_nil _).symm⟩

theorem run_log (h : s.run es = some s') : ∃ l, s'.log = s.log ++ l := by
  induction es generalizing s with
  | nil =>
    cases h
    exact ⟨[], (List.append_nil _).symm⟩
  | cons e es ih =>
    rw [run_cons] at h
    obtain ⟨s₁, hs₁, hrun⟩ := Option.bind_eq_some_iff.1 h
    obtain ⟨l₁, hl₁⟩ := step_log hs₁
    obtain ⟨l₂, hl₂⟩ := ih hrun
    exact ⟨l₁ ++ l₂, by rw [hl₂, hl₁, List.append_assoc]⟩

end Ledger

/-! ### What the destructors release -/

section Dtors

variable {fd : Fd} {i : Instance}

theorem asyncFileDescriptorDtor_of_valid (hfd : fd ≠ -1) :
    asyncFileDescriptorDtor fd = ([.epollCtlDel fd, .close fd], -1) :=
  if_neg hfd

/-- A destructor of a class other than `PopenAsyncCommand` detaches once and closes once. -/
theorem Instance.dtor_releases (hfd : fd ≠ -1) (hi : i.cls ≠ .popenAsyncCommand) :
    (i.dtor fd).1 = [.epollCtlDel fd, .close fd] := by
  cases i with
  | asyncFileDescriptor => simp [dtor, asyncFileDescriptorDtor_of_valid hfd]
  | socket => simp [dtor, Dtor.andThen, socketDtor, asyncFileDescriptorDtor_of_valid hfd]
  | popenAsyncCommand mPipe => exact absurd rfl hi

/-- That of `PopenAsyncCommand` closes the descriptor and the stream, and then the base, which
finds `fd_` unchanged, detaches and closes once more. -/
theorem Instance.dtor_popenAsyncCommand (hfd : fd ≠ -1) (mPipe : Fd) :
    ((Instance.popenAsyncCommand mPipe).dtor fd).1 =
      [.epollCtlDel fd, .close fd, .pclose mPipe, .epollCtlDel fd, .close fd] := by
  simp [dtor, Dtor.andThen, popenAsyncCommandDtor, asyncFileDescriptorDtor_of_valid hfd, hfd]

end Dtors

/-! ### What the steps do to the objects -/

section Objects

variable {H : Type} {w : World H} {p q : Addr} {fd : Fd}

theorem attachLogged_nextOid (m : Mask) (ok : Bool) :
    (w.attachLogged m p ok).nextOid = w.nextOid := by
  unfold World.attachLogged World.recordAttached World.modifyAt World.epollAdd
  split
  · rfl
  · split_ifs <;> rfl

theorem attachReadonly_nextOid (ok : Bool) : (w.attachReadonly p ok).nextOid = w.nextOid := by
  unfold World.attachReadonly
  split_ifs
  · exact attachLogged_nextOid _ ok
  · rfl

/-- A constructor makes an object with a number of its own. -/
theorem Class.construct_heap (k : Class) (fd : Fd) (hp : w.heap p = none) :
    ∃ a, (k.construct p fd w).heap = Function.update w.heap p (some a) ∧ a.oid = w.nextOid ∧
      a.fd = fd := by
  cases k with
  | asyncFileDescriptor => exact ⟨_, rfl, rfl, rfl⟩
  | socket => exact ⟨_, (World.attachLogged_adds hp fd _ true).heap, rfl, rfl⟩
  | popenAsyncCommand => exact ⟨_, (World.attachReadonly_adds hp fd true).heap, rfl, rfl⟩

theorem Class.construct_nextOid (k : Class) : (k.construct p fd w).nextOid = w.nextOid + 1 := by
  cases k with
  | asyncFileDescriptor => rfl
  | socket => exact attachLogged_nextOid _ true
  | popenAsyncCommand => exact attachReadonly_nextOid true

/-- The calls of a destructor leave the objects alone. -/
theorem Release.foldl_heap (p : Addr) (l : List Release) (w : World H) :
    (l.foldl (fun w r => r.apply p w) w).heap = w.heap ∧
      (l.foldl (fun w r => r.apply p w) w).nextOid = w.nextOid := by
  induction l generalizing w with
  | nil => exact ⟨rfl, rfl⟩
  | cons r l ih =>
    obtain ⟨hheap, hoid⟩ := ih (r.apply p w)
    rw [List.foldl_cons, hheap, hoid]
    cases r <;> exact ⟨rfl, rfl⟩

/-- What tells an object from others, and its number. -/
def AsyncFd.key (a : AsyncFd H) : ℕ × Fd := (a.oid, a.fd)

theorem modifyAt_key {f : AsyncFd H → AsyncFd H} (hf : ∀ a, (f a).key = a.key) :
    ((w.modifyAt p f).heap q).map AsyncFd.key = (w.heap q).map AsyncFd.key := by
  rw [World.modifyAt_heap]
  split_ifs with hq
  · rw [hq, Option.map_map]
    exact Option.map_congr fun a _ => hf a
  · rfl

theorem attachLogged_key (m : Mask) (ok : Bool) :
    ((w.attachLogged m p ok).heap q).map AsyncFd.key = (w.heap q).map AsyncFd.key := by
  unfold World.attachLogged
  split
  · rfl
  · rename_i a ha
    have h : (((w.epollAdd m p a.fd ok).modifyAt p fun a => { a with ioState := m }).heap q).map
        AsyncFd.key = ((w.epollAdd m p a.fd ok).heap q).map AsyncFd.key := modifyAt_key fun _ => rfl
    rw [World.epollAdd_heap] at h
    exact h

/-- Other calls keep the objects and their numbers. -/
theorem Ledger.allows_key {s : Ledger H} {c : Call H} (h : s.allows c = true) (w : World H)
    (q : Addr) : ((c.apply w).heap q).map AsyncFd.key = (w.heap q).map AsyncFd.key := by
  cases c with
  | create | destroy => cases h
  | openFd | closeFd => rfl
  | attach p ok => exact attachLogged_key _ ok
  | attachWriteOnly p ok => exact attachLogged_key _ ok
  | attachReadonly p ok =>
    show ((w.attachReadonly p ok).heap q).map AsyncFd.key = _
    unfold World.attachReadonly
    split_ifs
    · exact attachLogged_key _ ok
    · rfl
  | watch d p => exact modifyAt_key fun _ => rfl
  | unwatch d p => exact modifyAt_key fun _ => rfl
  | suspend d p x => exact modifyAt_key fun a => by simp [AsyncFd.key]

theorem Ledger.allows_nextOid {s : Ledger H} {c : Call H} (h : s.allows c = true) (w : World H) :
    (c.apply w).nextOid = w.nextOid := by
  cases c with
  | create | destroy => cases h
  | attach p ok => exact attachLogged_nextOid _ ok
  | attachWriteOnly p ok => exact attachLogged_nextOid _ ok
  | attachReadonly p ok => exact attachReadonly_nextOid ok
  | _ => rfl

end Objects

/-! ### The history of an object -/

/-- What the log says of `o`. -/
def history (o : ℕ) (log : List Entry) : List Entry := log.filter fun e => e.object = o

/-- The history of an object that does not exist yet, of one that lives, and of one that has been
destroyed. -/
inductive Life (o : ℕ) : List Entry → Prop
  | unborn : Life o []
  | alive (k : Class) (p : Addr) (fd : Fd) : Life o [.constructed o k p fd]
  | gone (k : Class) (p : Addr) (fd : Fd) : Life o
      [.constructed o k p fd, .released o (.epollCtlDel fd), .released o (.close fd), .destroyed o]

section History

variable {o : ℕ} {log l l' : List Entry}

theorem history_append (o : ℕ) (l l' : List Entry) :
    history o (l ++ l') = history o l ++ history o l' :=
  List.filter_append l l'

theorem history_own (h : ∀ e ∈ l, e.object = o) : history o l = l :=
  List.filter_eq_self.2 fun e he => decide_eq_true (h e he)

/-- What concerns other objects is not in the history. -/
theorem history_append_other (h : ∀ e ∈ l, e.object ≠ o) : history o (log ++ l) = history o log := by
  have hnil : history o l = [] := List.filter_eq_nil_iff.2 fun e he => by simpa using h e he
  rw [history_append, hnil, List.append_nil]

/-- What concerns an object is counted in its history. -/
theorem countP_history {f : Entry → Bool} (hf : ∀ e, f e = true → e.object = o)
    (log : List Entry) : (history o log).countP f = log.countP f := by
  rw [history, List.countP_filter]
  refine List.countP_congr fun e _ => ?_
  simp only [Bool.and_eq_true, decide_eq_true_eq, and_iff_left_iff_imp]
  exact hf e

theorem Entry.object_of_isDetach {e : Entry} (h : e.isDetach o = true) : e.object = o := by
  cases e with
  | released o' r => cases r <;> simp_all [isDetach, object]
  | _ => cases h

theorem Entry.object_of_isClose {e : Entry} (h : e.isClose o = true) : e.object = o := by
  cases e with
  | released o' r => cases r <;> simp_all [isClose, object]
  | _ => cases h

theorem destroyed_mem_history : .destroyed o ∈ history o log ↔ .destroyed o ∈ log := by
  simp [history, Entry.object]

/-- It is enough to look at each object by itself. -/
theorem SingleRelease.of_lives (h : ∀ o, Life o (history o log))
    (hr : Ownership.Rightful (fun _ => none) (acts log)) : SingleRelease log := by
  have hcounts : ∀ o, (.destroyed o ∈ log ∧ log.countP (Entry.isDetach o) = 1 ∧
      log.countP (Entry.isClose o) = 1) ∨ (.destroyed o ∉ log ∧
      log.countP (Entry.isDetach o) = 0 ∧ log.countP (Entry.isClose o) = 0) := by
    intro o
    rw [← destroyed_mem_history, ← countP_history (fun _ => Entry.object_of_isDetach) log,
      ← countP_history (fun _ => Entry.object_of_isClose) log]
    have hlife := h o
    generalize history o log = l at hlife ⊢
    cases hlife with
    | unborn => right; simp
    | alive k p fd => right; simp [Entry.isDetach, Entry.isClose]
    | gone k p fd => left; simp [Entry.isDetach, Entry.isClose]
  refine ⟨fun o ho => ?_, fun o ho => ?_, fun o ho => ?_, hr⟩
  · rcases hcounts o with ⟨-, hd, -⟩ | ⟨hn, -⟩
    · exact hd
    · exact absurd ho hn
  · rcases hcounts o with ⟨-, -, hc⟩ | ⟨hn, -⟩
    · exact hc
    · exact absurd ho hn
  · rcases hcounts o with ⟨hm, -⟩ | ⟨-, hdc⟩
    · exact absurd hm ho
    · exact hdc

end History

theorem acts_append (l l' : List Entry) : acts (l ++ l') = acts l ++ acts l' :=
  List.filterMap_append

theorem owner_append (log l : List Entry) :
    owner (log ++ l) = Ownership.owners (owner log) (acts l) := by
  rw [owner, acts_append, Ownership.owners_append]
  rfl

theorem rightful_append_iff (log l : List Entry) :
    Ownership.Rightful (fun _ => none) (acts (log ++ l)) ↔
      Ownership.Rightful (fun _ => none) (acts log) ∧ Ownership.Rightful (owner log) (acts l) := by
  rw [acts_append, Ownership.rightful_append]
  rfl

@[simp] theorem Class.inst_cls (k : Class) (fd : Fd) : (k.inst fd).cls = k := by cases k <;> rfl

theorem Class.valid_of_succeeds {H : Type} {k : Class} {fd : Fd} {w : World H}
    (h : k.succeeds fd w = true) : fd ≠ -1 := by
  have h0 : 0 ≤ fd := by
    cases k <;> simp only [succeeds, Bool.and_eq_true, decide_eq_true_eq] at h <;> exact h.1
  rintro rfl
  cases h0

/-! ### Runs in which no `PopenAsyncCommand` is destroyed -/

namespace Ledger

variable {H : Type} {s s' : Ledger H} {p q : Addr} {a : AsyncFd H} {i : Instance} {k : Class}
  {fd : Fd} {e : Happening H} {es : List (Happening H)}

/-- The object at `p` owns its number and has released nothing. -/
structure Owns (s : Ledger H) (p : Addr) (i : Instance) (a : AsyncFd H) : Prop where
  live : s.world.heap p = some a
  valid : a.fd ≠ -1
  stream : i = i.cls.inst a.fd
  owned : owner s.log a.fd = some a.oid
  past : history a.oid s.log = [.constructed a.oid i.cls p a.fd]

/-- What holds as long as no `PopenAsyncCommand` has been destroyed. -/
structure Ok (s : Ledger H) : Prop where
  owns : ∀ p i, s.instances p = some i → ∃ a, s.Owns p i a
  fresh : ∀ o, s.world.nextOid ≤ o → history o s.log = []
  lives : ∀ o, Life o (history o s.log)
  rightful : Ownership.Rightful (fun _ => none) (acts s.log)

theorem Ok.start : (start : Ledger H).Ok :=
  ⟨fun _ _ h => (by cases h), fun _ _ => rfl, fun _ => .unborn, trivial⟩

/-- An object is told from the others by its history. -/
theorem Owns.inj {i' : Instance} {a' : AsyncFd H} (h : s.Owns p i a) (h' : s.Owns q i' a')
    (ho : a.oid = a'.oid) : p = q := by
  have heq := h.past
  rw [ho, h'.past] at heq
  simp only [List.cons.injEq, Entry.constructed.injEq] at heq
  exact heq.1.2.2.1.symm

/-- No two objects own one number. -/
theorem Owns.fd_inj {i' : Instance} {a' : AsyncFd H} (h : s.Owns p i a) (h' : s.Owns q i' a')
    (hfd : a.fd = a'.fd) : p = q := by
  have hown := h.owned
  rw [hfd, h'.owned] at hown
  exact h.inj h' (Option.some.inj hown).symm

/-- An object that a step does not concern. -/
theorem Owns.frame (h : s.Owns p i a) (hheap : s'.world.heap p = s.world.heap p)
    (hown : owner s'.log a.fd = owner s.log a.fd)
    (hhist : history a.oid s'.log = history a.oid s.log) : s'.Owns p i a where
  live := hheap.trans h.live
  valid := h.valid
  stream := h.stream
  owned := hown.trans h.owned
  past := hhist.trans h.past

/-- Objects that exist were constructed before. -/
theorem Ok.oid_lt (h : s.Ok) (ha : s.Owns p i a) : a.oid < s.world.nextOid := by
  by_contra hle
  have hhist := ha.past
  rw [h.fresh a.oid (not_lt.1 hle)] at hhist
  cases hhist

theorem Ok.construct (h : s.Ok) (hp : s.world.heap p = none) (hfd : owner s.log fd = none)
    (hk : k.succeeds fd s.world = true) : (s.construct k p fd).Ok := by
  obtain ⟨b, hheap, hoid, hbfd⟩ := k.construct_heap fd hp
  have hown : owner (s.construct k p fd).log =
      Function.update (owner s.log) fd (some s.world.nextOid) :=
    owner_append s.log _
  have hother : ∀ o, o ≠ s.world.nextOid →
      history o (s.construct k p fd).log = history o s.log :=
    fun o ho => history_append_other (by simpa [Entry.object] using ho.symm)
  have hself : history s.world.nextOid (s.construct k p fd).log =
      [.constructed s.world.nextOid k p fd] := by
    refine (history_append _ s.log _).trans ?_
    rw [h.fresh s.world.nextOid le_rfl, List.nil_append]
    exact history_own (by simp [Entry.object])
  refine ⟨fun q i hi => ?_, fun o ho => ?_, fun o => ?_, ?_⟩
  · have hi' : Function.update s.instances p (some (k.inst fd)) q = some i := hi
    by_cases hq : q = p
    · subst hq
      rw [Function.update_self, Option.some.injEq] at hi'
      subst hi'
      refine ⟨b, ?_, hbfd ▸ Class.valid_of_succeeds hk, by simp [hbfd], ?_, ?_⟩
      · exact (congrFun hheap q).trans (Function.update_self ..)
      · rw [hown, hbfd, hoid, Function.update_self]
      · rw [hoid, hself, Class.inst_cls, hbfd]
    · rw [Function.update_of_ne hq] at hi'
      obtain ⟨a, ha⟩ := h.owns q i hi'
      have hne : a.fd ≠ fd := by
        intro e
        have hsome := ha.owned
        rw [e, hfd] at hsome
        cases hsome
      refine ⟨a, ha.frame ?_ ?_ (hother _ (h.oid_lt ha).ne)⟩
      · exact (congrFun hheap q).trans (Function.update_of_ne hq ..)
      · rw [hown, Function.update_of_ne hne]
  · have hlt : s.world.nextOid < o := by
      have hle : (k.construct p fd s.world).nextOid ≤ o := ho
      rw [Class.construct_nextOid] at hle
      exact hle
    rw [hother o hlt.ne', h.fresh o hlt.le]
  · by_cases ho : o = s.world.nextOid
    · rw [ho, hself]
      exact .alive k p fd
    · rw [hother o ho]
      exact h.lives o
  · exact (rightful_append_iff s.log _).2 ⟨h.rightful, hfd, trivial⟩

/-- The log after a destruction, when the destructor detaches once and closes once. -/
theorem destroy_log (s : Ledger H) (p : Addr)
    (hdtor : (i.dtor a.fd).1 = [.epollCtlDel a.fd, .close a.fd]) :
    (s.destroy p a i).log = s.log ++ [.released a.oid (.epollCtlDel a.fd),
      .released a.oid (.close a.fd), .destroyed a.oid] := by
  rw [destroy, hdtor, List.append_assoc]
  rfl

theorem destroy_heap (s : Ledger H) (p : Addr) (a : AsyncFd H) (i : Instance) :
    (s.destroy p a i).world.heap = Function.update s.world.heap p none ∧
      (s.destroy p a i).world.nextOid = s.world.nextOid := by
  obtain ⟨hheap, hoid⟩ := Release.foldl_heap p (i.dtor a.fd).1 s.world
  rw [← hheap, ← hoid]
  exact ⟨rfl, rfl⟩

theorem Ok.destroy (h : s.Ok) (ha : s.world.heap p = some a) (hi : s.instances p = some i)
    (hk : i.cls ≠ .popenAsyncCommand) : (s.destroy p a i).Ok := by
  obtain ⟨b, hb⟩ := h.owns p i hi
  obtain rfl : b = a := Option.some.inj (hb.live.symm.trans ha)
  obtain ⟨hheap, hnext⟩ := s.destroy_heap p b i
  have hlog := s.destroy_log p (Instance.dtor_releases hb.valid hk)
  have hown : owner (s.destroy p b i).log = Function.update (owner s.log) b.fd none := by
    rw [hlog]
    exact owner_append s.log _
  have hother : ∀ o, o ≠ b.oid → history o (s.destroy p b i).log = history o s.log := by
    intro o ho
    rw [hlog]
    exact history_append_other (by simpa [Entry.object] using ho.symm)
  refine ⟨fun q i' hi' => ?_, fun o ho => ?_, fun o => ?_, ?_⟩
  · have hi'' : Function.update s.instances p none q = some i' := hi'
    have hq : q ≠ p := by
      rintro rfl
      rw [Function.update_self] at hi''
      cases hi''
    rw [Function.update_of_ne hq] at hi''
    obtain ⟨c, hc⟩ := h.owns q i' hi''
    have hfd : c.fd ≠ b.fd := fun e => hq (hc.fd_inj hb e)
    refine ⟨c, hc.frame ?_ ?_ (hother _ fun e => hq (hc.inj hb e))⟩
    · rw [hheap, Function.update_of_ne hq]
    · rw [hown, Function.update_of_ne hfd]
  · rw [hnext] at ho
    rw [hother o ((h.oid_lt hb).trans_le ho).ne', h.fresh o ho]
  · by_cases ho : o = b.oid
    · subst ho
      have hall : history b.oid [.released b.oid (.epollCtlDel b.fd),
          .released b.oid (.close b.fd), .destroyed b.oid] = _ :=
        history_own (by simp [Entry.object])
      rw [hlog, history_append, hall, hb.past]
      exact .gone i.cls p b.fd
    · rw [hother o ho]
      exact h.lives o
  · rw [hlog, rightful_append_iff]
    exact ⟨h.rightful, hb.owned, hb.owned, trivial⟩

theorem Ok.call {c : Call H} (h : s.Ok) (hallows : s.allows c = true) :
    ({ s with world := c.apply s.world } : Ledger H).Ok := by
  refine ⟨fun q i hi => ?_, fun o ho => ?_, h.lives, h.rightful⟩
  · obtain ⟨a, ha⟩ := h.owns q i hi
    have hkey := allows_key hallows s.world q
    rw [ha.live, Option.map_some, Option.map_eq_some_iff] at hkey
    obtain ⟨b, hb, hkey⟩ := hkey
    simp only [AsyncFd.key, Prod.mk.injEq] at hkey
    obtain ⟨hoid, hfd⟩ := hkey
    refine ⟨b, hb, hfd ▸ ha.valid, hfd ▸ ha.stream, ?_, ?_⟩
    · rw [hfd, hoid]
      exact ha.owned
    · rw [hfd, hoid]
      exact ha.past
  · rw [allows_nextOid hallows] at ho
    exact h.fresh o ho

/-- A step that does not destroy a `PopenAsyncCommand`. -/
theorem Ok.step (h : s.Ok) (hs : s.step e = some s')
    (he : ∀ p, e ≠ .destroy .popenAsyncCommand p) : s'.Ok := by
  cases step_cases hs with
  | construct hp hfd hk => exact h.construct hp hfd hk
  | destroy ha hi => exact h.destroy ha hi fun hk => he _ (by rw [hk])
  | call hallows => exact h.call hallows

/-- After `~PopenAsyncCommand` has closed its descriptor, `pclose` closes the same number. -/
theorem Ok.not_rightful (h : s.Ok) (hs : s.step (.destroy .popenAsyncCommand p) = some s') :
    ¬ Ownership.Rightful (fun _ => none) (acts s'.log) := by
  generalize he : Happening.destroy Class.popenAsyncCommand p = e at hs
  cases step_cases hs with
  | construct => cases he
  | call => cases he
  | @destroy q a i ha hi =>
    obtain ⟨hk, rfl⟩ : .popenAsyncCommand = i.cls ∧ p = q := by simpa using he
    obtain ⟨b, hb⟩ := h.owns p i hi
    obtain rfl : b = a := Option.some.inj (hb.live.symm.trans ha)
    have hi : i = .popenAsyncCommand b.fd := by rw [hb.stream, ← hk]; rfl
    rw [Ledger.destroy, List.append_assoc, rightful_append_iff, hi,
      Instance.dtor_popenAsyncCommand hb.valid]
    rintro ⟨-, -, htwice⟩
    exact Ownership.not_rightful_giveUp_twice _ _ _ htwice

/-- A run keeps the invariant, or destroys a `PopenAsyncCommand` and has closed a number twice. -/
theorem run_cases (h : s.Ok) (hrun : s.run es = some s') :
    ((∀ p, .destroy .popenAsyncCommand p ∉ es) ∧ s'.Ok) ∨
      ((∃ p, .destroy .popenAsyncCommand p ∈ es) ∧
        ¬ Ownership.Rightful (fun _ => none) (acts s'.log)) := by
  induction es generalizing s with
  | nil =>
    cases hrun
    exact Or.inl ⟨fun _ => List.not_mem_nil, h⟩
  | cons e es ih =>
    rw [run_cons] at hrun
    obtain ⟨s₁, hs₁, hrest⟩ := Option.bind_eq_some_iff.1 hrun
    by_cases he : ∃ p, e = .destroy .popenAsyncCommand p
    · obtain ⟨p, rfl⟩ := he
      refine Or.inr ⟨⟨p, List.mem_cons_self⟩, fun hr => h.not_rightful hs₁ ?_⟩
      -- what was not rightful at that step stays in the log
      obtain ⟨l, hl⟩ := run_log hrest
      rw [hl, rightful_append_iff] at hr
      exact hr.1
    · rw [not_exists] at he
      rcases ih (h.step hs₁ he) hrest with ⟨hnone, hok⟩ | ⟨⟨p, hp⟩, hr⟩
      · refine Or.inl ⟨fun p hp => ?_, hok⟩
        rcases List.mem_cons.1 hp with hp | hp
        · exact he p hp.symm
        · exact hnone p hp
      · exact Or.inr ⟨⟨p, List.mem_cons_of_mem _ hp⟩, hr⟩

/-- The destructors of the other classes do to the world what `World.destroy` does. -/
theorem destroy_world (ha : s.world.heap p = some a) (hfd : a.fd ≠ -1)
    (hk : i.cls ≠ .popenAsyncCommand) : (s.destroy p a i).world = s.world.destroy p := by
  rw [World.destroy_of_live ha hfd, Ledger.destroy, Instance.dtor_releases hfd hk]
  rfl

end Ledger

/-- **Single release of descriptors.** For every sequence of constructions, destructions and other
calls that succeed: every object detaches exactly once and closes its number exactly once when it is
destroyed and not before, and no release is issued on a number that the object does not own, if and
only if no `PopenAsyncCommand` is destroyed. -/
theorem single_release_iff {H : Type} {es : List (Happening H)} {s : Ledger H}
    (h : Ledger.start.run es = some s) :
    SingleRelease s.log ↔ ∀ p, .destroy .popenAsyncCommand p ∉ es := by
  rcases Ledger.run_cases .start h with ⟨hnone, hok⟩ | ⟨⟨p, hp⟩, hr⟩
  · exact iff_of_true (.of_lives hok.lives hok.rightful) hnone
  · exact iff_of_false (fun hs => hr hs.rightful) fun hnone => hnone p hp

/-- The number of a socket is handed out again, for the read end of a pipe. -/
theorem single_release_reused : ∃ s : Ledger Unit,
    Ledger.start.run [.call (.openFd 5 .connection), .construct .socket 100 5,
      .destroy .socket 100, .call (.openFd 5 (.pipeEnd 0 .read)),
      .construct .asyncFileDescriptor 100 5, .call (.attachReadonly 100 true),
      .destroy .asyncFileDescriptor 100] = some s ∧ SingleRelease s.log := by
  have hrun : ((Ledger.start : Ledger Unit).run [.call (.openFd 5 .connection),
      .construct .socket 100 5, .destroy .socket 100, .call (.openFd 5 (.pipeEnd 0 .read)),
      .construct .asyncFileDescriptor 100 5, .call (.attachReadonly 100 true),
      .destroy .asyncFileDescriptor 100]).isSome = true := by
    decide
  obtain ⟨s, hs⟩ := Option.isSome_iff_exists.1 hrun
  exact ⟨s, hs, (single_release_iff hs).2 fun p => by simp⟩

/-- A `PopenAsyncCommand` detaches twice and closes three times. -/
theorem popen_releases_again :
    ¬ ∀ (es : List (Happening Unit)) (s : Ledger Unit), Ledger.start.run es = some s →
      SingleRelease s.log := by
  intro hall
  have hrun : ((Ledger.start : Ledger Unit).run (popenAsyncCommand 100 5 (.pipeEnd 0 .read) ++
      [.destroy .popenAsyncCommand 100])).any (fun s => decide (.destroyed 0 ∈ s.log) &&
        s.log.countP (Entry.isDetach 0) == 2 && s.log.countP (Entry.isClose 0) == 3) = true := by
    decide
  obtain ⟨s, hs, hcount⟩ := (Option.any_eq_true _ _).1 hrun
  simp only [Bool.and_eq_true, decide_eq_true_eq, beq_iff_eq] at hcount
  have hone := (hall _ s hs).closed 0 hcount.1.1
  rw [hcount.2] at hone
  cases hone

end EpollCoroutine
