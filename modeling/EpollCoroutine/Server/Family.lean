import EpollCoroutine.Server.Program

/-!
# The processes of the server

After `fork` the child goes on in the code of `PipedAsyncCommand::init` with a copy of the memory of
the server, and shares its epoll instance. A failing `execvp` makes `init` return in the child,
which then goes on as the server did: through `factory`, `echo_loop` and `client_socket_handler`
back to `IOContext::run`.

* `Process`: a process, which is either in the child branch of `init` or runs the code of the
  server.
* `Family`: all processes; process `0` is the one that started `main`. The interest set belongs to
  the shared epoll instance.
* `main_alone`: while no `execvp` returns, no other process leaves the child branch of `init`.
-/

namespace EpollCoroutine

/-- `std::isspace`. -/
def isspace (c : Char) : Bool := c.toNat ∈ [9, 10, 11, 12, 13, 32]

/-- The words of a command, which `execvp` gets as its arguments. -/
def words (cmd : List Char) : List (List Char) := (cmd.splitOnP isspace).filter fun w => w ≠ []

/-- What becomes of a process that calls `execvp`: another program, a crash, or the call fails and
returns. -/
inductive ExecOutcome
  | replaced
  | killed
  | returns
  deriving DecidableEq

/-- A process. In the child branch of `init`, `todo` lists what is left to do before `execvp`;
otherwise the process runs the code of the server. -/
structure Process where
  state : State
  todo : Option (List FdAction)

/-- The processes, and the interest set that they share. -/
structure Family where
  procs : ℕ → Option Process
  next : ℕ
  interest : Fd → Option Interest

/-- A step of a process: one of the server's code, a call of the child branch before `execvp`, or
`execvp` itself. -/
inductive Family.Label
  | run (j : ℕ) (l : EpollCoroutine.Label Choice)
  | childCall (j : ℕ)
  | exec (j : ℕ) (e : ExecOutcome)

namespace State

/-- The session that has the thread. -/
def runningSession (S : State) : Option (ℕ × Session) :=
  match S.co.running with
  | .session sid _ => (S.co.sessions sid).map fun s => (sid, s)
  | _ => none

/-- The process that `fork` creates: a copy of the memory, without the children. -/
def forkedProcess (S : State) : Option Process :=
  S.runningSession.map fun x =>
    ⟨{ S with co := { S.co with procs := ⟨fun _ => none, [], []⟩ } }, some (childActions x.2.mFdW x.2.mFdR)⟩

/-- `init` returns an error to `factory`. -/
def returnFromInit (S : State) : State :=
  match S.runningSession with
  | some (sid, s) => { S with co := S.co.setSession sid (some { s with pc := .cleanup false }) }
  | none => S

/-- The process sees the interest set of the epoll instance. -/
def withInterest (S : State) (i : Fd → Option Interest) : State :=
  { S with w := { S.w with interest := i } }

end State

/-- Whether the step is a `fork` that succeeds. -/
def Label.forks : Label Choice → Bool
  | .co (.forked _) => true
  | _ => false

namespace Family

/-- `main` begins. -/
def start : Family :=
  ⟨fun j => if j = 0 then some ⟨State.start, none⟩ else none, 1, fun _ => none⟩

variable (F : Family)

/-- The process `j` becomes `p`. -/
def set (j : ℕ) (p : Option Process) : Family := { F with procs := Function.update F.procs j p }

/-- The process `j` has made a step of the server's code, from `S` to `S'`. A registration goes when
the process itself deletes it: closing its own copy of a descriptor that it has closed before does
not touch the epoll instance. -/
def advance (j : ℕ) (S S' : State) : Family :=
  { F.set j (some ⟨S', none⟩) with
    interest := fun fd => if (S.w.table fd).isNone ∧
      S'.w.interest fd = none then F.interest fd else S'.w.interest fd }

/-- A new process. -/
def spawn (p : Option Process) : Family := { F.set F.next p with next := F.next + 1 }

/-- One step, for the command `cmd`. -/
def step (cmd : List Char) : Label → Option Family
  | .run j l =>
    match F.procs j with
    | some ⟨S, none⟩ => ((S.withInterest F.interest).step l).map fun S' =>
        if l.forks then (F.advance j S S').spawn S.forkedProcess else F.advance j S S'
    | _ => none
  | .childCall j =>
    match F.procs j with
    | some ⟨S, some (a :: rest)⟩ =>
      some (F.set j (some ⟨{ S with w := { S.w with table := a.apply S.w.table } }, some rest⟩))
    | _ => none
  | .exec j e =>
    match F.procs j with
    | some ⟨S, some []⟩ =>
      match e with
      | .replaced => if words cmd = [] then none else some (F.set j none)
      | .killed => some (F.set j none)
      | .returns => some (F.set j (some ⟨S.returnFromInit, none⟩))
    | _ => none

/-! ### The processes that run the code of the server -/

variable {F} {F' : Family} {cmd : List Char} {j : ℕ}

/-- Every process but the first is in the child branch of `init`. -/
structure Alone (F : Family) : Prop where
  next : 0 < F.next
  forked : ∀ j p, j ≠ 0 → F.procs j = some p → p.todo.isSome

theorem Alone.start : Family.start.Alone where
  next := Nat.one_pos
  forked j p hj hp := by
    simp [Family.start, hj] at hp

/-- A process stays in the child branch, or ends; the first may do anything. -/
theorem Alone.set (h : F.Alone) {p : Option Process}
    (hp : j = 0 ∨ ∀ q, p = some q → q.todo.isSome) :
    (F.set j p).Alone where
  next := h.next
  forked i q hi hq := by
    simp only [Family.set, Function.update_apply] at hq
    split_ifs at hq with hij
    · rcases hp with hj | hp
      · exact absurd (hij.trans hj) hi
      · exact hp q hq
    · exact h.forked i q hi hq

theorem Alone.spawn (h : F.Alone) (S : State) : (F.spawn S.forkedProcess).Alone := by
  have hset : (F.set F.next S.forkedProcess).Alone := h.set <| Or.inr fun q hq => by
    obtain ⟨x, -, rfl⟩ := Option.map_eq_some_iff.1 hq
    rfl
  exact ⟨Nat.succ_pos _, hset.forked⟩

/-- A process other than the first does not run the code of the server. -/
theorem Alone.run_main (h : F.Alone) {l : EpollCoroutine.Label Choice}
    (hs : F.step cmd (.run j l) = some F') :
    j = 0 := by
  simp only [Family.step] at hs
  split at hs
  · rename_i S hj
    by_contra hne
    have htodo := h.forked j _ hne hj
    cases htodo
  · cases hs

/-- No `execvp` returns. -/
def ExecSucceeds (_ : Family) (l : Label) : Prop := ∀ j, l ≠ .exec j .returns

theorem Alone.step {l : Label} (h : F.Alone) (hl : F.ExecSucceeds l) (hs : F.step cmd l = some F') :
    F'.Alone := by
  cases l with
  | run j l =>
    have hj := h.run_main hs
    simp only [Family.step] at hs
    split at hs
    · rename_i S _
      obtain ⟨S', -, rfl⟩ := Option.map_eq_some_iff.1 hs
      have hadv : (F.advance j S S').Alone :=
        let hset := h.set (p := some ⟨S', none⟩) (Or.inl hj)
        ⟨hset.next, hset.forked⟩
      split_ifs
      · exact hadv.spawn S
      · exact hadv
    · cases hs
  | childCall j =>
    simp only [Family.step] at hs
    split at hs
    · cases hs
      exact h.set (Or.inr fun q hq => by cases hq; rfl)
    · cases hs
  | exec j e =>
    simp only [Family.step] at hs
    split at hs
    · cases e with
      | replaced =>
        simp only at hs
        split_ifs at hs
        cases hs
        exact h.set (Or.inr fun q hq => by cases hq)
      | killed =>
        cases hs
        exact h.set (Or.inr fun q hq => by cases hq)
      | returns => exact absurd rfl (hl j)
    · cases hs

end Family

/-- **While every `execvp` succeeds, only the process that started `main` returns from `init`.** For
every command, in every state of every run in which no `execvp` returns, every other process is
still in the child branch of `init`, and the code of the server, and with it `IOContext::run` and
the coroutines, is run by the first process only. -/
theorem main_alone (cmd : List Char) {F : Family}
    (h : Lts.Reach (fun F l => Family.step F cmd l) Family.ExecSucceeds Family.start F) :
    (∀ j p, j ≠ 0 → F.procs j = some p → p.todo.isSome) ∧
      ∀ j l F', F.step cmd (.run j l) = some F' → j = 0 := by
  have hinv : F.Alone := h.inv .start fun _ _ _ hi hl hs => hi.step hl hs
  exact ⟨hinv.forked, fun _ _ _ hs => hinv.run_main hs⟩

/-- A session of the first process forks. -/
def forkRun : List (Label Choice) :=
  listenRun ++ connectRun 2 4 ++ flushRun 2 ++
    [.epollWait [(4, EPOLLIN)], .next, .co (.sys (.bytes [97] []))] ++ (spawnRun 3 5 100).take 5

/-- The child goes on in the code of the server until it waits for events. -/
def strayRun : List (Label Choice) :=
  [.co .go, .co .go, .co .go, .co .go, .next, .next, .modify true, .next]

/-- A child that has reached `execvp`, and waits there while the server goes on. -/
theorem main_alone_forked :
    ∃ F : Family, (∃ p, F.procs 1 = some p ∧ p.todo = some []) ∧
      ∀ j l F', F.step "cat".toList (.run j l) = some F' → j = 0 := by
  obtain ⟨F, h, hp⟩ := Lts.exists_reach (fun F l => Family.step F "cat".toList l) Family.ExecSucceeds Family.start
    (forkRun.map (.run 0) ++ List.replicate 6 (.childCall 1) ++ [.run 0 (.co (.opened 9))])
    (fun _ l => match l with
      | .exec _ _ => false
      | _ => true)
    (fun F l hl j hj => by rw [hj] at hl; cases hl)
    (fun F => decide (∃ p ∈ F.procs 1, p.todo = some [])) (by decide)
  obtain ⟨p, hp1, htodo⟩ := of_decide_eq_true hp
  exact ⟨F, ⟨p, hp1, htodo⟩, (main_alone "cat".toList h).2⟩

/-- `execvp` fails: the child returns from `init`, ends the session and is in `IOContext::run`. -/
theorem child_returns_from_init :
    ¬∀ (cmd : List Char) (F : Family), Lts.Reach (fun F l => Family.step F cmd l) (fun _ _ => True) Family.start F →
      ∀ j p, j ≠ 0 → F.procs j = some p → p.todo.isSome := by
  intro hall
  obtain ⟨F, h, hp⟩ := Lts.exists_reach (fun F l => Family.step F "cat".toList l) (fun _ _ => True) Family.start
    (forkRun.map (.run 0) ++ List.replicate 6 (.childCall 1) ++ [.exec 1 .returns] ++ strayRun.map (.run 1))
    (fun _ _ => true) (fun _ _ _ => trivial)
    (fun F => decide (∃ p ∈ F.procs 1, p.todo = none ∧ p.state.ctl = .epollWait)) (by decide)
  obtain ⟨p, hp1, htodo, -⟩ := of_decide_eq_true hp
  have hsome := hall _ F h 1 p Nat.one_ne_zero hp1
  rw [htodo] at hsome
  cases hsome

end EpollCoroutine
