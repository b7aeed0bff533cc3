import EpollCoroutine.Server.Session

/-!
# The server

The `accept` coroutine of `app/main.cc`, the sessions it starts and the child processes, as a
`Program` for `IOContext::run`.

* `Procs`: the children that have not been reaped, each with its copy of the descriptor table and
  what it has still to do before `exec`. The log of `kill`s records whether the target was such a
  child. Process ids are reused: `children pid` is whoever has the id now.
* `Coros`: the coroutines. `running` says which of them has the thread; a session that was started
  by the `accept` coroutine (`client_socket_handler(...).detach()`) returns to it.
* `server`: the program; `Coros.start` is its state when `main` begins.
-/

namespace EpollCoroutine

/-! ### Processes -/

/-- What a child does with its descriptors between `fork` and `exec`. -/
inductive FdAction
  | close (fd : Fd)
  | dup2 (src dst : Fd)
  deriving DecidableEq

/-- A child that has not been reaped. It has reached `exec` when `todo` is empty. -/
structure Child where
  frame : ℕ
  table : Fd → Option File
  todo : List FdAction

/-- The child branch of `PipedAsyncCommand::init`. -/
def childActions (mFdW mFdR : Fd × Fd) : List FdAction :=
  [.close mFdW.2, .close mFdR.1, .dup2 mFdW.1 0, .close mFdW.1, .dup2 mFdR.2 1, .close mFdR.2]

/-- The effect of one of these calls on the child's table; `dup2` of a closed descriptor fails. -/
def FdAction.apply : FdAction → (Fd → Option File) → Fd → Option File
  | .close fd, t => Function.update t fd none
  | .dup2 src dst, t => if (t src).isSome then Function.update t dst (t src) else t

/-- The child processes, the `kill`s issued so far, and the calls of `echo_loop` for which
`finishwriting` has returned. -/
structure Procs where
  children : Pid → Option Child
  kills : List (Pid × Bool)
  finished : List ℕ

namespace Procs

/-- The effect of a step of the session `s`, while the server's descriptor table is `table`. -/
def apply (pr : Procs) (s : Session) (table : Fd → Option File) : Effect → Option Procs
  | .none => some pr
  | .forked pid =>
    if 0 < pid ∧ (pr.children pid).isNone then
      some { pr with
        children := Function.update pr.children pid
          (some ⟨s.frame, table, childActions s.mFdW s.mFdR⟩) }
    else none
  | .reaped pid =>
    if (pr.children pid).isSome then
      some { pr with children := Function.update pr.children pid none }
    else none
  | .killed pid => some { pr with kills := (pid, (pr.children pid).isSome) :: pr.kills }
  | .finishedWriting => some { pr with finished := s.frame :: pr.finished }

/-- One step of the child `pid` on its way to `exec`. -/
def childStep (pr : Procs) (pid : Pid) : Option Procs :=
  match pr.children pid with
  | none => none
  | some c =>
    match c.todo with
    | [] => none
    | a :: rest => some { pr with
        children := Function.update pr.children pid
          (some { c with table := a.apply c.table, todo := rest }) }

end Procs

/-! ### Coroutines -/

/-- Where the `accept` coroutine is; `boot` is the construction of the listening `Socket` and
`made fd` that of the `Socket` for the descriptor that `accept` has returned. -/
inductive AcceptPc
  | boot
  | call
  | susp (n : ℕ)
  | retry
  | made (fd : Fd)
  deriving DecidableEq

/-- Which coroutine has the thread. -/
inductive Running
  | idle
  | acceptor
  | session (sid : ℕ) (viaAcceptor : Bool)
  deriving DecidableEq

/-- The coroutines of the server. -/
structure Coros where
  listen : Addr
  acceptor : AcceptPc
  acceptNo : ℕ
  sessions : ℕ → Option Session
  running : Running
  nextFrame : ℕ
  procs : Procs

namespace Coros

/-- `main` begins. -/
def start : Coros where
  listen := 0
  acceptor := .boot
  acceptNo := 0
  sessions := fun _ => none
  running := .acceptor
  nextFrame := 0
  procs := ⟨fun _ => none, [], []⟩

variable (co : Coros)

/-- Who has the thread when a session suspends or ends. -/
def back (viaAcceptor : Bool) : Running := if viaAcceptor then .acceptor else .idle

/-- What that means for `run`. -/
def backStatus (viaAcceptor : Bool) : Status := if viaAcceptor then .running else .yielded

/-- Put the session `sid` into the state `s`. -/
def setSession (sid : ℕ) (s : Option Session) : Coros :=
  { co with sessions := Function.update co.sessions sid s }

/-- The coroutines after a step of the session `sid`. -/
def settle (sid : ℕ) (viaAcceptor : Bool) : After → Coros
  | .running s => co.setSession sid (some s)
  | .again s => { co.setSession sid (some s) with nextFrame := co.nextFrame + 1 }
  | .suspended s => { co.setSession sid (some s) with running := back viaAcceptor }
  | .ended => { co.setSession sid none with running := back viaAcceptor }
  | .exited => co

/-- Whether the thread stays with the coroutines after a step of a session. -/
def status (viaAcceptor : Bool) : After → Status
  | .running _ | .again _ => .running
  | .suspended _ | .ended => backStatus viaAcceptor
  | .exited => .exited

/-- `SocketAcceptOperation` completes with the descriptor `fd`. -/
def accepted (calls : List (Call Handle)) (fd : Fd) : Move Handle Coros :=
  ⟨calls, { co with acceptor := .made fd }, .running⟩

/-- One step of the `accept` coroutine, beginning with the construction of the listening
`Socket`. -/
def acceptStep (c : Choice) : Option (Move Handle Coros) :=
  match co.acceptor, c with
  | .boot, .boot p fd bound ok =>
    if bound then some
      ⟨[.openFd fd .listening, .create p fd, .attach p ok, .watch .read p],
        { co with listen := p, acceptor := .call }, .running⟩
    else some
      ⟨[.openFd fd .listening, .create p fd], co, .exited⟩
  | .call, .opened fd => some (co.accepted
      [.watch .read co.listen, .unwatch .read co.listen, .openFd fd .connection] fd)
  | .call, .sys .wouldBlock => some
      ⟨[.watch .read co.listen, .suspend .read co.listen (.accept co.acceptNo)],
        { co with
          acceptor := .susp co.acceptNo
          acceptNo := co.acceptNo + 1
          running := .idle }, .yielded⟩
  | .call, .sys .failed => some ⟨[.watch .read co.listen], co, .exited⟩
  | .retry, .opened fd => some (co.accepted
      [.unwatch .read co.listen, .openFd fd .connection] fd)
  | .retry, .sys _ => some (co.accepted [.unwatch .read co.listen] (-1))
  | .made fd, .object p ok => some
      ⟨[.create p fd, .attach p ok],
        { co.setSession co.nextFrame (some (.start co.nextFrame p)) with
          acceptor := .call
          nextFrame := co.nextFrame + 1
          running := .session co.nextFrame true }, .running⟩
  | _, _ => none

/-- One step of a session. -/
def sessionStep (sid : ℕ) (viaAcceptor : Bool) (w : World Handle) (c : Choice) :
    Option (Move Handle Coros) :=
  (co.sessions sid).bind fun s => (s.step w sid co.nextFrame c).bind fun act =>
    (co.procs.apply s w.table act.effect).map fun pr =>
      ⟨act.calls, { co.settle sid viaAcceptor act.after with procs := pr },
        status viaAcceptor act.after⟩

/-- One step of the running coroutine. -/
def step (c : Choice) (w : World Handle) (co : Coros) : Option (Move Handle Coros) :=
  match co.running with
  | .idle => none
  | .acceptor => co.acceptStep c
  | .session sid viaAcceptor => co.sessionStep sid viaAcceptor w c

/-- `coroutine_handle::resume`. -/
def resume (h : Handle) (co : Coros) : Option Coros :=
  match h with
  | .accept n =>
    if co.acceptor = .susp n then some { co with acceptor := .retry, running := .acceptor } else none
  | .echo sid frame => (co.sessions sid).bind fun s =>
    match s.pc with
    | .susp o =>
      if s.frame = frame then some
        { co.setSession sid (some { s with pc := .retry o }) with running := .session sid false }
      else none
    | _ => none

/-- One step of a child process. -/
def env (c : Choice) (co : Coros) : Option Coros :=
  match c with
  | .child pid => (co.procs.childStep pid).map fun pr => { co with procs := pr }
  | _ => none

end Coros

/-- The server of `app/main.cc`. -/
def server : Program Handle Coros Choice where
  resume := Coros.resume
  step := Coros.step
  env := Coros.env

/-- A state of the server process. -/
abbrev State := Server Handle Coros

/-- One step of the server process. -/
def State.step (S : State) (l : Label Choice) : Option State := Server.step server S l

/-- The state in which `main` begins, without the descriptors that are open then. -/
def State.start : State := Server.start Coros.start

/-- The state in which `main` constructs the listening `Socket`, the descriptors of `opened` being
open: that of the epoll instance, and those that the process has inherited. -/
def State.startWith (opened : Finset ℕ) : State := { State.start with w := .before opened }

theorem State.startWith_empty : State.startWith ∅ = State.start := by
  simp [State.startWith, State.start, Server.start, World.before, World.initial]

/-- The operation in which a session is suspended. -/
def Pc.suspended : Pc → Option Op
  | .susp o => some o
  | _ => none

theorem Pc.mem_suspended {pc : Pc} {o : Op} : o ∈ pc.suspended ↔ pc = .susp o := by
  cases pc <;> simp [Pc.suspended, eq_comm]

/-- The coroutine `h` is suspended in an operation of direction `d` on the object at `p`. -/
def Coros.SuspendedOn (co : Coros) (h : Handle) (d : Dir) (p : Addr) : Prop :=
  match h with
  | .accept n => co.acceptor = .susp n ∧ d = .read ∧ p = co.listen
  | .echo sid frame => ∃ s o, co.sessions sid = some s ∧ s.frame = frame ∧ s.pc = .susp o ∧
      o.dir = d ∧ s.ptr o.role = some p

instance (co : Coros) (h : Handle) (d : Dir) (p : Addr) : Decidable (co.SuspendedOn h d p) :=
  match h with
  | .accept n => inferInstanceAs (Decidable (co.acceptor = .susp n ∧ d = .read ∧ p = co.listen))
  | .echo sid frame =>
    decidable_of_iff (∃ s ∈ co.sessions sid, ∃ o ∈ s.pc.suspended, s.frame = frame ∧ o.dir = d ∧
        s.ptr o.role = some p) <| by
      constructor
      · rintro ⟨s, hs, o, ho, hk, hrest⟩
        exact ⟨s, o, hs, hk, Pc.mem_suspended.1 ho, hrest⟩
      · rintro ⟨s, o, hs, hk, hpc, hrest⟩
        exact ⟨s, hs, o, Pc.mem_suspended.2 hpc, hk, hrest⟩

/-- Where the running session is. -/
def Coros.runningPc (co : Coros) : Option Pc :=
  match co.running with
  | .session sid _ => (co.sessions sid).map Session.pc
  | _ => none

/-! ### Parts of runs

Labels for runs that are written out: the listening `Socket` is at address 1 with descriptor 3. -/

/-- `main`, until the `accept` coroutine waits for a connection. -/
def listenRun : List (Label Choice) := [.co (.boot 1 3 true true), .co (.sys .wouldBlock)]

/-- A connection arrives and is accepted as the descriptor `fd`, with its `Socket` at `p`; its
session and the `accept` coroutine then wait. -/
def connectRun (p : Addr) (fd : Fd) : List (Label Choice) :=
  [.epollWait [(3, EPOLLIN)], .next, .co (.opened fd), .co (.object p true), .co (.sys .wouldBlock),
    .co (.sys .wouldBlock), .next]

/-- `PipedAsyncCommand::init`, with the objects of the child at `q`, `q + 1`, `q + 2` and its
descriptors from `fd` on; then `writepipe` and `finishwriting`. -/
def spawnRun (q : Addr) (fd : Fd) (pid : Pid) : List (Label Choice) :=
  [.co (.pipe fd (fd + 1)), .co (.pipe (fd + 2) (fd + 3)), .co (.object q true),
    .co (.object (q + 1) true), .co (.forked pid), .co (.opened (fd + 4)),
    .co (.object (q + 2) true), .co .go, .co (.sys (.count 1)), .co .go]

/-- The end of a batch: the flush loop over `n` objects. -/
def flushRun (n : ℕ) : List (Label Choice) := .next :: List.replicate n (.modify true) ++ [.next]

/-- A connection at address 2 has received one byte, has started its child and waits for the child's
output at address 3, with the descriptor 7. -/
def readRun : List (Label Choice) :=
  listenRun ++ connectRun 2 4 ++ flushRun 2 ++
    [.epollWait [(4, EPOLLIN)], .next, .co (.sys (.bytes [97] []))] ++ spawnRun 3 5 100 ++
    [.co (.sys .wouldBlock), .next] ++ flushRun 3

end EpollCoroutine
