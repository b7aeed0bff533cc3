import EpollCoroutine.Epoll.Run
import EpollCoroutine.Echo.Data

/-!
# A session: `client_socket_handler` and `echo_loop`

The coroutines of one connection as a step function. A step runs from one system call to the next;
its label, a `Choice`, gives the outcome of that call, and its calls on the shared state are listed
in the order of the source.

* `Op`: the operations that can suspend, each on the object of a `Role` and in a direction. `call`
  is `await_suspend`, `retry` is `await_resume` after a suspension; the temporary operation is
  destroyed at the end of the statement, which is the `unwatch`.
* `Pc`: the places between system calls. `pipeW` to `closeEnds` are `PipedAsyncCommand::init`,
  `cleanup` is the destruction of the `PipedAsyncCommand` and `done` the end of `echo_loop`. The
  flag of the last two says that an exception was thrown, which the promise swallows: `echo_loop`
  then ends without a result and `client_socket_handler` reads an uninitialised one.
* `Session.step`: one step.

A failing system call finds a null error storage in every operation, so the process exits
(`rs_error_bubble_or_exit`); after a suspension `await_resume` ignores the failure. Data that no
branch depends on, such as how much `writepipe` has written, is left out.
-/

namespace EpollCoroutine

/-- A coroutine handle: that of the suspended `Socket::accept`, or of an `echo_loop`. -/
inductive Handle
  | accept (n : ℕ)
  | echo (sid frame : ℕ)
  deriving DecidableEq, Repr

/-- The objects of a session: the `Socket`, and the three descriptors of its
`PipedAsyncCommand`. -/
inductive Role
  | socket
  | readEnd
  | writeEnd
  | processWait
  deriving DecidableEq, Repr

/-- The operations of a session. -/
inductive Op
  | recv
  | writepipe
  | readpipe
  | send
  | whaitforprocesstodie
  deriving DecidableEq, Repr

namespace Op

/-- The object an operation works on. -/
def role : Op → Role
  | .recv | .send => .socket
  | .writepipe => .writeEnd
  | .readpipe => .readEnd
  | .whaitforprocesstodie => .processWait

/-- Whether `suspend()` stores the coroutine in `coroRecv_` or in `coroSend_`. -/
def dir : Op → Dir
  | .writepipe | .send => .write
  | .recv | .readpipe | .whaitforprocesstodie => .read

/-- Whether the constructor calls `watchRead` or `watchWrite`. -/
def watches : Op → Bool
  | .whaitforprocesstodie => false
  | _ => true

end Op

/-- The result of the system call of an operation. A read comes with the memory that follows its
buffer. A write that fails with `EPIPE` kills the process by `SIGPIPE`, which nothing here catches;
that is not a result. -/
inductive Sys
  | bytes (l after : Bytes)
  | count (n : ℕ)
  | reaped
  | alive
  | wouldBlock
  | failed
  deriving DecidableEq

namespace Sys

/-- The call has returned a value. -/
def completes : Sys → Bool
  | .bytes _ _ | .count _ | .reaped => true
  | _ => false

end Sys

namespace Op

/-- The results that the system call of an operation can have. -/
def accepts : Op → Sys → Bool
  | .recv, .bytes l _ => l.length ≤ buffSize - 1
  | .readpipe, .bytes l _ => l.length ≤ buffSize
  | .writepipe, .count _ | .send, .count _ => true
  | .whaitforprocesstodie, .reaped | .whaitforprocesstodie, .alive => true
  | .whaitforprocesstodie, .wouldBlock => false
  | _, .wouldBlock | _, .failed => true
  | _, _ => false

/-- Whether `await_suspend` suspends: `EAGAIN`, which `DyingProcessWaitOperation` reports whenever
the process was not reaped. -/
def blocks : Op → Sys → Bool
  | .whaitforprocesstodie, r => !r.completes
  | _, r => r = .wouldBlock

end Op

/-- Where a session is. -/
inductive Pc
  | call (o : Op)
  | susp (o : Op)
  | retry (o : Op)
  | pipeW
  | pipeR
  | attachRd
  | attachWr
  | fork
  | pidfdOpen
  | attachPw (fd : Fd)
  | closeEnds
  | finishwriting
  | finishReading
  | cleanup (thrown : Bool)
  | done (thrown : Bool)
  deriving DecidableEq, Repr

/-- A connection and its coroutines. Each call of `echo_loop` has a number of its own, `frame`;
`opNo` counts the suspensions. The code reads neither. -/
structure Session where
  frame : ℕ
  pc : Pc
  opNo : ℕ
  ptr : Role → Option Addr
  vars : EchoVars
  mFdW : Fd × Fd
  mFdR : Fd × Fd
  forkedProcesId : Pid

/-- The outcome of a system call: of an operation, of `accept` or `pidfd_open`, of `pipe`, of
`fork`; where a new object is placed and whether `epoll_ctl` accepts it; the value of an
uninitialised `bool`; a step of a child process. -/
inductive Choice
  | boot (p : Addr) (fd : Fd) (bound ok : Bool)
  | sys (r : Sys)
  | opened (fd : Fd)
  | pipe (r w : Fd)
  | forked (pid : Pid)
  | failed
  | object (p : Addr) (ok : Bool)
  | go
  | result (run : Bool)
  | child (pid : Pid)

/-- What becomes of a session. -/
inductive After
  | running (s : Session)
  | again (s : Session)
  | suspended (s : Session)
  | ended
  | exited

/-- What a step does to the processes. -/
inductive Effect
  | none
  | forked (pid : Pid)
  | reaped (pid : Pid)
  | killed (pid : Pid)
  | finishedWriting
  deriving DecidableEq

/-- One step of a session. -/
structure Act where
  calls : List (Call Handle)
  effect : Effect := .none
  after : After

/-- The pipe to the child's standard input, created by the call `frame` of `echo_loop`. -/
def wPipe (frame : ℕ) : ℕ := 2 * frame

/-- The pipe from the child's standard output. -/
def rPipe (frame : ℕ) : ℕ := 2 * frame + 1

namespace Session

/-- A new connection on the `Socket` at `p`. -/
def start (frame : ℕ) (p : Addr) : Session where
  frame := frame
  pc := .call .recv
  opNo := 0
  ptr := Function.update (fun _ => none) .socket (some p)
  vars := {}
  mFdW := (-1, -1)
  mFdR := (-1, -1)
  forkedProcesId := -1

variable (s : Session)

/-- Set or drop the object of a role. -/
def setPtr (r : Role) (p : Option Addr) : Session := { s with ptr := Function.update s.ptr r p }

/-- `asyncecho->doneReading()`. -/
def doneReading (w : World Handle) : Bool :=
  match (s.ptr .readEnd).bind w.heap with
  | some a => a.doneRecv
  | none => false

/-- The head of the send loop, and what follows it. -/
def sendHead : Session :=
  { s with pc := if s.vars.sendMore then .call .send else .call .whaitforprocesstodie }

/-- The read loop after the result of `readpipe`. -/
def afterRead (r : ReadResult) (after : Bytes) (doneReading : Bool) : Session :=
  match s.vars.readBody r after with
  | none => { s with pc := .cleanup true }
  | some v =>
    { s with
      vars := v
      pc := if v.readAgain r doneReading then .call .readpipe else .finishReading }

/-- What follows `co_await` of an operation with the result `r`. -/
def complete (o : Op) (r : Sys) (doneReading : Bool) : Session :=
  match o with
  | .recv =>
    match r with
    | .bytes l _ => { s with pc := .pipeW, vars := .received l }
    | _ => { s with pc := .done false }
  | .writepipe => { s with pc := .finishwriting }
  | .readpipe =>
    match r with
    | .bytes l after => s.afterRead (.bytes l) after doneReading
    | _ => s.afterRead .failed [] doneReading
  | .send =>
    match r with
    | .count n => { s with vars := s.vars.sent (some n) }.sendHead
    | _ => { s with vars := s.vars.sent none }.sendHead
  | .whaitforprocesstodie => { s with pc := .cleanup false }

/-- `waitpid` reaps the child, or the child is killed. -/
def opEffect (o : Op) (r : Sys) : Effect :=
  match o with
  | .whaitforprocesstodie =>
    if r.completes then .reaped s.forkedProcesId else .killed s.forkedProcesId
  | _ => .none

/-- The constructor of an operation. -/
def watchCalls (o : Op) (p : Addr) : List (Call Handle) :=
  if o.watches then [.watch o.dir p] else []

/-- `await_suspend`: the operation completes, suspends, or makes the process exit. -/
def await (sid : ℕ) (o : Op) (p : Addr) (r : Sys) (doneReading : Bool) : Act :=
  if r.completes then
    ⟨watchCalls o p ++ [.unwatch o.dir p], s.opEffect o r, .running (s.complete o r doneReading)⟩
  else if o.blocks r then
    ⟨watchCalls o p ++ [.suspend o.dir p (.echo sid s.frame)], s.opEffect o r,
      .suspended { s with pc := .susp o, opNo := s.opNo + 1 }⟩
  else ⟨watchCalls o p, .none, .exited⟩

/-- A system call on the descriptor `-1` fails with `EBADF`. -/
def allows (w : World Handle) (o : Op) (p : Addr) (r : Sys) : Bool :=
  o.accepts r &&
    (o = .whaitforprocesstodie || r = .failed || (w.heap p).all fun a => a.fd ≠ -1)

/-- `~PipedAsyncCommand`, one descriptor at a time. -/
def cleanup (thrown : Bool) : Act :=
  match s.ptr .readEnd, s.ptr .processWait, s.ptr .writeEnd with
  | some p, _, _ => ⟨[.destroy p], .none, .running (s.setPtr .readEnd none)⟩
  | none, some p, _ => ⟨[.destroy p], .none, .running (s.setPtr .processWait none)⟩
  | none, none, some p => ⟨[.destroy p], .none, .running (s.setPtr .writeEnd none)⟩
  | none, none, none => ⟨[], .none, .running { s with pc := .done thrown }⟩

/-- `socket.reset(nullptr)`. -/
def close : Option Act := (s.ptr .socket).map fun p => ⟨[.destroy p], .none, .ended⟩

/-- One step of a session; `fresh` is the number of the next call of `echo_loop`. -/
def step (w : World Handle) (sid fresh : ℕ) (s : Session) (c : Choice) : Option Act :=
  match s.pc, c with
  | .call o, .sys r => (s.ptr o.role).bind fun p =>
      if allows w o p r then some (s.await sid o p r (s.doneReading w)) else none
  | .retry o, .sys r => (s.ptr o.role).bind fun p =>
      if allows w o p r then
        some ⟨[.unwatch o.dir p], s.opEffect o r, .running (s.complete o r (s.doneReading w))⟩
      else none
  | .pipeW, .pipe r wr => some
      ⟨[.openFd r (.pipeEnd (wPipe s.frame) .read), .openFd wr (.pipeEnd (wPipe s.frame) .write)],
        .none, .running { s with mFdW := (r, wr), pc := .pipeR }⟩
  | .pipeW, .failed => some ⟨[], .none, .running { s with pc := .done false }⟩
  | .pipeR, .pipe r wr => some
      ⟨[.openFd r (.pipeEnd (rPipe s.frame) .read), .openFd wr (.pipeEnd (rPipe s.frame) .write)],
        .none, .running { s with mFdR := (r, wr), pc := .attachRd }⟩
  | .pipeR, .failed => some
      ⟨[.closeFd s.mFdW.2, .closeFd s.mFdW.1], .none, .running { s with pc := .done false }⟩
  | .attachRd, .object p ok => some
      ⟨[.create p s.mFdR.1, .attachReadonly p ok], .none,
        .running { s.setPtr .readEnd (some p) with
          pc := if w.addSucceeds s.mFdR.1 ok then .attachWr else .cleanup true }⟩
  | .attachWr, .object p ok => some
      ⟨[.create p s.mFdW.2, .attachWriteOnly p ok], .none,
        .running { s.setPtr .writeEnd (some p) with pc := .fork }⟩
  | .fork, .forked pid => some
      ⟨[], .forked pid, .running { s with forkedProcesId := pid, pc := .pidfdOpen }⟩
  | .fork, .failed => some
      ⟨[.closeFd s.mFdW.1, .closeFd s.mFdR.2], .none, .running { s with pc := .cleanup false }⟩
  | .pidfdOpen, .opened fd => some
      ⟨[.openFd fd (.pidfd s.forkedProcesId)], .none, .running { s with pc := .attachPw fd }⟩
  | .pidfdOpen, .failed => some ⟨[], .none, .running { s with pc := .cleanup false }⟩
  | .attachPw fd, .object p ok => some
      ⟨[.create p fd, .attachReadonly p ok], .none,
        .running { s.setPtr .processWait (some p) with
          pc := if w.addSucceeds fd ok then .closeEnds else .cleanup true }⟩
  | .closeEnds, .go => some
      ⟨[.closeFd s.mFdW.1, .closeFd s.mFdR.2], .none, .running { s with pc := .call .writepipe }⟩
  | .finishwriting, .go => (s.ptr .writeEnd).map fun p =>
      ⟨[.unwatch .write p, .destroy p], .finishedWriting,
        .running { s.setPtr .writeEnd none with pc := .call .readpipe }⟩
  | .finishReading, .go => (s.ptr .readEnd).map fun p =>
      ⟨[.unwatch .read p, .destroy p], .none,
        .running { s.setPtr .readEnd none with vars := s.vars.stripFirstLine }.sendHead⟩
  | .cleanup thrown, .go => some (s.cleanup thrown)
  | .done false, .go => s.close
  | .done true, .result false => s.close
  | .done true, .result true => some
      ⟨[], .none, .again { s with frame := fresh, pc := .call .recv, vars := {} }⟩
  | _, _ => none

end Session

end EpollCoroutine
