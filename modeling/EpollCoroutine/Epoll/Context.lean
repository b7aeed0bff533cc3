import EpollCoroutine.Lib.OrdSet
import EpollCoroutine.Epoll.Mask

/-!
# `AsyncFileDescriptor` and the bookkeeping of `IOContext`

The memory and kernel state that `include/async_file_desc.hh` and `src/io_context.cc` work on, and
their functions other than `IOContext::run`.

* `AsyncFd H`: an `AsyncFileDescriptor`; `H` is the type of coroutine handles. Objects are found
  through their address, as in the source, where both sets hold raw pointers. Each object also
  carries a number `oid` that no other object ever has, so that two objects that lived at one
  address can be told apart; the code never reads it.
* `World H`: the live objects, the two `std::set`s of `IOContext`, the epoll interest set of the
  kernel and the descriptor table of the server.
* `attach`, `attachReadonly`, `attachWriteOnly`, `watch`, `unwatch`, `detach`, `flushOne`: the
  `IOContext` functions; the outcome of a fallible `epoll_ctl` is a parameter `ok`.
* `Call`: the calls a coroutine makes on this state, which is all a coroutine can do to it.

A descriptor that is not open makes `epoll_ctl` fail whatever `ok` says (`EBADF`), a registered
one refuses `EPOLL_CTL_ADD` (`EEXIST`) and an unregistered one `EPOLL_CTL_MOD` and `EPOLL_CTL_DEL`
(`ENOENT`). `-1` is never open.
-/

namespace EpollCoroutine

/-- The address of an `AsyncFileDescriptor`. -/
abbrev Addr := ℕ

/-- A descriptor number, `-1` for none. -/
abbrev Fd := ℤ

/-- A process id. -/
abbrev Pid := ℤ

/-- An open file of the server, as far as the code tells files apart. A pipe has a read and a
write end; the epoll instance and what the process has inherited are `other`. -/
inductive File
  | other
  | listening
  | connection
  | pipeEnd (pipe : ℕ) (d : Dir)
  | pidfd (pid : Pid)
  deriving DecidableEq, Repr

/-- `AsyncFileDescriptor`. -/
structure AsyncFd (H : Type) where
  oid : ℕ
  fd : Fd
  ioState : Mask := 0#32
  ioNewState : Mask := 0#32
  coroRecv : Option H := none
  doneRecv : Bool := false
  coroSend : Option H := none

namespace AsyncFd

variable {H : Type}

/-- `coroRecv_` or `coroSend_`. -/
def coro (a : AsyncFd H) : Dir → Option H
  | .read => a.coroRecv
  | .write => a.coroSend

/-- Store a handle in `coroRecv_` or `coroSend_`. -/
def setCoro (a : AsyncFd H) (d : Dir) (h : H) : AsyncFd H :=
  match d with
  | .read => { a with coroRecv := some h }
  | .write => { a with coroSend := some h }

@[simp] theorem setCoro_fd (a : AsyncFd H) (d : Dir) (h : H) : (a.setCoro d h).fd = a.fd := by
  cases d <;> rfl

@[simp] theorem setCoro_oid (a : AsyncFd H) (d : Dir) (h : H) : (a.setCoro d h).oid = a.oid := by
  cases d <;> rfl

@[simp] theorem setCoro_ioState (a : AsyncFd H) (d : Dir) (h : H) :
    (a.setCoro d h).ioState = a.ioState := by
  cases d <;> rfl

@[simp] theorem setCoro_ioNewState (a : AsyncFd H) (d : Dir) (h : H) :
    (a.setCoro d h).ioNewState = a.ioNewState := by
  cases d <;> rfl

@[simp] theorem setCoro_doneRecv (a : AsyncFd H) (d : Dir) (h : H) :
    (a.setCoro d h).doneRecv = a.doneRecv := by
  cases d <;> rfl

theorem coro_setCoro (a : AsyncFd H) (d d' : Dir) (h : H) :
    (a.setCoro d h).coro d' = if d' = d then some h else a.coro d' := by
  cases d <;> cases d' <;> rfl

end AsyncFd

/-- A registration in the interest set: the mask and `data.ptr`. -/
structure Interest where
  events : Mask
  ptr : Addr
  deriving DecidableEq

/-- The state shared by the server's objects and the kernel. -/
structure World (H : Type) where
  heap : Addr → Option (AsyncFd H)
  managedFd : OrdSet Addr
  processedSockets : OrdSet Addr
  interest : Fd → Option Interest
  table : Fd → Option File
  nextOid : ℕ

namespace World

variable {H : Type} (w : World H)

/-- Nothing constructed, nothing open. What is open before the listening `Socket` is constructed,
the epoll instance and the standard streams, is left out here; `World.before` has it. -/
def initial : World H := ⟨fun _ => none, .empty, .empty, fun _ => none, fun _ => none, 0⟩

/-- Nothing constructed, and the descriptors of `opened` open: that of the epoll instance, and those
that the process has inherited. -/
def before (opened : Finset ℕ) : World H :=
  { initial with table := fun fd => if 0 ≤ fd ∧ fd.toNat ∈ opened then some .other else none }

/-- Change the object at `p`. -/
def modifyAt (p : Addr) (f : AsyncFd H → AsyncFd H) : World H :=
  { w with heap := Function.update w.heap p ((w.heap p).map f) }

/-! ### The functions of `IOContext` -/

/-- Whether `epoll_ctl(EPOLL_CTL_ADD)` on `fd` succeeds. -/
def addSucceeds (fd : Fd) (ok : Bool) : Bool := ok && (w.table fd).isSome && (w.interest fd).isNone

/-- Whether `epoll_ctl(EPOLL_CTL_MOD)` on `fd` succeeds. -/
def modSucceeds (fd : Fd) (ok : Bool) : Bool := ok && (w.table fd).isSome && (w.interest fd).isSome

/-- The common end of the three attach functions: `io_state_` and `managed_fd` are updated. -/
def recordAttached (m : Mask) (p : Addr) : World H :=
  { w.modifyAt p fun a => { a with ioState := m } with managedFd := w.managedFd.insert p }

/-- `epoll_ctl(EPOLL_CTL_ADD)`: a failing call leaves the kernel unchanged. -/
def epollAdd (m : Mask) (p : Addr) (fd : Fd) (ok : Bool) : World H :=
  if w.addSucceeds fd ok then { w with interest := Function.update w.interest fd (some ⟨m, p⟩) }
  else w

/-- Register `p` with mask `m` and record it whether or not the kernel accepted. -/
def attachLogged (m : Mask) (p : Addr) (ok : Bool) : World H :=
  match w.heap p with
  | none => w
  | some a => (w.epollAdd m p a.fd ok).recordAttached m p

/-- `IOContext::attach`: a failing `epoll_ctl` is only logged. -/
def attach (p : Addr) (ok : Bool) : World H := w.attachLogged (EPOLLIN ||| EPOLLET) p ok

/-- `IOContext::attachWriteOnly`: a failing `epoll_ctl` is only logged. -/
def attachWriteOnly (p : Addr) (ok : Bool) : World H := w.attachLogged (EPOLLOUT ||| EPOLLET) p ok

/-- Whether `IOContext::attachReadonly` returns; otherwise it throws. -/
def attachReadonlyReturns (p : Addr) (ok : Bool) : Bool :=
  match w.heap p with
  | none => false
  | some a => w.addSucceeds a.fd ok

/-- `IOContext::attachReadonly`: when `epoll_ctl` fails it throws before recording anything. -/
def attachReadonly (p : Addr) (ok : Bool) : World H :=
  if w.attachReadonlyReturns p ok then w.attachLogged (EPOLLIN ||| EPOLLET) p ok else w

/-- `watchRead` and `watchWrite`: the pending mask is computed from the installed one. -/
def watch (d : Dir) (p : Addr) : World H :=
  { w.modifyAt p fun a => { a with ioNewState := a.ioState ||| d.bit } with
    processedSockets := w.processedSockets.insert p }

/-- `unwatchRead` and `unwatchWrite`. -/
def unwatch (d : Dir) (p : Addr) : World H :=
  { w.modifyAt p fun a => { a with ioNewState := a.ioState &&& ~~~d.bit } with
    processedSockets := w.processedSockets.insert p }

/-- `IOContext::watchRead`. -/
def watchRead (p : Addr) : World H := w.watch .read p
/-- `IOContext::unwatchRead`. -/
def unwatchRead (p : Addr) : World H := w.unwatch .read p
/-- `IOContext::watchWrite`. -/
def watchWrite (p : Addr) : World H := w.watch .write p
/-- `IOContext::unwatchWrite`. -/
def unwatchWrite (p : Addr) : World H := w.unwatch .write p

/-- `IOContext::detach`: `EPOLL_CTL_DEL`, then both sets. -/
def detach (p : Addr) (fd : Fd) : World H :=
  { w with
    interest := if (w.table fd).isSome then Function.update w.interest fd none else w.interest
    processedSockets := w.processedSockets.erase p
    managedFd := w.managedFd.erase p }

/-- One iteration of the loop over `processedSockets` at the end of `run`. `io_state_` is updated
also when the kernel refused. -/
def flushOne (p : Addr) (a : AsyncFd H) (ok : Bool) : World H :=
  if a.ioState = a.ioNewState then w
  else
    { w.modifyAt p fun a => { a with ioState := a.ioNewState } with
      interest :=
        if w.modSucceeds a.fd ok then Function.update w.interest a.fd (some ⟨a.ioNewState, p⟩)
        else w.interest }

/-! ### Construction, destruction, descriptors -/

/-- `AsyncFileDescriptor(fd)` constructed at `p`. -/
def create (p : Addr) (fd : Fd) : World H :=
  { w with
    heap := Function.update w.heap p (some { oid := w.nextOid, fd := fd })
    nextOid := w.nextOid + 1 }

/-- `close(fd)`. Closing drops a registration too; the code only closes registered descriptors
after `detach`. -/
def closeFd (fd : Fd) : World H :=
  { w with
    table := Function.update w.table fd none
    interest := Function.update w.interest fd none }

/-- A system call gives the free number `fd` to the file `f`. -/
def openFd (fd : Fd) (f : File) : World H :=
  { w with table := Function.update w.table fd (some f) }

/-- The storage of the object at `p` is released. -/
def free (p : Addr) : World H := { w with heap := Function.update w.heap p none }

/-- `~AsyncFileDescriptor`: nothing but the storage goes when `fd_` is `-1`. -/
def destroy (p : Addr) : World H :=
  match w.heap p with
  | none => w
  | some a => if a.fd = -1 then w.free p else ((w.detach p a.fd).closeFd a.fd).free p

/-- An operation's `suspend()`: the awaiting coroutine is stored in the descriptor. -/
def suspend (d : Dir) (p : Addr) (h : H) : World H := w.modifyAt p fun a => a.setCoro d h

/-! ### What each function leaves at an address -/

section Fields

variable {w}

theorem modifyAt_heap (p q : Addr) (f : AsyncFd H → AsyncFd H) :
    (w.modifyAt p f).heap q = if q = p then (w.heap p).map f else w.heap q := by
  simp [modifyAt, Function.update_apply]

/-- The kernel part of an attach, seen from its fields. -/
theorem epollAdd_heap (m : Mask) (p : Addr) (fd : Fd) (ok : Bool) :
    (w.epollAdd m p fd ok).heap = w.heap := by
  unfold epollAdd; split_ifs <;> rfl

theorem epollAdd_table (m : Mask) (p : Addr) (fd : Fd) (ok : Bool) :
    (w.epollAdd m p fd ok).table = w.table := by
  unfold epollAdd; split_ifs <;> rfl

theorem epollAdd_managedFd (m : Mask) (p : Addr) (fd : Fd) (ok : Bool) :
    (w.epollAdd m p fd ok).managedFd = w.managedFd := by
  unfold epollAdd; split_ifs <;> rfl

theorem epollAdd_processedSockets (m : Mask) (p : Addr) (fd : Fd) (ok : Bool) :
    (w.epollAdd m p fd ok).processedSockets = w.processedSockets := by
  unfold epollAdd; split_ifs <;> rfl

theorem epollAdd_interest (m : Mask) (p : Addr) (fd : Fd) (ok : Bool) :
    (w.epollAdd m p fd ok).interest =
      if w.addSucceeds fd ok then Function.update w.interest fd (some ⟨m, p⟩) else w.interest := by
  unfold epollAdd; split_ifs <;> rfl

/-- `attachLogged` on a live object. -/
theorem attachLogged_of_live {p : Addr} {a : AsyncFd H} (ha : w.heap p = some a) (m : Mask)
    (ok : Bool) : w.attachLogged m p ok = (w.epollAdd m p a.fd ok).recordAttached m p := by
  simp [attachLogged, ha]

theorem destroy_of_live {p : Addr} {a : AsyncFd H} (ha : w.heap p = some a) (hfd : a.fd ≠ -1) :
    w.destroy p = ((w.detach p a.fd).closeFd a.fd).free p := by
  simp [destroy, ha, hfd]

theorem destroy_of_invalid {p : Addr} {a : AsyncFd H} (ha : w.heap p = some a) (hfd : a.fd = -1) :
    w.destroy p = w.free p := by
  simp [destroy, ha, hfd]

theorem destroy_interest {p : Addr} {a : AsyncFd H} (ha : w.heap p = some a) (hfd : a.fd ≠ -1) :
    (w.destroy p).interest = Function.update w.interest a.fd none := by
  rw [destroy_of_live ha hfd]
  simp only [free, closeFd, detach]
  split_ifs
  · rw [Function.update_idem]
  · rfl

theorem destroy_table {p : Addr} {a : AsyncFd H} (ha : w.heap p = some a) (hfd : a.fd ≠ -1) :
    (w.destroy p).table = Function.update w.table a.fd none := by
  rw [destroy_of_live ha hfd]; rfl

theorem destroy_managedFd {p : Addr} {a : AsyncFd H} (ha : w.heap p = some a) (hfd : a.fd ≠ -1) :
    (w.destroy p).managedFd = w.managedFd.erase p := by
  rw [destroy_of_live ha hfd]; rfl

theorem destroy_processedSockets {p : Addr} {a : AsyncFd H} (ha : w.heap p = some a)
    (hfd : a.fd ≠ -1) : (w.destroy p).processedSockets = w.processedSockets.erase p := by
  rw [destroy_of_live ha hfd]; rfl

theorem destroy_heap (p q : Addr) : (w.destroy p).heap q = if q = p then none else w.heap q := by
  unfold destroy
  split
  · rename_i h
    split_ifs with hq
    · rw [hq, h]
    · rfl
  · split_ifs <;> simp_all [free, closeFd, detach]

end Fields

end World

/-! ### Calls -/

/-- What a coroutine can do to the shared state. -/
inductive Call (H : Type)
  | create (p : Addr) (fd : Fd)
  | attach (p : Addr) (ok : Bool)
  | attachReadonly (p : Addr) (ok : Bool)
  | attachWriteOnly (p : Addr) (ok : Bool)
  | watch (d : Dir) (p : Addr)
  | unwatch (d : Dir) (p : Addr)
  | suspend (d : Dir) (p : Addr) (h : H)
  | destroy (p : Addr)
  | openFd (fd : Fd) (f : File)
  | closeFd (fd : Fd)

namespace Call

variable {H : Type}

/-- The effect of a call. -/
def apply : Call H → World H → World H
  | .create p fd, w => w.create p fd
  | .attach p ok, w => w.attach p ok
  | .attachReadonly p ok, w => w.attachReadonly p ok
  | .attachWriteOnly p ok, w => w.attachWriteOnly p ok
  | .watch d p, w => w.watch d p
  | .unwatch d p, w => w.unwatch d p
  | .suspend d p h, w => w.suspend d p h
  | .destroy p, w => w.destroy p
  | .openFd fd f, w => w.openFd fd f
  | .closeFd fd, w => w.closeFd fd

/-- Objects are constructed in free storage and used while they live; the kernel hands out free
nonnegative descriptor numbers. -/
def enabled : Call H → World H → Bool
  | .create p _, w => (w.heap p).isNone
  | .openFd fd _, w => (w.table fd).isNone && decide (0 ≤ fd)
  | .closeFd _, _ => true
  | .attach p _, w => (w.heap p).isSome
  | .attachReadonly p _, w => (w.heap p).isSome
  | .attachWriteOnly p _, w => (w.heap p).isSome
  | .watch _ p, w => (w.heap p).isSome
  | .unwatch _ p, w => (w.heap p).isSome
  | .suspend _ p _, w => (w.heap p).isSome
  | .destroy p, w => (w.heap p).isSome

/-- The calls of a list in order, as long as they are enabled. -/
def applyAll : List (Call H) → World H → Option (World H)
  | [], w => some w
  | c :: cs, w => if c.enabled w then applyAll cs (c.apply w) else none

@[simp] theorem applyAll_nil (w : World H) : applyAll [] w = some w := rfl

theorem applyAll_cons (c : Call H) (cs : List (Call H)) (w : World H) :
    applyAll (c :: cs) w = if c.enabled w then applyAll cs (c.apply w) else none := rfl

/-- What every enabled call preserves, every list of calls preserves. -/
theorem applyAll_inv {I : World H → Prop} {cs : List (Call H)} {w w' : World H}
    (hstep : ∀ c ∈ cs, ∀ w, c.enabled w = true → I w → I (c.apply w))
    (h : applyAll cs w = some w') (h0 : I w) : I w' := by
  induction cs generalizing w with
  | nil => cases h; exact h0
  | cons c cs ih =>
    rw [applyAll_cons] at h
    split_ifs at h with hc
    exact ih (fun c' hc' => hstep c' (List.mem_cons_of_mem _ hc')) h
      (hstep c List.mem_cons_self w hc h0)

end Call

end EpollCoroutine
