import Mathlib.Tactic

/-!
# `BlockSyscall`

The awaiter that every asynchronous system call of `include/block_syscall.hh` derives from, and
`rs_error_bubble_or_exit`.

* `SysRet`: what `syscall()` leaves behind, the return value and `errno`.
* `Operation.syscall`: the derived classes, as functions of what the kernel returns.
* `BlockSyscall.awaitSuspend`, `BlockSyscall.awaitResume`: the two halves of the awaiter. `coAwait`
  puts them together: the first call, and after a suspension the call made by the first resumption.
* `yields_first_ready_iff`: when `co_await` hides a would-block.
* `reports_alike_iff`: when an error is reported in the same way on both paths.
-/

namespace EpollCoroutine

/-- `EAGAIN`. -/
def EAGAIN : ℕ := 11
/-- `EWOULDBLOCK`, the same number on Linux. -/
def EWOULDBLOCK : ℕ := 11

/-- The return value of a system call and the `errno` that goes with it. -/
structure SysRet where
  ret : ℤ
  errno : ℕ
  deriving DecidableEq

namespace SysRet

/-- The call has failed. -/
def failed (r : SysRet) : Bool := r.ret = -1

/-- The call has failed because it would block. -/
def wouldBlock (r : SysRet) : Bool := r.ret = -1 && (r.errno = EAGAIN || r.errno = EWOULDBLOCK)

/-- The call has failed with `e`. -/
def error (e : ℕ) : SysRet := ⟨-1, e⟩

end SysRet

/-- The classes derived from `BlockSyscall`. -/
inductive Operation
  | socketAccept
  | socketRecv
  | socketSend
  | fileRead
  | fileWrite
  | dyingProcessWait (pid : ℤ)
  | popenFileRead
  deriving DecidableEq

/-- `syscall()` of the derived class, when the kernel returns `r`: `recv` counts two terminating
zeros, `waitpid` turns a child that is not dead, as well as an error, into `EAGAIN`, and the loop of
`fgets` in `PopenFileReadOperation` goes on after an error and, once it has ended, returns `10`. -/
def Operation.syscall : Operation → SysRet → SysRet
  | .socketAccept, r | .socketSend, r | .fileRead, r | .fileWrite, r => r
  | .socketRecv, r => if r.ret = -1 then r else { r with ret := r.ret + 2 }
  | .dyingProcessWait _, r => if r.ret = 0 ∨ r.ret = -1 then ⟨-1, EAGAIN⟩ else r
  | .popenFileRead, r => ⟨10, r.errno⟩

/-- The category of a `std::error_condition`. -/
inductive ErrorCategory
  | generic
  | other (n : ℕ)
  deriving DecidableEq

/-- `std::error_condition`. -/
structure ErrorCondition where
  value : ℕ
  category : ErrorCategory
  deriving DecidableEq

/-- `rs_errno_to_condition`. -/
def rsErrnoToCondition (e : ℕ) : ErrorCondition := ⟨e, .generic⟩

/-- What `await_suspend` does to the awaiting coroutine. -/
inductive Suspension
  | suspends
  | continues
  | exits (code : ℕ)
  deriving DecidableEq

/-- `rs_error_bubble_or_exit`: the new content of the storage, or the exit code of the process. -/
def rsErrorBubbleOrExit (c : ErrorCondition) :
    Option ErrorCondition → Option ErrorCondition × Suspension
  | some _ => (some c, .continues)
  | none => (none, .exits c.value)

/-- An awaiter. The storage is what `errorConditionStorage_` points to, `none` for a null pointer.
-/
structure BlockSyscall where
  haveSuspend : Bool := false
  errorConditionStorage : Option ErrorCondition
  returnValue : SysRet

namespace BlockSyscall

/-- `await_suspend`, with the result of `syscall()`. -/
def awaitSuspend (storage : Option ErrorCondition) (r : SysRet) : BlockSyscall × Suspension :=
  if r.wouldBlock then (⟨true, storage, r⟩, .suspends)
  else if r.failed then
    let (storage', s) := rsErrorBubbleOrExit (rsErrnoToCondition r.errno) storage
    (⟨false, storage', r⟩, s)
  else (⟨false, storage, r⟩, .continues)

/-- `await_resume`, with the result of `syscall()` if it is called. -/
def awaitResume (b : BlockSyscall) (r : SysRet) : BlockSyscall :=
  if b.haveSuspend then { b with returnValue := r } else b

end BlockSyscall

/-- How a `co_await` ends: with a value, which comes from a certain result of `syscall()`, or with
the exit of the process. -/
inductive Ending
  | yields (r : SysRet)
  | exits (code : ℕ)
  deriving DecidableEq

/-- `co_await` of an operation whose successive calls of `syscall()` give `rs`, once the coroutine
has been resumed if it was suspended: the storage and how it ends. -/
def coAwait (storage : Option ErrorCondition) (rs : ℕ → SysRet) : Option ErrorCondition × Ending :=
  match BlockSyscall.awaitSuspend storage (rs 0) with
  | (b, .exits code) => (b.errorConditionStorage, .exits code)
  | (b, _) =>
    ((b.awaitResume (rs 1)).errorConditionStorage, .yields (b.awaitResume (rs 1)).returnValue)

/-! ### The cases of `co_await` -/

section Cases

variable {storage : Option ErrorCondition} {rs : ℕ → SysRet}

/-- A suspended operation yields whatever the next call returns. -/
theorem coAwait_of_wouldBlock (h : (rs 0).wouldBlock) :
    coAwait storage rs = (storage, .yields (rs 1)) := by
  simp [coAwait, BlockSyscall.awaitSuspend, h, BlockSyscall.awaitResume]

theorem coAwait_of_value (h : (rs 0).failed = false) :
    coAwait storage rs = (storage, .yields (rs 0)) := by
  have hwb : (rs 0).wouldBlock = false := by
    simp only [SysRet.failed, decide_eq_false_iff_not] at h
    simp [SysRet.wouldBlock, h]
  simp [coAwait, BlockSyscall.awaitSuspend, h, hwb, BlockSyscall.awaitResume]

/-- An error on the first try goes to the storage, or ends the process. -/
theorem coAwait_of_error (hwb : (rs 0).wouldBlock = false) (h : (rs 0).failed) :
    coAwait storage rs = match storage with
      | some _ => (some (rsErrnoToCondition (rs 0).errno), .yields (rs 0))
      | none => (none, .exits (rs 0).errno) := by
  cases storage <;>
    simp [coAwait, BlockSyscall.awaitSuspend, h, hwb, rsErrorBubbleOrExit, rsErrnoToCondition,
      BlockSyscall.awaitResume]

/-- What `co_await` yields is the result of the first call, or that of the second if the first would
block. -/
theorem coAwait_yields {r : SysRet} (h : (coAwait storage rs).2 = .yields r) :
    (r = rs 0 ∧ (rs 0).wouldBlock = false) ∨ (r = rs 1 ∧ (rs 0).wouldBlock) := by
  cases hwb : (rs 0).wouldBlock with
  | true =>
    rw [coAwait_of_wouldBlock hwb] at h
    cases h
    exact Or.inr ⟨rfl, rfl⟩
  | false =>
    left
    cases hf : (rs 0).failed with
    | false =>
      rw [coAwait_of_value hf] at h
      cases h
      exact ⟨rfl, rfl⟩
    | true =>
      rw [coAwait_of_error hwb hf] at h
      cases storage with
      | none => cases h
      | some c =>
        cases h
        exact ⟨rfl, rfl⟩

end Cases

/-! ### Hiding would-block -/

/-- What `co_await` yields is the first result of `syscall()` that is not a would-block. -/
def YieldsFirstReady (storage : Option ErrorCondition) (rs : ℕ → SysRet) : Prop :=
  ∀ r, (coAwait storage rs).2 = .yields r →
    ∃ n, (∀ i < n, (rs i).wouldBlock) ∧ (rs n).wouldBlock = false ∧ r = rs n

/-- **When a would-block is hidden.** For every operation, every storage and every sequence of
kernel results: `co_await` yields the first result that is not a would-block, exactly if the call
does not would-block both at first and when the coroutine is resumed. -/
theorem yields_first_ready_iff (op : Operation) (storage : Option ErrorCondition)
    (raw : ℕ → SysRet) :
    YieldsFirstReady storage (fun i => op.syscall (raw i)) ↔
      ((op.syscall (raw 0)).wouldBlock = false ∨ (op.syscall (raw 1)).wouldBlock = false) := by
  generalize hrs : (fun i => op.syscall (raw i)) = rs
  have h0 : op.syscall (raw 0) = rs 0 := congrFun hrs 0
  have h1 : op.syscall (raw 1) = rs 1 := congrFun hrs 1
  rw [h0, h1]
  constructor
  · intro h
    by_contra hboth
    simp only [not_or, Bool.not_eq_false] at hboth
    -- the second would-block is handed to the coroutine
    obtain ⟨n, -, hn, hr⟩ := h (rs 1) (by rw [coAwait_of_wouldBlock hboth.1])
    rw [← hr, hboth.2] at hn
    cases hn
  · intro h r hr
    rcases coAwait_yields hr with ⟨rfl, hwb⟩ | ⟨rfl, hwb⟩
    · exact ⟨0, by simp, hwb, rfl⟩
    · refine ⟨1, fun i hi => ?_, ?_, rfl⟩
      · have hi : i = 0 := by omega
        rw [hi]
        exact hwb
      · rcases h with h | h
        · rw [hwb] at h
          cases h
        · exact h

/-- A would-block reaches the coroutine: the process wait is woken, by whatever event, while the
child is still alive (`waitpid` gives `0` twice); the session goes on with `-1`. -/
theorem yields_wouldBlock :
    ¬ ∀ (op : Operation) (storage : Option ErrorCondition) (raw : ℕ → SysRet),
      YieldsFirstReady storage (fun i => op.syscall (raw i)) := by
  intro hall
  obtain ⟨n, -, hn, hr⟩ := hall (.dyingProcessWait 100) none
    (fun i => ⟨if i < 2 then 0 else 100, 0⟩)
    ⟨-1, EAGAIN⟩ (by decide)
  rw [← hr] at hn
  exact absurd hn (by decide)

/-! ### Reporting errors -/

/-- The effect that an error `e` should have. -/
def Reports (storage : Option ErrorCondition) (e : ℕ) (x : Option ErrorCondition × Ending) : Prop :=
  match storage with
  | some _ => x.1 = some (rsErrnoToCondition e) ∧ ∃ r, x.2 = .yields r ∧ r.ret = -1
  | none => x.2 = .exits e

/-- The system call of `op` fails with `e` on the first try, and whatever comes then. -/
def failsFirst (e : ℕ) (rest : ℕ → SysRet) : ℕ → SysRet
  | 0 => .error e
  | i + 1 => rest i

/-- The system call fails with `e` when the coroutine is resumed after a would-block. -/
def failsLater (e : ℕ) (rest : ℕ → SysRet) : ℕ → SysRet
  | 0 => .error EAGAIN
  | i + 1 => failsFirst e rest i

/-- The error is reported on both paths, whatever further calls would return. -/
def ReportsAlike (op : Operation) (storage : Option ErrorCondition) (e : ℕ) : Prop :=
  ∀ rest, Reports storage e (coAwait storage fun i => op.syscall (failsFirst e rest i)) ∧
    Reports storage e (coAwait storage fun i => op.syscall (failsLater e rest i))

/-- The operation hands an error of its system call on: all do but the process wait, and the read
of a `popen` stream. -/
def Operation.HandsOn (op : Operation) : Prop :=
  (∀ pid, op ≠ .dyingProcessWait pid) ∧ op ≠ .popenFileRead

theorem Operation.HandsOn.syscall_error {op : Operation} (h : op.HandsOn) (e : ℕ) :
    op.syscall (.error e) = .error e := by
  cases op with
  | dyingProcessWait pid => exact absurd rfl (h.1 pid)
  | popenFileRead => exact absurd rfl h.2
  | socketRecv => simp [Operation.syscall, SysRet.error]
  | _ => rfl

theorem Operation.HandsOn.syscall_again {op : Operation} (h : op.HandsOn) :
    (op.syscall (.error EAGAIN)).wouldBlock := by
  rw [h.syscall_error]
  decide

/-- The failed `waitpid` suspends, and the resumed call may succeed. -/
theorem not_reportsAlike_wait (pid : ℤ) (storage : Option ErrorCondition) (e : ℕ) :
    ¬ ReportsAlike (.dyingProcessWait pid) storage e := by
  intro h
  have h1 := (h fun _ => ⟨1, 0⟩).1
  have hwb : (Operation.syscall (.dyingProcessWait pid)
      (failsFirst e (fun _ => ⟨1, 0⟩) 0)).wouldBlock := by
    simp [Operation.syscall, failsFirst, SysRet.error, SysRet.wouldBlock]
  rw [coAwait_of_wouldBlock hwb] at h1
  cases storage with
  | none => cases h1
  | some c =>
    obtain ⟨-, r, hr, hret⟩ := h1
    cases hr
    simp [Operation.syscall, failsFirst] at hret

/-- The read of a `popen` stream yields `10`. -/
theorem not_reportsAlike_popen (storage : Option ErrorCondition) (e : ℕ) :
    ¬ ReportsAlike .popenFileRead storage e := by
  intro h
  have h1 := (h fun _ => .error e).1
  rw [coAwait_of_value (by simp [Operation.syscall, SysRet.failed])] at h1
  cases storage with
  | none => cases h1
  | some c =>
    obtain ⟨-, r, hr, hret⟩ := h1
    cases hr
    simp [Operation.syscall] at hret

/-- **When an error is reported in the same way on both paths.** For every operation, every storage
and every error other than a would-block: if and only if a storage was supplied that holds this very
error already, and the operation is neither the process wait nor the read of a `popen` stream, whose
errors are never seen. -/
theorem reports_alike_iff (op : Operation) (storage : Option ErrorCondition) (e : ℕ)
    (he : (SysRet.error e).wouldBlock = false) :
    ReportsAlike op storage e ↔
      (∀ pid, op ≠ .dyingProcessWait pid) ∧ op ≠ .popenFileRead ∧
        storage = some (rsErrnoToCondition e) := by
  rw [← and_assoc]
  constructor
  · intro h
    have hop : op.HandsOn := by
      refine ⟨?_, ?_⟩
      · rintro pid rfl
        exact not_reportsAlike_wait pid storage e h
      · rintro rfl
        exact not_reportsAlike_popen storage e h
    refine ⟨hop, ?_⟩
    have h2 := (h fun _ => .error e).2
    rw [coAwait_of_wouldBlock hop.syscall_again] at h2
    cases storage with
    | none => cases h2
    | some c => exact h2.1
  · rintro ⟨hop, rfl⟩ rest
    have hop : op.HandsOn := hop
    constructor
    · have hrs : op.syscall (failsFirst e rest 0) = .error e := hop.syscall_error e
      have hcase : coAwait (some (rsErrnoToCondition e))
          (fun i => op.syscall (failsFirst e rest i)) = _ :=
        coAwait_of_error (by rw [hrs]; exact he) (by rw [hrs]; rfl)
      rw [hcase]
      refine ⟨?_, _, rfl, ?_⟩
      · simp [hrs, SysRet.error]
      · simp [hrs, SysRet.error]
    · rw [coAwait_of_wouldBlock hop.syscall_again]
      refine ⟨rfl, _, rfl, ?_⟩
      show (op.syscall (.error e)).ret = -1
      rw [hop.syscall_error]
      rfl

/-- A `recv` that fails with `ECONNRESET` and has a storage with that error. -/
theorem reports_alike_reset : ReportsAlike .socketRecv (some (rsErrnoToCondition 104)) 104 :=
  (reports_alike_iff .socketRecv (some (rsErrnoToCondition 104)) 104 (by decide)).2
    ⟨by simp, by decide, rfl⟩

/-- The paths differ: a `send` without a storage ends the process when it fails with `ECONNRESET` at
once, and gives `-1` to the session when it fails so after a suspension. -/
theorem reports_differ :
    ¬ ∀ (op : Operation) (storage : Option ErrorCondition) (e : ℕ),
      (SysRet.error e).wouldBlock = false → ReportsAlike op storage e := by
  intro hall
  have h := (hall .socketSend none 104 (by decide) fun _ => .error 104).2
  exact absurd h (by simp only [Reports]; decide)

end EpollCoroutine
