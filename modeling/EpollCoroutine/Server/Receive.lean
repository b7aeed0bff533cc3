import EpollCoroutine.Await.BlockSyscall
import EpollCoroutine.Server.Session

/-!
# The receive at the head of `echo_loop`

`echo_loop` begins with `co_await socket.recv(...)` and gives up if the value is not positive. The
value has passed through `SocketRecvOperation::syscall`, which counts two terminating NULs, and
through `BlockSyscall`.

* `RecvRet`: what `recv` returns; `recvInto` is what `syscall()` does to the buffer.
* `echoStart`: `echo_loop` up to its first decision.
* `end_recognised_iff`: the end of a connection is taken for a request, because `0` has become `2`.
-/

namespace EpollCoroutine

/-- What the kernel returns for `recv`: the bytes it has delivered, none of them at the end of the
connection, or an error. -/
inductive RecvRet
  | bytes (l : Bytes)
  | error (errno : ℕ)
  deriving DecidableEq

namespace RecvRet

/-- The return value and `errno`. -/
def ret : RecvRet → SysRet
  | .bytes l => ⟨l.length, 0⟩
  | .error e => .error e

/-- The result of the system call of an operation of a session. -/
def sys (r : RecvRet) : Sys :=
  match r with
  | .bytes l => .bytes l []
  | .error _ => if r.ret.wouldBlock then .wouldBlock else .failed

end RecvRet

/-- What `SocketRecvOperation::syscall` writes into its buffer: the bytes, then two NULs. -/
def recvInto (buffer : Bytes) : RecvRet → Bytes
  | .bytes l => ((l ++ buffer.drop l.length).set l.length 0).set (l.length + 1) 0
  | .error _ => buffer

/-- The result that decides: that of the first call, or of the retry if the first would block. -/
def decisive (raw : ℕ → RecvRet) : RecvRet := if (raw 0).ret.wouldBlock then raw 1 else raw 0

/-- `socbuffer` after the receive. -/
def socbuffer (raw : ℕ → RecvRet) : Bytes :=
  let buffer := recvInto (List.replicate buffSize 0) (raw 0)
  if (raw 0).ret.wouldBlock then recvInto buffer (raw 1) else buffer

/-- The successive results of `syscall()`. -/
def recvResults (raw : ℕ → RecvRet) (i : ℕ) : SysRet := Operation.socketRecv.syscall (raw i).ret

/-- How `echo_loop` begins: the process exits, it returns `false` at once, or it calls
`PipedAsyncCommand::factory` after it has built the string `data`. -/
inductive EchoStart
  | exits (code : ℕ)
  | returnsFalse
  | callsFactory (data : Bytes)
  deriving DecidableEq

/-- `echo_loop` up to the call of `factory`, when the successive calls of `recv` return `raw`. -/
def echoStart (raw : ℕ → RecvRet) : EchoStart :=
  match (coAwait none (recvResults raw)).2 with
  | .exits code => .exits code
  | .yields nbRecv =>
    if nbRecv.ret ≤ 0 then .returnsFalse else .callsFactory (cstr (socbuffer raw))

/-- What the head of `echo_loop` is meant to do: a command is started only for a byte, the end of
the connection and a failure after a suspension are recognised, and the bytes delivered become
`data`, up to the first NUL. -/
structure EndRecognised (raw : ℕ → RecvRet) : Prop where
  forks : ∀ data, echoStart raw = .callsFactory data → ∃ l, decisive raw = .bytes l ∧ l ≠ []
  ends : decisive raw = .bytes [] ∨ ((raw 0).ret.wouldBlock ∧ ∃ e, raw 1 = .error e) →
    echoStart raw = .returnsFalse
  data : ∀ l, decisive raw = .bytes l → l ≠ [] → echoStart raw = .callsFactory (cstr l)

/-! ### The cases of the receive -/

section

variable {raw : ℕ → RecvRet} {l : Bytes} {e : ℕ}

/-- The bytes and the two NULs fit the zeroed buffer, in which the NULs change nothing. -/
theorem recvInto_zeroed (l : Bytes) : recvInto (List.replicate buffSize 0)
    (.bytes l) = filled l := by
  have h : l ++ (List.replicate buffSize (0 : UInt8)).drop l.length = filled l := by
    rw [List.drop_replicate, filled]
  rw [recvInto, h, filled, List.set_append_right _ _ le_rfl, List.set_replicate_self,
    List.set_append_right _ _ (Nat.le_succ _), List.set_replicate_self]

/-- A call that delivers bytes never looks like a failure. -/
theorem syscall_bytes (l : Bytes) :
    (Operation.socketRecv.syscall (RecvRet.bytes l).ret).ret = l.length + 2 ∧
      (Operation.socketRecv.syscall (RecvRet.bytes l).ret).failed = false := by
  have h1 : (l.length : ℤ) ≠ -1 := by omega
  have h2 : (l.length : ℤ) + 2 ≠ -1 := by omega
  simp [Operation.syscall, RecvRet.ret, SysRet.failed, h1, h2]

theorem syscall_error (e : ℕ) :
    Operation.socketRecv.syscall (RecvRet.error e).ret = .error e := by
  simp [Operation.syscall, RecvRet.ret, SysRet.error]

theorem bytes_not_wouldBlock (l : Bytes) : (RecvRet.bytes l).ret.wouldBlock = false := by
  have h : (l.length : ℤ) ≠ -1 := by omega
  simp [SysRet.wouldBlock, RecvRet.ret, h]

/-- A first call that would block has written nothing. -/
theorem exists_error_of_wouldBlock {r : RecvRet} (h : r.ret.wouldBlock) : ∃ e, r = .error e := by
  cases r with
  | bytes l => simp [bytes_not_wouldBlock] at h
  | error e => exact ⟨e, rfl⟩

/-- `syscall()` would block exactly when the kernel would. -/
theorem recvResults_wouldBlock (raw : ℕ → RecvRet) :
    (recvResults raw 0).wouldBlock = (raw 0).ret.wouldBlock := by
  cases h : raw 0 with
  | error e =>
    rw [recvResults, h, syscall_error]
    rfl
  | bytes l =>
    obtain ⟨-, hfailed⟩ := syscall_bytes l
    have hret : (recvResults raw 0).failed = false := by rw [recvResults, h, hfailed]
    simp only [SysRet.failed, decide_eq_false_iff_not] at hret
    rw [bytes_not_wouldBlock]
    simp [SysRet.wouldBlock, hret]

/-- Bytes are delivered, at once or after a suspension. -/
theorem echoStart_of_bytes (h : decisive raw = .bytes l) :
    echoStart raw = .callsFactory (cstr (filled l)) := by
  obtain ⟨hret, hfailed⟩ := syscall_bytes l
  have hpos : ¬ (l.length : ℤ) + 2 ≤ 0 := by omega
  unfold decisive at h
  split_ifs at h with hwb
  · obtain ⟨e, he⟩ := exists_error_of_wouldBlock hwb
    have hbuf : socbuffer raw = filled l := by
      rw [socbuffer, if_pos hwb, he, h]
      exact recvInto_zeroed l
    simp only [echoStart, coAwait_of_wouldBlock ((recvResults_wouldBlock raw).trans hwb), recvResults, h, hret,
      hpos, if_false, hbuf]
  · have hbuf : socbuffer raw = filled l := by
      rw [socbuffer, if_neg hwb, h]
      exact recvInto_zeroed l
    have hvalue : (recvResults raw 0).failed = false := by
      rw [recvResults, h]
      exact hfailed
    simp only [echoStart, coAwait_of_value hvalue, recvResults, h, hret, hpos, if_false, hbuf]

/-- A failure after a suspension. -/
theorem echoStart_of_failed (hwb : (raw 0).ret.wouldBlock) (h : raw 1 = .error e) :
    echoStart raw = .returnsFalse := by
  simp only [echoStart, coAwait_of_wouldBlock ((recvResults_wouldBlock raw).trans hwb), recvResults, h,
    syscall_error]
  exact if_pos (by simp [SysRet.error])

/-- A failure on the first try other than would-block. -/
theorem echoStart_of_error (hwb : (raw 0).ret.wouldBlock = false) (h : raw 0 = .error e) :
    echoStart raw = .exits e := by
  have hres : recvResults raw 0 = .error e := by rw [recvResults, h, syscall_error]
  have hwb' : (recvResults raw 0).wouldBlock = false := (recvResults_wouldBlock raw).trans hwb
  have hfail : (recvResults raw 0).failed := by
    rw [hres]
    rfl
  simp only [echoStart, coAwait_of_error hwb' hfail, hres]
  rfl

end

/-- The three ways `echo_loop` begins. -/
theorem echoStart_cases (raw : ℕ → RecvRet) :
    (∃ l, decisive raw = .bytes l ∧ echoStart raw = .callsFactory (cstr (filled l))) ∨
      ((raw 0).ret.wouldBlock ∧ (∃ e, raw 1 = .error e) ∧ echoStart raw = .returnsFalse) ∨
      ((raw 0).ret.wouldBlock = false ∧ ∃ e, raw 0 = .error e ∧ echoStart raw = .exits e) := by
  cases hd : decisive raw with
  | bytes l => exact Or.inl ⟨l, rfl, echoStart_of_bytes hd⟩
  | error e =>
    unfold decisive at hd
    split_ifs at hd with hwb
    · exact Or.inr (Or.inl ⟨hwb, ⟨e, hd⟩, echoStart_of_failed hwb hd⟩)
    · rw [Bool.not_eq_true] at hwb
      exact Or.inr (Or.inr ⟨hwb, e, hd, echoStart_of_error hwb hd⟩)

/-- A session does the same after its `recv`. -/
theorem echoStart_session (s : Session) (doneReading : Bool) (raw : ℕ → RecvRet) :
    match echoStart raw with
    | .callsFactory data => s.complete .recv (decisive raw).sys doneReading =
        { s with pc := .pipeW, vars := { data := (extractCommand data).2 } }
    | .returnsFalse =>
      s.complete .recv (decisive raw).sys doneReading = { s with pc := .done false }
    | .exits _ => (decisive raw).sys = .failed := by
  rcases echoStart_cases raw with ⟨l, hd, h⟩ | ⟨hwb, ⟨e, he⟩, h⟩ | ⟨hwb, e, he, h⟩
  · rw [h, hd]
    rfl
  · rw [h, decisive, if_pos hwb, he]
    simp only [RecvRet.sys]
    split_ifs <;> rfl
  · rw [h, decisive, hwb, he]
    rw [he] at hwb
    simp [RecvRet.sys, hwb]

/-- **When the end of a connection is recognised.** For all results of `recv`, with or without a
suspension: a command is started only if a byte was delivered, the end of the connection and a
failure after a suspension make `echo_loop` return `false` at once, and the bytes delivered become
`data` up to the first NUL, if and only if `recv` does not report the end of the connection. -/
theorem end_recognised_iff {raw : ℕ → RecvRet}
    (hraw : ∀ i l, raw i = .bytes l → l.length ≤ buffSize - 1) :
    EndRecognised raw ↔ decisive raw ≠ .bytes [] := by
  constructor
  · intro h hd
    have hstart := echoStart_of_bytes hd
    rw [h.ends (Or.inl hd)] at hstart
    cases hstart
  · intro hne
    refine ⟨fun data hdata => ?_, ?_, fun l hd _ => ?_⟩
    · rcases echoStart_cases raw with ⟨l, hd, -⟩ | ⟨-, -, h⟩ | ⟨-, e, -, h⟩
      · refine ⟨l, hd, ?_⟩
        rintro rfl
        exact hne hd
      · rw [h] at hdata
        cases hdata
      · rw [h] at hdata
        cases hdata
    · rintro (hd | ⟨hwb, e, he⟩)
      · exact absurd hd hne
      · exact echoStart_of_failed hwb he
    · have hlen : l.length < buffSize := by
        have hle : l.length ≤ buffSize - 1 := by
          unfold decisive at hd
          split_ifs at hd
          · exact hraw 1 l hd
          · exact hraw 0 l hd
        have hpos : 0 < buffSize := by decide
        omega
      rw [echoStart_of_bytes hd, ← List.append_nil (filled l), cstr_filled hlen]

/-- A request that arrives after a suspension. -/
theorem end_recognised_later :
    EndRecognised fun i => if i = 0 then .error EAGAIN else .bytes [97, 98] := by
  refine (end_recognised_iff fun i l h => ?_).2 (by decide)
  by_cases hi : i = 0
  · simp [hi] at h
  · simp only [hi, if_false, RecvRet.bytes.injEq] at h
    subst h
    decide

/-- The end of a connection starts a command: `recv` returns `0`. -/
theorem end_not_recognised :
    ¬ ∀ raw : ℕ → RecvRet, (∀ i l, raw i = .bytes l → l.length ≤ buffSize - 1) →
      EndRecognised raw := by
  intro h
  have hend := h (fun _ => .bytes []) fun i l hl => by cases hl; decide
  exact absurd (hend.ends (Or.inl (by decide))) (by decide)

end EpollCoroutine
