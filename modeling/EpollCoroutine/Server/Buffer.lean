import EpollCoroutine.Lib.Memory
import EpollCoroutine.Server.Receive

/-!
# The buffer of the receive

`SocketRecvOperation::syscall` hands `mBuffer_` and `len_` to `recv` and writes two NULs behind the
bytes. `echo_loop` leaves room for one: `len_` is `(sizeof socbuffer) - 1`.

* `recvWrites`: what one call of `syscall()` writes through `mBuffer_`, and where; `recvInto` is
  what becomes of the buffer (`recvInto_view`).
* `awaitWrites`: the same for a `co_await`, the retry after a suspension included.
* `recv_within_iff`: the writes stay inside the buffer unless `recv` fills all of `len_`.
-/

namespace EpollCoroutine

/-- `len_`, as `echo_loop` passes it for a buffer of `capacity` bytes. -/
def recvLen (capacity : ℕ) : ℕ := capacity - 1

/-- The kernel delivers no more than it was asked for. -/
def RecvRet.AtMost (len : ℕ) : RecvRet → Prop
  | .bytes l => l.length ≤ len
  | .error _ => True

@[simp] theorem atMost_bytes (len : ℕ) (l : Bytes) :
    (RecvRet.bytes l).AtMost len ↔ l.length ≤ len := Iff.rfl

@[simp] theorem atMost_error (len e : ℕ) : (RecvRet.error e).AtMost len := trivial

/-- The writes of one `SocketRecvOperation::syscall`: those of `recv`, then `mBuffer_[bytesread]`
and `mBuffer_[bytesread + 1]`. -/
def recvWrites : RecvRet → List (Memory.Write UInt8)
  | .bytes l => Memory.copy 0 l ++ [⟨l.length, 0⟩, ⟨l.length + 1, 0⟩]
  | .error _ => []

/-- The writes of a `co_await`: `await_resume` calls `syscall()` again after a suspension. -/
def awaitWrites (storage : Option ErrorCondition) (raw : ℕ → RecvRet) :
    List (Memory.Write UInt8) :=
  recvWrites (raw 0) ++
    if (BlockSyscall.awaitSuspend storage (recvResults raw 0)).1.haveSuspend then recvWrites (raw 1)
    else []

theorem haveSuspend_eq (storage : Option ErrorCondition) (r : SysRet) :
    (BlockSyscall.awaitSuspend storage r).1.haveSuspend = r.wouldBlock := by
  unfold BlockSyscall.awaitSuspend
  cases r.wouldBlock <;> cases r.failed <;> rfl

/-- Only the call that decides writes anything. -/
theorem awaitWrites_eq (storage : Option ErrorCondition) (raw : ℕ → RecvRet) :
    awaitWrites storage raw = recvWrites (decisive raw) := by
  rw [awaitWrites, haveSuspend_eq, recvResults_wouldBlock, decisive]
  split_ifs with hwb
  · obtain ⟨e, he⟩ := exists_error_of_wouldBlock hwb
    rw [he]
    rfl
  · exact List.append_nil _

/-- Two bytes more than were delivered have to fit. -/
theorem within_recvWrites (capacity : ℕ) (l : Bytes) :
    Memory.Within capacity (recvWrites (.bytes l)) ↔ l.length + 1 < capacity := by
  rw [recvWrites, Memory.within_append]
  constructor
  · rintro ⟨-, h⟩
    simpa using h ⟨l.length + 1, 0⟩ (by simp)
  · intro h
    refine ⟨Memory.within_copy (by omega), ?_⟩
    simp only [Memory.within_cons, Memory.within_nil, and_true]
    exact ⟨by omega, h⟩

theorem decisive_atMost {raw : ℕ → RecvRet} {len : ℕ} (hraw : ∀ i, (raw i).AtMost len) :
    (decisive raw).AtMost len := by
  unfold decisive
  split_ifs
  · exact hraw 1
  · exact hraw 0

/-- **When the receive stays within its buffer.** For every capacity, every storage and all results
of `recv`, on the first try and on the retry after a suspension: every index that `syscall` writes
is smaller than the capacity, if and only if `recv` does not deliver all of the `len_` bytes. -/
theorem recv_within_iff {capacity : ℕ} (storage : Option ErrorCondition) {raw : ℕ → RecvRet}
    (hraw : ∀ i, (raw i).AtMost (recvLen capacity)) :
    Memory.Within capacity (awaitWrites storage raw) ↔
      ∀ l, decisive raw = .bytes l → l.length ≠ recvLen capacity := by
  rw [awaitWrites_eq]
  have hfits := decisive_atMost hraw
  cases hd : decisive raw with
  | error e => simp [recvWrites]
  | bytes l =>
    rw [hd] at hfits
    have hle : l.length ≤ recvLen capacity := hfits
    rw [within_recvWrites]
    constructor
    · rintro h l' ⟨⟩ heq
      rw [recvLen] at heq
      omega
    · intro h
      have hne := h l rfl
      rw [recvLen] at hle hne
      omega

/-- A short request, after a suspension. -/
theorem recv_within_short :
    Memory.Within buffSize
      (awaitWrites none fun i => if i = 0 then .error EAGAIN else .bytes [97, 98]) := by
  refine (recv_within_iff none fun i => ?_).2 ?_
  · by_cases hi : i = 0
    · simp [hi]
    · have hle : [97, 98].length ≤ recvLen buffSize := by decide
      simpa [hi] using hle
  · rintro l hl heq
    have hl2 : l = [97, 98] := by
      have hd : (.bytes [97, 98] : RecvRet) = .bytes l := hl
      cases hd
      rfl
    rw [hl2] at heq
    exact absurd heq (by decide)

/-- A client that sends `BUFFSIZE - 1` bytes at once: the second NUL falls behind `socbuffer`. -/
theorem recv_not_within :
    ¬ ∀ (capacity : ℕ) (storage : Option ErrorCondition) (raw : ℕ → RecvRet), 1 ≤ capacity →
      (∀ i, (raw i).AtMost (recvLen capacity)) →
      Memory.Within capacity (awaitWrites storage raw) := by
  intro hall
  have hlen : (List.replicate (recvLen buffSize) (97 : UInt8)).length = recvLen buffSize :=
    List.length_replicate
  have h := hall buffSize none (fun _ => .bytes (List.replicate (recvLen buffSize) 97)) (by decide)
    fun _ => hlen.le
  rw [awaitWrites_eq] at h
  have hd : decisive (fun _ => .bytes (List.replicate (recvLen buffSize) 97)) =
      .bytes (List.replicate (recvLen buffSize) 97) := ite_self _
  rw [hd, within_recvWrites, hlen] at h
  exact absurd h (by decide)

/-! ### What becomes of memory -/

section

variable {raw : ℕ → RecvRet} {r : RecvRet} {l : Bytes} {capacity : ℕ}

/-- Seen through the buffer, the writes of one call are `recvInto`. -/
theorem recvInto_view {m : ℕ → UInt8} (h : r.AtMost capacity) :
    Memory.view capacity (Memory.run (recvWrites r) m) = recvInto (Memory.view capacity m) r := by
  cases r with
  | error e => rfl
  | bytes l =>
    have hle : 0 + l.length ≤ (Memory.view capacity m).length := by
      rw [Memory.length_view, Nat.zero_add]
      exact h
    rw [recvWrites, Memory.run_append, Memory.view_run, Memory.view_run, Memory.foldl_copy hle]
    simp [recvInto]

/-- `socbuffer` is what the writes of the receive leave in a zeroed buffer. -/
theorem socbuffer_view (storage : Option ErrorCondition) {m : ℕ → UInt8}
    (hraw : ∀ i, (raw i).AtMost (recvLen buffSize))
    (hm : Memory.view buffSize m = List.replicate buffSize 0) :
    Memory.view buffSize (Memory.run (awaitWrites storage raw) m) = socbuffer raw := by
  have hfits : ∀ i, (raw i).AtMost buffSize := by
    intro i
    have hi := hraw i
    cases hr : raw i with
    | error e => exact atMost_error _ e
    | bytes l =>
      rw [hr, atMost_bytes] at hi
      exact (atMost_bytes _ l).2 (hi.trans (Nat.sub_le _ _))
  have hdecisive := decisive_atMost hfits
  rw [awaitWrites_eq, recvInto_view hdecisive, hm, socbuffer, decisive]
  split_ifs with hwb
  · obtain ⟨e, he⟩ := exists_error_of_wouldBlock hwb
    rw [he]
    rfl
  · rfl

/-- The overrun: the byte behind the buffer becomes `0`, and nothing further is touched. -/
theorem recv_overruns (storage : Option ErrorCondition) (hcap : 0 < capacity)
    (hd : decisive raw = .bytes l) (hl : l.length = recvLen capacity) (m : ℕ → UInt8) :
    Memory.run (awaitWrites storage raw) m capacity = 0 ∧
      ∀ i, capacity < i → Memory.run (awaitWrites storage raw) m i = m i := by
  rw [recvLen] at hl
  have hlen : l.length + 1 = capacity := by omega
  rw [awaitWrites_eq, hd]
  constructor
  · rw [recvWrites, Memory.run_append, hlen]
    simp
  · intro i hi
    have hwithin : Memory.Within (capacity + 1) (recvWrites (.bytes l)) := by
      rw [within_recvWrites]
      omega
    exact hwithin.frame m hi

end

end EpollCoroutine
