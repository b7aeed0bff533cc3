import Mathlib.Tactic
import Mathlib.Data.List.TakeWhile

/-!
# The data of `echo_loop`

The values that `echo_loop` (`app/main.cc`) computes between its system calls: the request built
from the receive buffer, the text accumulated from the child's pipe, the text sent back. Strings are
lists of bytes.

* `cstr`: a C string read from memory, up to the first NUL.
* `extractCommand`: the one-argument overload of `sharedstate.cc`.
* `EchoVars`: the local variables; `received`, `readBody`, `readAgain`, `stripFirstLine`, `sendMore`
  and `sent` are what the code does to them.

A read of `n` bytes leaves them at the start of a zeroed buffer of `buffSize` bytes. A full buffer
has no terminating NUL, and `merged += (char *)buffer.data()` then goes on reading the memory that
follows the buffer, here the parameter `after`.
-/

namespace EpollCoroutine

/-- A byte string. -/
abbrev Bytes := List UInt8

/-- `BUFFSIZE`. -/
def buffSize : ℕ := 3048

/-- `'\n'`. -/
def newline : UInt8 := 10

/-- The C string at the start of some memory. -/
def cstr (mem : Bytes) : Bytes := mem.takeWhile (· ≠ 0)

/-- `s.find("\n")`. -/
def findNewline (s : Bytes) : Option ℕ := s.findIdx? (· = newline)

/-- `SharedState::extractCommand(inputString)`: the command and what is left of the input. -/
def extractCommand (inputString : Bytes) : Bytes × Bytes :=
  match findNewline inputString with
  | some pos => (inputString.take pos, inputString.drop (pos + 1))
  | none => ([], inputString)

/-- A buffer of `buffSize` zero bytes into which `l` has been read. -/
def filled (l : Bytes) : Bytes := l ++ List.replicate (buffSize - l.length) 0

/-- `nbRecv`. `SocketRecvOperation::syscall` terminates the bytes of a successful `recv` with two
NULs and counts them; `none` is the result `-1`. -/
def nbRecv : Option Bytes → ℤ
  | none => -1
  | some m => m.length + 2

/-- The result of `co_await readpipe`: the bytes read, or `-1`. -/
inductive ReadResult
  | bytes (l : Bytes)
  | failed
  deriving DecidableEq

/-- The bytes that a read has put into the buffer. -/
def ReadResult.content : ReadResult → Bytes
  | .bytes l => l
  | .failed => []

/-- `nbRecvFromPipe`. -/
def ReadResult.count : ReadResult → ℤ
  | .bytes l => l.length
  | .failed => -1

/-- The local variables of `echo_loop` that outlive one statement. -/
structure EchoVars where
  data : Bytes := []
  merged : Bytes := []
  endlconuter : ℕ := 0
  recAmmount : ℤ := 0
  nbSend : ℕ := 0
  deriving DecidableEq

namespace EchoVars

/-- The variables after a `recv` of the bytes `m` and `extractCommand`. -/
def received (m : Bytes) : EchoVars := { data := (extractCommand (cstr (filled m))).2 }

/-- The body of the read loop, up to its condition. `none`: `merged.at` has thrown. -/
def readBody (r : ReadResult) (after : Bytes) (v : EchoVars) : Option EchoVars :=
  match (v.merged ++ cstr (filled r.content ++ after)).getLast? with
  | none => none
  | some c =>
    some { v with
      merged := v.merged ++ cstr (filled r.content ++ after)
      endlconuter := if c ≠ newline then v.endlconuter + 1 else v.endlconuter
      recAmmount := v.recAmmount + r.count }

/-- The condition of the read loop. -/
def readAgain (r : ReadResult) (doneReading : Bool) (v : EchoVars) : Bool :=
  r.count ≠ 0 ∧ doneReading = false ∧ v.endlconuter ≠ 1

/-- `merged.erase(0, merged.find('\n') + 1)`; without a newline, `npos + 1` is `0`. -/
def stripFirstLine (v : EchoVars) : EchoVars :=
  { v with
    merged := match findNewline v.merged with
      | some pos => v.merged.drop (pos + 1)
      | none => v.merged
    nbSend := 0 }

/-- The condition of the send loop. -/
def sendMore (v : EchoVars) : Bool := v.nbSend < v.merged.length

/-- `nbSend += res` on a 64-bit `size_t`; `none` is the result `-1`, which takes one off. -/
def sent (res : Option ℕ) (v : EchoVars) : EchoVars :=
  { v with
    nbSend := match res with
      | some n => (v.nbSend + n) % 2 ^ 64
      | none => if v.nbSend = 0 then 2 ^ 64 - 1 else v.nbSend - 1 }

end EchoVars

/-! ### C strings -/

theorem cstr_append_zero (l t : Bytes) : cstr (l ++ 0 :: t) = cstr l := by
  induction l with
  | nil => simp [cstr]
  | cons c l ih =>
    by_cases hc : c = 0
    · simp [cstr, hc]
    · simpa [cstr, hc] using ih

theorem cstr_eq_self {l : Bytes} (h : (0 : UInt8) ∉ l) : cstr l = l := by
  refine List.takeWhile_eq_self_iff.2 fun x hx => ?_
  simp only [ne_eq, decide_eq_true_eq]
  rintro rfl
  exact h hx

/-- A C string has no NUL. -/
theorem zero_not_mem_cstr (mem : Bytes) : (0 : UInt8) ∉ cstr mem := by
  intro h
  simpa using List.mem_takeWhile_imp h

/-- A read that does not fill the buffer is terminated inside it. -/
theorem cstr_filled {l : Bytes} (h : l.length < buffSize) (after : Bytes) :
    cstr (filled l ++ after) = cstr l := by
  obtain ⟨k, hk⟩ : ∃ k, buffSize - l.length = k + 1 := ⟨buffSize - l.length - 1, by omega⟩
  rw [filled, hk, List.replicate_succ, List.append_assoc, List.cons_append, cstr_append_zero]

/-- A read that fills the buffer with text runs on into the memory after it. -/
theorem cstr_filled_full {l : Bytes} (h : l.length = buffSize) (h0 : (0 : UInt8) ∉ l)
    (after : Bytes) : cstr (filled l ++ after) = l ++ cstr after := by
  rw [filled, h, Nat.sub_self, List.replicate_zero, List.append_nil]
  refine List.takeWhile_append_of_pos fun x hx => ?_
  simp only [ne_eq, decide_eq_true_eq]
  rintro rfl
  exact h0 hx

/-! ### First lines -/

theorem findNewline_none {s : Bytes} (h : newline ∉ s) : findNewline s = none := by
  rw [findNewline, List.findIdx?_eq_none_iff]
  intro x hx
  simp only [decide_eq_false_iff_not]
  rintro rfl
  exact h hx

theorem findNewline_cut {a b : Bytes} (h : newline ∉ a) :
    findNewline (a ++ newline :: b) = some a.length := by
  have ha : a.findIdx? (· = newline) = none := findNewline_none h
  simp [findNewline, List.findIdx?_append, List.findIdx?_cons, ha]

/-- Every string has no newline, or is cut at its first one. -/
theorem cut_newline (s : Bytes) :
    newline ∉ s ∨ ∃ a b, s = a ++ newline :: b ∧ newline ∉ a := by
  by_cases h : newline ∈ s
  · exact Or.inr (List.eq_append_cons_of_mem h)
  · exact Or.inl h

theorem extractCommand_none {s : Bytes} (h : newline ∉ s) : extractCommand s = ([], s) := by
  simp [extractCommand, findNewline_none h]

theorem extractCommand_cut {a b : Bytes} (h : newline ∉ a) :
    extractCommand (a ++ newline :: b) = (a, b) := by
  simp [extractCommand, findNewline_cut h]

theorem stripFirstLine_none {v : EchoVars} (h : newline ∉ v.merged) :
    v.stripFirstLine.merged = v.merged := by
  simp [EchoVars.stripFirstLine, findNewline_none h]

theorem stripFirstLine_cut {v : EchoVars} {a b : Bytes} (h : newline ∉ a)
    (hv : v.merged = a ++ newline :: b) : v.stripFirstLine.merged = b := by
  simp [EchoVars.stripFirstLine, hv, findNewline_cut h]

end EpollCoroutine
