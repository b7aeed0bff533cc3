import EpollCoroutine.Echo.Data
import EpollCoroutine.Await.BlockSyscall

/-!
# `extractCommand`

The two overloads of `SharedState::extractCommand` (`src/sharedstate.cc`). The one that returns the
command is `extractCommand` of `Echo.Data`; the other returns a `std::error_condition` and stores
the command in its second argument.

* `extractCommandInto`: the overload with two arguments; its result is the condition and the two
  strings afterwards.
* `extractNext`: the two strings after a call, for the caller that goes on with them.
* `extraction`: what the calls do that a caller makes until `NoCommand` is returned.
-/

namespace EpollCoroutine

/-- `SharedStateErrorCode`. -/
inductive SharedStateErrorCode
  | OpenPipeError
  | ProtocolViolation
  | ConnectionError
  | ResourceError
  | NoCommand
  | Timeout
  deriving DecidableEq, Repr

/-- The values of the enumeration. -/
def SharedStateErrorCode.toNat : SharedStateErrorCode → ℕ
  | .OpenPipeError => 10
  | .ProtocolViolation => 30
  | .ConnectionError => 31
  | .ResourceError => 32
  | .NoCommand => 33
  | .Timeout => 34

/-- `theErrorCategory`. -/
def theErrorCategory : ErrorCategory := .other 0

/-- `std::error_condition()`. -/
def ErrorCondition.success : ErrorCondition := ⟨0, .generic⟩

/-- `make_error_condition`. -/
def makeErrorCondition (e : SharedStateErrorCode) : ErrorCondition := ⟨e.toNat, theErrorCategory⟩

/-- `SharedState::extractCommand(inputString, command)`: the condition returned, and both strings
afterwards. -/
def extractCommandInto (inputString command : Bytes) : ErrorCondition × Bytes × Bytes :=
  match findNewline inputString with
  | some pos => (.success, inputString.drop (pos + 1), inputString.take pos)
  | none => (makeErrorCondition .NoCommand, inputString, command)

/-- `inputString` and `command` after a call. -/
def extractNext (x : Bytes × Bytes) : Bytes × Bytes := (extractCommandInto x.1 x.2).2

theorem extractCommandInto_none {s : Bytes} (h : newline ∉ s) (c : Bytes) :
    extractCommandInto s c = (makeErrorCondition .NoCommand, s, c) := by
  simp [extractCommandInto, findNewline_none h]

theorem extractCommandInto_cut {a b : Bytes} (h : newline ∉ a) (c : Bytes) :
    extractCommandInto (a ++ newline :: b) c = (.success, b, a) := by
  simp [extractCommandInto, findNewline_cut h]

theorem extractNext_cut {a b : Bytes} (h : newline ∉ a) (c : Bytes) :
    extractNext (a ++ newline :: b, c) = (b, a) := by
  rw [extractNext, extractCommandInto_cut h]

/-- What `n` successful calls and the one after them do, from the input `s` and the command `c`. The
strings after `k` calls are `extractNext^[k] (s, c)`. -/
structure Extraction (s c : Bytes) (n : ℕ) : Prop where
  succeeds : ∀ k < n, (extractCommandInto (extractNext^[k] (s, c)).1 (extractNext^[k] (s, c)).2).1 =
    .success
  fails : extractCommandInto (extractNext^[n] (s, c)).1 (extractNext^[n] (s, c)).2 =
    (makeErrorCondition .NoCommand, extractNext^[n] (s, c))
  no_newline : ∀ k < n, newline ∉ (extractNext^[k + 1] (s, c)).2
  reconstructs : ((List.range n).flatMap fun k => (extractNext^[k + 1] (s, c)).2 ++ [newline]) ++
    (extractNext^[n] (s, c)).1 = s
  overload_succeeds : ∀ k < n, extractCommand (extractNext^[k] (s, c)).1 =
    ((extractNext^[k + 1] (s, c)).2, (extractNext^[k + 1] (s, c)).1)
  overload_fails : extractCommand (extractNext^[n] (s, c)).1 = ([], (extractNext^[n] (s, c)).1)

theorem Extraction.none {s : Bytes} (h : newline ∉ s) (c : Bytes) : Extraction s c 0 where
  succeeds k hk := absurd hk (Nat.not_lt_zero k)
  fails := extractCommandInto_none h c
  no_newline k hk := absurd hk (Nat.not_lt_zero k)
  reconstructs := rfl
  overload_succeeds k hk := absurd hk (Nat.not_lt_zero k)
  overload_fails := extractCommand_none h

/-- The calls from a string with a first line `a` are one call for that line, and then the calls
from the rest `b`, which find `a` in the second argument. -/
theorem Extraction.cut {a b : Bytes} {n : ℕ} (h : newline ∉ a) (c : Bytes)
    (hb : Extraction b a n) : Extraction (a ++ newline :: b) c (n + 1) := by
  have hnext : ∀ k, extractNext^[k + 1] (a ++ newline :: b, c) = extractNext^[k] (b, a) := by
    intro k
    rw [Function.iterate_succ_apply, extractNext_cut h]
  constructor
  · intro k hk
    cases k with
    | zero => simp [extractCommandInto_cut h]
    | succ k => rw [hnext]; exact hb.succeeds k (Nat.lt_of_succ_lt_succ hk)
  · rw [hnext]; exact hb.fails
  · intro k hk
    rw [hnext]
    cases k with
    | zero => exact h
    | succ k => exact hb.no_newline k (Nat.lt_of_succ_lt_succ hk)
  · rw [List.range_succ_eq_map, List.flatMap_cons, List.flatMap_map]
    simp only [hnext, Nat.succ_eq_add_one, Function.iterate_zero, id_eq,
      List.append_assoc]
    rw [hb.reconstructs]
    simp
  · intro k hk
    rw [hnext]
    cases k with
    | zero => exact extractCommand_cut h
    | succ k => rw [hnext]; exact hb.overload_succeeds k (Nat.lt_of_succ_lt_succ hk)
  · rw [hnext]; exact hb.overload_fails

/-- **Commands are extracted one line at a time.** From any input and any content of the second
argument, the calls succeed as often as the input has newlines and then return `NoCommand`; they
take the input apart line by line, and the overload with one argument does the same to it. -/
theorem extraction (s c : Bytes) : Extraction s c (s.count newline) := by
  induction hn : s.count newline generalizing s c with
  | zero => exact Extraction.none (List.count_eq_zero.1 hn) c
  | succ n ih =>
    obtain h | ⟨a, b, rfl, h⟩ := cut_newline s
    · rw [List.count_eq_zero.2 h] at hn
      cases hn
    · refine Extraction.cut h c (ih b a ?_)
      rw [List.count_append, List.count_eq_zero.2 h, List.count_cons_self] at hn
      omega

example : extractNext^[2] ([97, newline, newline, 98], []) = ([98], []) := by decide

end EpollCoroutine
