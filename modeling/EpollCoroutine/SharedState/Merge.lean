import EpollCoroutine.Lib.Stdio
import EpollCoroutine.Lib.Shell
import EpollCoroutine.Echo.Data

/-!
# `mergestate` and `optMergeState`

The functions of `src/sharedstate.cc` that hand a state slice to a shell and read what it prints.

* `mergeCommand`: the command line that each of them builds.
* `freadLoop`, `fgetsLoop`: their two ways of reading the child's output; both recursions are on
  what is left of the stream, so they end.
* `removeEol`: `std::regex_replace` with the pattern that the three functions share.
* `mergestateInto`, `mergestate`, `optMergeState`: the functions, over what `popen` makes of a
  command line: nothing when it fails, else a child with its output and the way it ends.
* `merge_readers_agree`, `state_slice_literal_iff`, `optMergeState_reports_iff`: what they have in
  common, when the state slice is an argument of `echo`, and when a failing child is reported.
-/

namespace EpollCoroutine

open Stdio (Stream fread fgets)

/-! ### The child -/

/-- How a child ends. -/
inductive ChildEnd
  | exited (code : UInt8)
  | signaled (sig : { n : ℕ // 1 ≤ n ∧ n ≤ 64 })
  deriving DecidableEq

/-- The wait status of a child on Linux, which `pclose` returns. -/
def ChildEnd.waitStatus : ChildEnd → ℤ
  | .exited code => code.toNat * 256
  | .signaled sig => sig.1

/-- A child that `popen` has started: the bytes that it writes, and how it ends. -/
structure ChildRun where
  out : Bytes
  ends : ChildEnd

/-- `EXIT_SUCCESS`. -/
def EXIT_SUCCESS : ℤ := 0

/-- `EXIT_FAILURE`. -/
def EXIT_FAILURE : ℤ := 1

/-! ### The command line -/

/-- The bytes of a text. -/
def bytes (s : List Char) : Bytes := s.map Char.toUInt8

/-- `"sleep "`. -/
def sleepText : Bytes := bytes ['s', 'l', 'e', 'e', 'p', ' ']

/-- `" && echo "`. -/
def echoText : Bytes := bytes [' ', '&', '&', ' ', 'e', 'c', 'h', 'o', ' ']

/-- The command line for a number of seconds and a state slice, which stands between single
quotes. -/
def mergeCommand (seconds stateSlice : Bytes) : Bytes :=
  sleepText ++ seconds ++ echoText ++ [Shell.squote] ++ stateSlice ++ [Shell.squote]

/-- `cmd` of `mergestate(stateSlice, output)`. -/
def mergestateIntoCmd (stateSlice : Bytes) : Bytes := mergeCommand (bytes ['1', '0']) stateSlice

/-- `cmd` of `mergestate(arguments)`. -/
def mergestateCmd (arguments : Bytes) : Bytes := mergeCommand (bytes ['1']) arguments

/-- `cmd` of `optMergeState(arguments)`. -/
def optMergeStateCmd (arguments : Bytes) : Bytes := mergeCommand (bytes ['1']) arguments

/-! ### Reading -/

/-- `bufsize`. -/
def bufsize : ℕ := 128

/-- The `do` loop of `mergestate(stateSlice, output)`. -/
def freadLoop (output : Bytes) (pipe : Stream UInt8) : Bytes :=
  if 0 < (fread bufsize pipe).1.length then
    freadLoop (output ++ (fread bufsize pipe).1) (fread bufsize pipe).2
  else output
termination_by pipe.rest.length
decreasing_by exact Stdio.fread_rest_lt ‹_›

/-- `if (fgets(..) != nullptr) result += buffer.data()`. -/
def addLine (result : Bytes) : Option Bytes → Bytes
  | some line => result ++ cstr (line ++ [0])
  | none => result

/-- The `while` loop of `mergestate(arguments)` and of `optMergeState`. -/
def fgetsLoop (result : Bytes) (pipe : Stream UInt8) : Bytes :=
  if pipe.eof = false then
    fgetsLoop (addLine result (fgets newline bufsize pipe).1) (fgets newline bufsize pipe).2
  else result
termination_by pipe.toRead
decreasing_by exact Stdio.fgets_toRead_lt newline (by decide) ‹_›

/-- `'\r'`. -/
def cr : UInt8 := 13

/-- `std::regex_replace(s, std::regex("\\r\\n|\\r|\\n"), "")`: the alternatives are tried in this
order at every position. -/
def removeEol : Bytes → Bytes
  | [] => []
  | [c] => if c = cr ∨ c = newline then [] else [c]
  | c :: d :: l =>
    if c = cr ∧ d = newline then removeEol l
    else if c = cr ∨ c = newline then removeEol (d :: l)
    else c :: removeEol (d :: l)

/-- The text without its carriage returns and line feeds. -/
def withoutEol (s : Bytes) : Bytes := s.filter fun c => c ≠ cr ∧ c ≠ newline

/-! ### The functions -/

variable (popen : Bytes → Option ChildRun)

/-- `mergestate(stateSlice, output)`: the value returned and `output` afterwards; `none` when
`popen` has failed and it has thrown. -/
def mergestateInto (stateSlice output : Bytes) : Option (ℤ × Bytes) :=
  (popen (cstr (mergestateIntoCmd stateSlice))).map fun child =>
    (child.ends.waitStatus, removeEol (freadLoop output ⟨child.out, false⟩))

/-- `mergestate(arguments)`: the value returned; `none` when `popen` has failed and it has thrown.
-/
def mergestate (arguments : Bytes) : Option Bytes :=
  (popen (cstr (mergestateCmd arguments))).map fun child =>
    removeEol (fgetsLoop [] ⟨child.out, false⟩)

/-- `optMergeState(arguments)`. -/
def optMergeState (arguments : Bytes) : Option Bytes :=
  match popen (cstr (optMergeStateCmd arguments)) with
  | none => none
  | some child =>
    let result := fgetsLoop [] ⟨child.out, false⟩
    let rc := child.ends.waitStatus
    if rc = EXIT_SUCCESS then some (removeEol result)
    else if rc = EXIT_FAILURE then none
    else some (removeEol result)

variable {popen}

/-! ### The readers -/

/-- The blocks make up the whole stream. -/
theorem freadLoop_eq (output : Bytes) (pipe : Stream UInt8) :
    freadLoop output pipe = output ++ pipe.rest := by
  fun_induction freadLoop output pipe with
  | case1 output pipe hpos ih => rw [ih, List.append_assoc, Stdio.fread_append]
  | case2 output pipe hpos =>
    have hnil : (fread bufsize pipe).1 = [] := List.eq_nil_of_length_eq_zero (by omega)
    rw [Stdio.fread_eq_nil (by decide) hnil, List.append_nil]

theorem addLine_some {line : Bytes} (h : (0 : UInt8) ∉ line) (result : Bytes) :
    addLine result (some line) = result ++ line := by
  rw [addLine, cstr_append_zero, cstr_eq_self h]

/-- So do the lines, when the stream has no null character in it. The loop ends at the end-of-file
indicator, which comes on after the last character has been read. -/
theorem fgetsLoop_eq (result : Bytes) (pipe : Stream UInt8) (h : (0 : UInt8) ∉ pipe.rest)
    (heof : pipe.eof = true → pipe.rest = []) : fgetsLoop result pipe = result ++ pipe.rest := by
  fun_induction fgetsLoop result pipe with
  | case1 result pipe hgo ih =>
    by_cases hrest : pipe.rest = []
    · rw [Stdio.fgets_nil newline (by decide) hrest] at ih ⊢
      exact ih h (fun _ => hrest)
    · obtain ⟨line, t, eof, -, happ, hgets, hend⟩ :=
        Stdio.fgets_some newline (n := bufsize) (by decide) hrest
      rw [happ, List.mem_append, not_or] at h
      rw [hgets] at ih ⊢
      have ht : eof = true → t = [] := by
        intro e
        rcases hend e with e | e
        · rw [e] at hgo
          cases hgo
        · exact e
      rw [ih h.2 ht, addLine_some h.1, happ, List.append_assoc]
  | case2 result pipe hstop =>
    rw [heof (by simpa using hstop), List.append_nil]

/-- No null character gets through the lines. -/
theorem zero_not_mem_fgetsLoop (result : Bytes) (pipe : Stream UInt8) (h : (0 : UInt8) ∉ result) :
    (0 : UInt8) ∉ fgetsLoop result pipe := by
  fun_induction fgetsLoop result pipe with
  | case1 result pipe hgo ih =>
    refine ih ?_
    cases (fgets newline bufsize pipe).1 with
    | none => exact h
    | some line =>
      rw [addLine, List.mem_append, not_or]
      exact ⟨h, zero_not_mem_cstr _⟩
  | case2 result pipe hstop => exact h

/-- The alternatives of the pattern together remove every carriage return and every line feed. -/
theorem removeEol_eq (s : Bytes) : removeEol s = withoutEol s := by
  fun_induction removeEol s with
  | case1 => rfl
  | case2 c hc => rcases hc with rfl | rfl <;> rfl
  | case3 c hc =>
    rw [not_or] at hc
    simp [withoutEol, hc]
  | case4 c d l hcd ih =>
    obtain ⟨rfl, rfl⟩ := hcd
    rw [ih]
    rfl
  | case5 c d l hcd hc ih =>
    rw [ih, withoutEol, withoutEol, List.filter_cons (x := c), if_neg]
    rcases hc with rfl | rfl <;> decide
  | case6 c d l hcd hc ih =>
    rw [not_or] at hc
    rw [ih, withoutEol, withoutEol, List.filter_cons (x := c), if_pos]
    exact decide_eq_true hc

theorem zero_mem_withoutEol {s : Bytes} : (0 : UInt8) ∈ withoutEol s ↔ (0 : UInt8) ∈ s := by
  have hne : (0 : UInt8) ≠ cr ∧ (0 : UInt8) ≠ newline := by decide
  simp [withoutEol, hne]

theorem mergestateInto_eq {stateSlice : Bytes} {child : ChildRun}
    (h : popen (cstr (mergestateIntoCmd stateSlice)) = some child) :
    mergestateInto popen stateSlice [] = some (child.ends.waitStatus, withoutEol child.out) := by
  rw [mergestateInto, h, Option.map_some, freadLoop_eq, removeEol_eq, List.nil_append]

theorem mergestate_eq {arguments : Bytes} {child : ChildRun}
    (h : popen (cstr (mergestateCmd arguments)) = some child) (h0 : (0 : UInt8) ∉ child.out) :
    mergestate popen arguments = some (withoutEol child.out) := by
  rw [mergestate, h, Option.map_some, fgetsLoop_eq [] _ h0 (fun e => by cases e), removeEol_eq,
    List.nil_append]

/-- `optMergeState` returns what it has read, unless the wait status is `EXIT_FAILURE`. -/
theorem optMergeState_eq {arguments : Bytes} {child : ChildRun}
    (h : popen (cstr (optMergeStateCmd arguments)) = some child) :
    optMergeState popen arguments =
      if child.ends.waitStatus = EXIT_FAILURE then none
      else some (withoutEol (fgetsLoop [] ⟨child.out, false⟩)) := by
  rw [optMergeState, h]
  dsimp only
  rw [removeEol_eq]
  split_ifs with h1 h2 h2
  · rw [h1] at h2
    cases h2
  · rfl
  · rfl
  · rfl

/-- **The three readers agree.** Whatever the child writes, if it has no null character in it, they
end and give it without its carriage returns and line feeds; `optMergeState` does so unless the wait
status is `EXIT_FAILURE`, and then has no value. -/
theorem merge_readers_agree (popen : Bytes → Option ChildRun)
    (stateSlice arguments arguments' : Bytes)
    (out : Bytes) (e₁ e₂ e₃ : ChildEnd) (h0 : (0 : UInt8) ∉ out)
    (h₁ : popen (cstr (mergestateIntoCmd stateSlice)) = some ⟨out, e₁⟩)
    (h₂ : popen (cstr (mergestateCmd arguments)) = some ⟨out, e₂⟩)
    (h₃ : popen (cstr (optMergeStateCmd arguments')) = some ⟨out, e₃⟩) :
    mergestateInto popen stateSlice [] = some (e₁.waitStatus, withoutEol out) ∧
      mergestate popen arguments = some (withoutEol out) ∧
      optMergeState popen arguments' =
        if e₃.waitStatus = EXIT_FAILURE then none else some (withoutEol out) := by
  refine ⟨mergestateInto_eq h₁, mergestate_eq h₂ h0, ?_⟩
  rw [optMergeState_eq h₃, fgetsLoop_eq [] _ h0 (fun e => by cases e), List.nil_append]

/-- A `popen` whose child is `child`, whatever the command line. -/
def alwaysRuns (child : ChildRun) (_ : Bytes) : Option ChildRun := some child

/-- The child writes `a`, a carriage return, a line feed and `b`. -/
theorem merge_readers_agree_crlf :
    (0 : UInt8) ∉ ([97, cr, newline, 98] : Bytes) ∧
      mergestateInto (alwaysRuns ⟨[97, cr, newline, 98], .exited 0⟩) [] [] = some (0, [97, 98]) ∧
      mergestate (alwaysRuns ⟨[97, cr, newline, 98], .exited 0⟩) [] = some [97, 98] ∧
      optMergeState (alwaysRuns ⟨[97, cr, newline, 98], .exited 0⟩) [] = some [97, 98] := by
  have h0 : (0 : UInt8) ∉ ([97, cr, newline, 98] : Bytes) := by decide
  obtain ⟨h₁, h₂, h₃⟩ := merge_readers_agree (alwaysRuns ⟨[97, cr, newline, 98], .exited 0⟩)
    [] [] [] [97, cr, newline, 98] (.exited 0) (.exited 0) (.exited 0) h0 rfl rfl rfl
  exact ⟨h0, h₁, h₂, h₃.trans (if_neg (by decide))⟩

/-! ### The command line and the shell -/

/-- The tokens before the argument of `echo`. -/
def sleepEcho (seconds : Bytes) : List Shell.Token :=
  [.word (Shell.unquoted (bytes ['s', 'l', 'e', 'e', 'p'])), .word (Shell.unquoted seconds),
    .op (bytes ['&', '&']), .word (Shell.unquoted (bytes ['e', 'c', 'h', 'o']))]

/-- The command line is `sleep seconds && echo s` with `s` as one literal argument. -/
def IsSleepEcho (seconds s cmd : Bytes) : Prop :=
  Shell.tokens cmd = some (sleepEcho seconds ++ [.word (Shell.quoted s)])

/-- What the shell has read of the command line before the state slice. -/
theorem feed_command {seconds : Bytes} (h : seconds = bytes ['1', '0'] ∨ seconds = bytes ['1']) :
    Shell.feed .unquoted .none (sleepText ++ seconds ++ echoText ++ [Shell.squote]) =
      some (sleepEcho seconds, .single, .word []) := by
  rcases h with rfl | rfl <;> rfl

/-- A single quote in the state slice ends the quotes, and the words come out shorter than the state
slice. -/
theorem isSleepEcho_iff {seconds : Bytes} (h : seconds = bytes ['1', '0'] ∨ seconds = bytes ['1'])
    (s : Bytes) : IsSleepEcho seconds s (mergeCommand seconds s) ↔ Shell.squote ∉ s := by
  have hlex : Shell.tokens (mergeCommand seconds s) =
      (Shell.lex .single (.word []) (s ++ [Shell.squote])).map (sleepEcho seconds ++ ·) := by
    rw [Shell.tokens, mergeCommand, List.append_assoc _ s, Shell.lex_append (feed_command h)]
  rw [IsSleepEcho, hlex, Option.map_eq_some_iff]
  constructor
  · rintro ⟨ts, hts, heq⟩ hmem
    obtain rfl : ts = [.word (Shell.quoted s)] := List.append_cancel_left heq
    obtain ⟨a, b, rfl, ha⟩ := List.eq_append_cons_of_mem hmem
    rw [List.append_assoc, List.cons_append, Shell.lex_single ha] at hts
    have hsize := Shell.lex_size hts
    simp only [Shell.totalSize_word, Shell.quoted, Shell.Mode.slack, Shell.Cur.size_word,
      List.length_map, List.length_append, List.length_cons, List.nil_append] at hsize
    omega
  · intro hs
    exact ⟨_, Shell.lex_single hs [] [], rfl⟩

theorem cstr_mergeCommand {seconds s : Bytes}
    (h : seconds = bytes ['1', '0'] ∨ seconds = bytes ['1'])
    (hs : (0 : UInt8) ∉ s) : cstr (mergeCommand seconds s) = mergeCommand seconds s := by
  refine cstr_eq_self ?_
  have h1 : (0 : UInt8) ∉ sleepText ++ seconds ++ echoText ++ [Shell.squote] := by
    rcases h with rfl | rfl <;> decide
  rw [mergeCommand, List.mem_append, List.mem_append]
  rintro ((hm | hm) | hm)
  · exact h1 hm
  · exact hs hm
  · cases hm with
    | tail _ hm => cases hm

/-- **A state slice is data exactly when it has no single quote in it.** That holds of each of the
three functions. -/
theorem state_slice_literal_iff (s : Bytes) (h : (0 : UInt8) ∉ s) :
    (IsSleepEcho (bytes ['1', '0']) s (cstr (mergestateIntoCmd s)) ↔ Shell.squote ∉ s) ∧
      (IsSleepEcho (bytes ['1']) s (cstr (mergestateCmd s)) ↔ Shell.squote ∉ s) ∧
      (IsSleepEcho (bytes ['1']) s (cstr (optMergeStateCmd s)) ↔ Shell.squote ∉ s) := by
  rw [mergestateIntoCmd, mergestateCmd, optMergeStateCmd, cstr_mergeCommand (Or.inl rfl) h,
    cstr_mergeCommand (Or.inr rfl) h]
  exact ⟨isSleepEcho_iff (Or.inl rfl) s, isSleepEcho_iff (Or.inr rfl) s,
    isSleepEcho_iff (Or.inr rfl) s⟩

theorem state_slice_literal_redirection :
    (0 : UInt8) ∉ bytes ['a', '>', 'b'] ∧
      IsSleepEcho (bytes ['1']) (bytes ['a', '>', 'b'])
        (cstr (optMergeStateCmd (bytes ['a', '>', 'b']))) := by
  have h : (0 : UInt8) ∉ bytes ['a', '>', 'b'] := by decide
  exact ⟨h, (state_slice_literal_iff (bytes ['a', '>', 'b']) h).2.2.2 (by decide)⟩

/-- The state slice `';x;'` adds a command. -/
def escapingSlice : Bytes := [39, 59, 120, 59, 39]

theorem state_slice_not_literal :
    (0 : UInt8) ∉ escapingSlice ∧
      Shell.tokens (cstr (optMergeStateCmd escapingSlice)) =
        some (sleepEcho (bytes ['1']) ++ [.word [], .op (bytes [';']),
          .word (Shell.unquoted (bytes ['x'])), .op (bytes [';']), .word []]) ∧
      ¬ IsSleepEcho (bytes ['1']) escapingSlice (cstr (optMergeStateCmd escapingSlice)) := by
  unfold IsSleepEcho
  decide

/-! ### The end of the child -/

/-- `SIGHUP`. -/
def sighup : ChildEnd := .signaled ⟨1, by decide⟩

/-- What `optMergeState` should say about a child: a value when it has exited with `0` and only
then, and all of its output. -/
structure ReportsEnd (child : ChildRun) (result : Option Bytes) : Prop where
  value_iff : result.isSome = true ↔ child.ends = .exited 0
  whole : ∀ v, result = some v → v = withoutEol child.out

/-- The wait status is `EXIT_FAILURE` for no exit code, but for a signal. -/
theorem waitStatus_eq_failure (e : ChildEnd) : e.waitStatus = EXIT_FAILURE ↔ e = sighup := by
  cases e with
  | exited code =>
    simp only [ChildEnd.waitStatus, EXIT_FAILURE, sighup, reduceCtorEq, iff_false]
    omega
  | signaled sig =>
    simp only [ChildEnd.waitStatus, EXIT_FAILURE, sighup, ChildEnd.signaled.injEq, Subtype.ext_iff]
    omega

/-- The lines keep all of the output exactly when there is no null character in it. -/
theorem withoutEol_fgetsLoop_iff (out : Bytes) :
    withoutEol (fgetsLoop [] ⟨out, false⟩) = withoutEol out ↔ (0 : UInt8) ∉ out := by
  constructor
  · intro h hmem
    rw [← zero_mem_withoutEol, ← h, zero_mem_withoutEol] at hmem
    exact zero_not_mem_fgetsLoop [] _ List.not_mem_nil hmem
  · intro h
    rw [fgetsLoop_eq [] _ h (fun e => by cases e), List.nil_append]

/-- **A child is reported exactly when it succeeds without a null character in its output, or is
killed by `SIGHUP`.** The wait status of a child that fails is never `EXIT_FAILURE`, except for that
signal. -/
theorem optMergeState_reports_iff (popen : Bytes → Option ChildRun) (arguments : Bytes)
    (child : ChildRun) (h : popen (cstr (optMergeStateCmd arguments)) = some child) :
    ReportsEnd child (optMergeState popen arguments) ↔
      (child.ends = .exited 0 ∧ (0 : UInt8) ∉ child.out) ∨ child.ends = sighup := by
  rw [optMergeState_eq h]
  by_cases hup : child.ends = sighup
  · rw [if_pos ((waitStatus_eq_failure _).2 hup)]
    refine ⟨fun _ => Or.inr hup, fun _ => ⟨?_, fun v hv => by cases hv⟩⟩
    simp [hup, sighup]
  · rw [if_neg (fun e => hup ((waitStatus_eq_failure _).1 e))]
    constructor
    · intro hrep
      exact Or.inl ⟨hrep.value_iff.1 rfl,
        (withoutEol_fgetsLoop_iff child.out).1 (hrep.whole _ rfl)⟩
    · rintro (⟨hend, hout⟩ | hend)
      · refine ⟨⟨fun _ => hend, fun _ => rfl⟩, fun v hv => ?_⟩
        cases hv
        exact (withoutEol_fgetsLoop_iff child.out).2 hout
      · exact absurd hend hup

theorem optMergeState_reports_success :
    ReportsEnd ⟨[97, newline], .exited 0⟩
        (optMergeState (alwaysRuns ⟨[97, newline], .exited 0⟩) []) ∧
      ReportsEnd ⟨[97], sighup⟩ (optMergeState (alwaysRuns ⟨[97], sighup⟩) []) :=
  ⟨(optMergeState_reports_iff (alwaysRuns ⟨[97, newline], .exited 0⟩) [] _ rfl).2 (by decide),
    (optMergeState_reports_iff (alwaysRuns ⟨[97], sighup⟩) [] _ rfl).2 (Or.inr rfl)⟩

/-- A child that exits with `1`: the wait status is `256`, and its empty output is returned. -/
theorem optMergeState_hides_failure :
    optMergeState (alwaysRuns ⟨[], .exited 1⟩) [] = some [] ∧
      ¬ ReportsEnd ⟨[], .exited 1⟩ (optMergeState (alwaysRuns ⟨[], .exited 1⟩) []) := by
  have hval : optMergeState (alwaysRuns ⟨[], .exited 1⟩) [] = some [] := by
    rw [optMergeState_eq rfl, if_neg (by decide),
      fgetsLoop_eq [] _ List.not_mem_nil (fun _ => rfl)]
    rfl
  refine ⟨hval, fun hrep => ?_⟩
  have hend := hrep.value_iff.1 (by rw [hval]; rfl)
  cases hend

end EpollCoroutine
