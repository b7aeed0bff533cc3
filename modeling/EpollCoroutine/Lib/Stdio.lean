import Mathlib.Tactic

/-!
# Reading a stream

The buffered input of C as far as a reader of a whole stream sees it: what is left to read, and the
end-of-file indicator, which only a read that wanted more than there was sets. There are no read
errors.

* `fread`: a block of up to `n` characters.
* `fgets`: up to `n - 1` characters of a line, its end `nl` included; nothing at the end of file.
* `Stream.toRead`: what a loop `while (!feof(s))` around `fgets` uses up (`fgets_toRead_lt`).
-/

namespace Stdio

/-- An input stream. -/
structure Stream (α : Type*) where
  rest : List α
  eof : Bool := false

variable {α : Type*}

/-- `fread(buffer, 1, n, s)`: the characters read, and the stream afterwards. -/
def fread (n : ℕ) (s : Stream α) : List α × Stream α :=
  (s.rest.take n, ⟨s.rest.drop n, s.eof || s.rest.length < n⟩)

theorem fread_append (n : ℕ) (s : Stream α) : (fread n s).1 ++ (fread n s).2.rest = s.rest :=
  List.take_append_drop n s.rest

/-- A block that is not empty is progress. -/
theorem fread_rest_lt {n : ℕ} {s : Stream α} (h : 0 < (fread n s).1.length) :
    (fread n s).2.rest.length < s.rest.length := by
  have hlen := congrArg List.length (fread_append n s)
  rw [List.length_append] at hlen
  omega

/-- Only the end of file gives an empty block. -/
theorem fread_eq_nil {n : ℕ} (hn : 0 < n) {s : Stream α} (h : (fread n s).1 = []) :
    s.rest = [] := by
  rcases List.take_eq_nil_iff.1 h with h0 | hnil
  · exact absurd h0 hn.ne'
  · exact hnil

variable [DecidableEq α] (nl : α)

/-- Up to `m` characters of a list, to the first `nl`. -/
def takeLine : ℕ → List α → List α
  | 0, _ => []
  | _ + 1, [] => []
  | m + 1, c :: l => if c = nl then [c] else c :: takeLine m l

/-- The line read by `fgets` was cut neither by the bound nor by `nl`. -/
def hitEnd (n : ℕ) (line : List α) : Bool := line.length < n - 1 ∧ line.getLast? ≠ some nl

/-- `fgets(buffer, n, s)`: the characters stored before the terminating null character, `none` for
`NULL`; and the stream afterwards. -/
def fgets (n : ℕ) (s : Stream α) : Option (List α) × Stream α :=
  let line := takeLine nl (n - 1) s.rest
  if line = [] ∧ 1 < n then (none, { s with eof := true })
  else (some line, ⟨s.rest.drop line.length, s.eof || hitEnd nl n line⟩)

variable {nl}

theorem takeLine_append_drop (m : ℕ) (l : List α) :
    takeLine nl m l ++ l.drop (takeLine nl m l).length = l := by
  induction m generalizing l with
  | zero => simp [takeLine]
  | succ m ih =>
    cases l with
    | nil => rfl
    | cons c l =>
      rw [takeLine]
      split_ifs
      · simp
      · simpa using ih l

theorem takeLine_eq_nil {m : ℕ} {l : List α} (hm : 0 < m) : takeLine nl m l = [] ↔ l = [] := by
  obtain ⟨m, rfl⟩ := Nat.exists_eq_succ_of_ne_zero hm.ne'
  cases l with
  | nil => simp [takeLine]
  | cons c l =>
    rw [takeLine]
    split_ifs <;> simp

/-- A line that was cut neither by the bound nor by `nl` is all that there was. -/
theorem takeLine_eq_self {m : ℕ} {l : List α} (hm : (takeLine nl m l).length < m)
    (hl : (takeLine nl m l).getLast? ≠ some nl) : takeLine nl m l = l := by
  induction m generalizing l with
  | zero => simp at hm
  | succ m ih =>
    cases l with
    | nil => rfl
    | cons c l =>
      rw [takeLine] at hm hl ⊢
      split_ifs at hm hl ⊢ with hc
      · simp [hc] at hl
      · rw [ih (by simpa using hm)]
        intro hlast
        rw [List.getLast?_cons, hlast] at hl
        simp at hl

variable (nl) {n : ℕ} {s : Stream α}

/-- At the end of file. -/
theorem fgets_nil (hn : 1 < n) (h : s.rest = []) :
    fgets nl n s = (none, { s with eof := true }) := by
  have hline : takeLine nl (n - 1) s.rest = [] := (takeLine_eq_nil (by omega)).2 h
  rw [fgets, if_pos ⟨hline, hn⟩]

/-- Before it: a piece is read, and the end-of-file indicator comes on only when nothing is left. -/
theorem fgets_some (hn : 1 < n) (h : s.rest ≠ []) :
    ∃ line t eof, line ≠ [] ∧ s.rest = line ++ t ∧ fgets nl n s = (some line, ⟨t, eof⟩) ∧
      (eof = true → s.eof = true ∨ t = []) := by
  have hline : takeLine nl (n - 1) s.rest ≠ [] := fun e => h ((takeLine_eq_nil (by omega)).1 e)
  have hgets : fgets nl n s = (some (takeLine nl (n - 1) s.rest),
      ⟨s.rest.drop (takeLine nl (n - 1) s.rest).length,
        s.eof || hitEnd nl n (takeLine nl (n - 1) s.rest)⟩) :=
    if_neg fun e => hline e.1
  refine ⟨_, _, _, hline, (takeLine_append_drop (n - 1) s.rest).symm, hgets, fun he => ?_⟩
  rcases Bool.or_eq_true_iff.1 he with he | he
  · exact Or.inl he
  · obtain ⟨hlt, hlast⟩ := of_decide_eq_true he
    exact Or.inr (by rw [takeLine_eq_self hlt hlast, List.drop_length])

/-- What a reader that stops at the end-of-file indicator has before it. -/
def Stream.toRead (s : Stream α) : ℕ := 2 * s.rest.length + if s.eof then 0 else 1

/-- Every call of `fgets` before the end-of-file indicator is progress. -/
theorem fgets_toRead_lt (hn : 1 < n) (h : s.eof = false) :
    (fgets nl n s).2.toRead < s.toRead := by
  by_cases hrest : s.rest = []
  · rw [fgets_nil nl hn hrest]
    simp [Stream.toRead, h]
  · obtain ⟨line, t, eof, hne, happ, hgets, -⟩ := fgets_some nl hn hrest
    have hpos : 0 < line.length := List.length_pos_iff.2 hne
    have hflag : (if eof then 0 else 1) ≤ 1 := by split_ifs <;> omega
    rw [hgets]
    simp only [Stream.toRead, happ, List.length_append, h, Bool.false_eq_true, if_false]
    omega

end Stdio
