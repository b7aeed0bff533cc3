import Mathlib.Tactic

/-!
# Tokens of a shell command line

Token recognition of a POSIX shell on bytes: blanks and operators delimit words, and characters are
quoted by a backslash, by single quotes and by double quotes. Quoting characters are removed, and
every character of a word carries whether it was quoted: a quoted character stands for itself.

* `lex`: the tokens of a text, from a mode and the token begun so far; `tokens` starts between
  tokens. A text that ends inside quotes has none. An expansion (`$` or a backquote outside single
  quotes) is code in any case, and the text from there on is left as it is.
* `feed`: reading a text that goes on; `lex_append` takes a text apart into what has been read and
  the rest.
* `lex_single`: inside single quotes, everything up to the next single quote is one quoted piece.
* `lex_size`: the characters of the words are characters of the text; a text that ends in a single
  quote has one that is not.

Here-documents, which begin on a later line, are not recognised.
-/

namespace Shell

/-- The single quote. -/
def squote : UInt8 := 39

/-- The double quote. -/
def dquote : UInt8 := 34

/-- The backslash. -/
def backslash : UInt8 := 92

/-- The end of a line. -/
def newline : UInt8 := 10

/-- The blanks: space and tab. -/
def blanks : List UInt8 := [32, 9]

/-- The dollar sign and the backquote. -/
def expansions : List UInt8 := [36, 96]

/-- The number sign, which begins a comment. -/
def hash : UInt8 := 35

/-- The control and redirection operators:
`& | ; < > ( ) && || ;; << >> <& >& <> >| <<-`. -/
def operators : List (List UInt8) :=
  [[38], [124], [59], [60], [62], [40], [41], [38, 38], [124, 124], [59, 59], [60, 60], [62, 62],
    [60, 38], [62, 38], [60, 62], [62, 124], [60, 60, 45]]

/-- The characters of a word after quote removal, each with whether it was quoted. -/
abbrev Word := List (UInt8 × Bool)

/-- A token. `expansion w rest`: an expansion begins after the characters `w` of a word, and `rest`
is the text from there on. -/
inductive Token
  | word (w : Word)
  | op (o : List UInt8)
  | newline
  | expansion (w : Word) (rest : List UInt8)
  deriving DecidableEq

/-- How the next character is read. -/
inductive Mode
  | unquoted
  | escape
  | single
  | double
  | doubleEscape
  | comment
  deriving DecidableEq

/-- The token that has begun. -/
inductive Cur
  | none
  | word (w : Word)
  | op (o : List UInt8)
  deriving DecidableEq

namespace Cur

/-- The token is delimited. -/
def finish : Cur → List Token
  | .none => []
  | .word w => [.word w]
  | .op o => [.op o]

/-- The tokens before the word that a character begins or continues. -/
def before : Cur → List Token
  | .op o => [.op o]
  | _ => []

/-- The characters so far of the word that a character begins or continues. -/
def chars : Cur → Word
  | .word w => w
  | _ => []

/-- Whether a word has begun. -/
def inWord : Cur → Bool
  | .word _ => true
  | _ => false

/-- The operator that the character continues, if it does. -/
def extend (cur : Cur) (c : UInt8) : Option Cur :=
  match cur with
  | .op o => if o ++ [c] ∈ operators then some (.op (o ++ [c])) else Option.none
  | _ => Option.none

/-- A word goes on with the character `c`. -/
def add (cur : Cur) (c : UInt8) (quoted : Bool) : Cur := .word (cur.chars ++ [(c, quoted)])

end Cur

/-- What a character does: tokens are delimited and the text goes on, or it is not read further. -/
inductive Next
  | go (out : List Token) (m : Mode) (cur : Cur)
  | stop (out : List Token)

/-- A character outside quotes that does not continue an operator; `l` is the text after it. -/
def plain (cur : Cur) (c : UInt8) (l : List UInt8) : Next :=
  if c = squote then .go cur.before .single (.word cur.chars)
  else if c = dquote then .go cur.before .double (.word cur.chars)
  else if c ∈ expansions then .stop (cur.before ++ [.expansion cur.chars (c :: l)])
  else if [c] ∈ operators then .go cur.finish .unquoted (.op [c])
  else if c = newline then .go (cur.finish ++ [.newline]) .unquoted .none
  else if c ∈ blanks then .go cur.finish .unquoted .none
  else if c = hash ∧ cur.inWord = false then .go cur.before .comment .none
  else .go cur.before .unquoted (cur.add c false)

/-- One character; `l` is the text after it. A line continuation, a backslash and a newline, is
removed. Between double quotes a backslash quotes only the dollar sign, the backquote, the double
quote and itself. -/
def step (m : Mode) (cur : Cur) (c : UInt8) (l : List UInt8) : Next :=
  match m with
  | .unquoted =>
    if c = backslash then .go [] .escape cur
    else
      match cur.extend c with
      | some cur' => .go [] .unquoted cur'
      | none => plain cur c l
  | .escape =>
    if c = newline then .go [] .unquoted cur else .go cur.before .unquoted (cur.add c true)
  | .single => if c = squote then .go [] .unquoted cur else .go [] .single (cur.add c true)
  | .double =>
    if c = dquote then .go [] .unquoted cur
    else if c = backslash then .go [] .doubleEscape cur
    else if c ∈ expansions then .stop [.expansion cur.chars (c :: l)]
    else .go [] .double (cur.add c true)
  | .doubleEscape =>
    if c = newline then .go [] .double cur
    else if c ∈ expansions ∨ c = dquote ∨ c = backslash then .go [] .double (cur.add c true)
    else .go [] .double ((cur.add backslash true).add c true)
  | .comment =>
    if c = newline then .go [.newline] .unquoted .none else .go [] .comment cur

/-- The end of the text. -/
def atEnd (m : Mode) (cur : Cur) : Option (List Token) :=
  match m with
  | .unquoted | .comment => some cur.finish
  | .escape => some (cur.before ++ (cur.add backslash true).finish)
  | .single | .double | .doubleEscape => none

/-- The tokens of a text, from a mode and the token that has begun. -/
def lex (m : Mode) (cur : Cur) : List UInt8 → Option (List Token)
  | [] => atEnd m cur
  | c :: l =>
    match step m cur c l with
    | .go out m' cur' => (lex m' cur' l).map (out ++ ·)
    | .stop out => some out

/-- The tokens of a command line. -/
def tokens (l : List UInt8) : Option (List Token) := lex .unquoted .none l

/-! ### Reading on -/

/-- What has been read of a text that goes on: the tokens delimited so far, the mode, and the token
that has begun. -/
def feed (m : Mode) (cur : Cur) : List UInt8 → Option (List Token × Mode × Cur)
  | [] => some ([], m, cur)
  | c :: l =>
    match step m cur c [] with
    | .go out m' cur' => (feed m' cur' l).map fun x => (out ++ x.1, x.2)
    | .stop _ => none

theorem plain_go {m : Mode} {cur cur' : Cur} {c : UInt8} {l : List UInt8} {out : List Token}
    (h : plain cur c l = .go out m cur') (l' : List UInt8) : plain cur c l' = .go out m cur' := by
  unfold plain at h ⊢
  split_ifs at h ⊢ <;> exact h

/-- Text further on does not change what a character does. -/
theorem step_go {m m' : Mode} {cur cur' : Cur} {c : UInt8} {l : List UInt8} {out : List Token}
    (h : step m cur c l = .go out m' cur') (l' : List UInt8) :
    step m cur c l' = .go out m' cur' := by
  cases m with
  | unquoted =>
    simp only [step] at h ⊢
    split_ifs at h ⊢
    · exact h
    · split at h
      · exact h
      · exact plain_go h l'
  | double =>
    simp only [step] at h ⊢
    split_ifs at h ⊢ <;> exact h
  | escape | single | doubleEscape | comment => exact h

/-- The tokens of a text after what has been read of it. -/
theorem lex_append {m m' : Mode} {cur cur' : Cur} {p : List UInt8} {out : List Token}
    (h : feed m cur p = some (out, m', cur')) (l : List UInt8) :
    lex m cur (p ++ l) = (lex m' cur' l).map (out ++ ·) := by
  induction p generalizing m cur out with
  | nil =>
    cases h
    simp
  | cons c p ih =>
    rw [feed] at h
    split at h
    · rename_i out₁ m₁ cur₁ hstep
      obtain ⟨⟨out₂, x⟩, hfeed, heq⟩ := Option.map_eq_some_iff.1 h
      cases heq
      rw [List.cons_append, lex, step_go hstep (p ++ l)]
      simp only [ih hfeed, Option.map_map]
      congr 1
      funext ts
      simp
    · cases h

/-! ### Single quotes -/

/-- Text of which every character is quoted. -/
def quoted (s : List UInt8) : Word := s.map fun c => (c, true)

/-- Text of which no character is quoted. -/
def unquoted (s : List UInt8) : Word := s.map fun c => (c, false)

theorem lex_cons_go {m m' : Mode} {cur cur' : Cur} {c : UInt8} {l : List UInt8} {out : List Token}
    (h : step m cur c l = .go out m' cur') :
    lex m cur (c :: l) = (lex m' cur' l).map (out ++ ·) := by
  rw [lex, h]

theorem lex_cons_go_nil {m m' : Mode} {cur cur' : Cur} {c : UInt8} {l : List UInt8}
    (h : step m cur c l = .go [] m' cur') : lex m cur (c :: l) = lex m' cur' l := by
  rw [lex_cons_go h]
  simp

/-- A text without single quotes is one quoted piece of the word. -/
theorem lex_single {s : List UInt8} (h : squote ∉ s) (w : Word) (l : List UInt8) :
    lex .single (.word w) (s ++ squote :: l) = lex .unquoted (.word (w ++ quoted s)) l := by
  induction s generalizing w with
  | nil =>
    have hstep : step .single (.word w) squote l = .go [] .unquoted (.word w) := by simp [step]
    rw [List.nil_append, lex_cons_go_nil hstep]
    simp [quoted]
  | cons c s ih =>
    simp only [List.mem_cons, not_or] at h
    have hstep : step .single (.word w) c (s ++ squote :: l) =
        .go [] .single (.word (w ++ [(c, true)])) := by
      simp [step, Ne.symm h.1, Cur.add, Cur.chars]
    rw [List.cons_append, lex_cons_go_nil hstep, ih h.2]
    simp [quoted]

/-! ### Sizes -/

/-- The number of characters of a word. -/
def Token.size : Token → ℕ
  | .word w => w.length
  | .expansion w _ => w.length
  | _ => 0

/-- The number of characters of the words in a list of tokens. -/
def totalSize (ts : List Token) : ℕ := (ts.map Token.size).sum

/-- The number of characters of the word that has begun. -/
def Cur.size (cur : Cur) : ℕ := cur.chars.length

/-- After a backslash one character of the text is already missing from the words. -/
def Mode.slack : Mode → ℕ
  | .escape | .doubleEscape => 0
  | _ => 1

@[simp] theorem totalSize_nil : totalSize [] = 0 := rfl

@[simp] theorem totalSize_append (a b : List Token) :
    totalSize (a ++ b) = totalSize a + totalSize b := by
  simp [totalSize]

@[simp] theorem totalSize_word (w : Word) : totalSize [.word w] = w.length := rfl

@[simp] theorem totalSize_newline : totalSize [.newline] = 0 := rfl

@[simp] theorem totalSize_expansion (w : Word) (rest : List UInt8) :
    totalSize [.expansion w rest] = w.length := rfl

namespace Cur

variable (cur : Cur)

@[simp] theorem totalSize_before : totalSize cur.before = 0 := by
  cases cur <;> rfl

@[simp] theorem totalSize_finish : totalSize cur.finish = cur.size := by
  cases cur <;> rfl

@[simp] theorem size_none : Cur.none.size = 0 := rfl

@[simp] theorem size_word (w : Word) : (Cur.word w).size = w.length := rfl

@[simp] theorem size_op (o : List UInt8) : (Cur.op o).size = 0 := rfl

@[simp] theorem length_chars : cur.chars.length = cur.size := rfl

@[simp] theorem size_add (c : UInt8) (q : Bool) : (cur.add c q).size = cur.size + 1 := by
  simp [add]

variable {cur}

theorem extend_size {cur' : Cur} {c : UInt8} (h : cur.extend c = some cur') : cur'.size = 0 := by
  cases cur with
  | op o =>
    simp only [extend] at h
    split_ifs at h
    cases h
    rfl
  | none | word w => cases h

theorem extend_squote : cur.extend squote = Option.none := by
  have hall : ∀ o ∈ operators, o.getLast? ≠ some squote := by decide
  cases cur with
  | op o =>
    simp only [extend]
    rw [if_neg]
    intro hmem
    exact hall _ hmem (by simp)
  | none | word w => rfl

end Cur

theorem plain_go_size {m : Mode} {cur cur' : Cur} {c : UInt8} {l : List UInt8} {out : List Token}
    (h : plain cur c l = .go out m cur') : totalSize out + cur'.size ≤ cur.size + m.slack := by
  unfold plain at h
  split_ifs at h <;> cases h <;> simp [Mode.slack]

theorem plain_stop_size {cur : Cur} {c : UInt8} {l : List UInt8} {out : List Token}
    (h : plain cur c l = .stop out) : totalSize out ≤ cur.size := by
  unfold plain at h
  split_ifs at h
  cases h
  simp

/-- A character of the text is at most one character of a word; a backslash is none. -/
theorem step_go_size {m m' : Mode} {cur cur' : Cur} {c : UInt8} {l : List UInt8} {out : List Token}
    (h : step m cur c l = .go out m' cur') :
    totalSize out + cur'.size + m.slack ≤ cur.size + 1 + m'.slack := by
  cases m with
  | unquoted =>
    simp only [step] at h
    split_ifs at h
    · cases h
      simp [Mode.slack]
    · split at h
      · rename_i hext
        cases h
        simp [Mode.slack, Cur.extend_size hext]
      · have hp := plain_go_size h
        simp only [Mode.slack] at hp ⊢
        omega
  | escape | single | double | doubleEscape | comment =>
    simp only [step] at h
    split_ifs at h <;> cases h <;> simp [Mode.slack] <;> omega

theorem step_stop_size {m : Mode} {cur : Cur} {c : UInt8} {l : List UInt8} {out : List Token}
    (h : step m cur c l = .stop out) : totalSize out ≤ cur.size := by
  cases m with
  | unquoted =>
    simp only [step] at h
    split_ifs at h
    split at h
    · cases h
    · exact plain_stop_size h
  | double =>
    simp only [step] at h
    split_ifs at h
    cases h
    simp
  | escape | single | doubleEscape | comment =>
    simp only [step] at h
    split_ifs at h

/-- A text that ends at a single quote: the quote is removed, quoted by a backslash, or it leaves
quotes open. -/
theorem lex_squote_size {m : Mode} {cur : Cur} {ts : List Token}
    (h : lex m cur [squote] = some ts) : totalSize ts + m.slack ≤ cur.size + 1 := by
  cases m with
  | unquoted =>
    have hstep : step .unquoted cur squote [] = .go cur.before .single (.word cur.chars) := by
      rw [step, if_neg (by decide), Cur.extend_squote]
      rfl
    rw [lex_cons_go hstep] at h
    cases h
  | escape =>
    have hstep : step .escape cur squote [] = .go cur.before .unquoted (cur.add squote true) := rfl
    rw [lex_cons_go hstep] at h
    cases h
    simp [Mode.slack]
  | single | comment =>
    have hend : some cur.finish = some ts := by rw [← h, lex_cons_go_nil rfl]; rfl
    cases hend
    simp [Mode.slack]
  | double | doubleEscape =>
    rw [lex_cons_go_nil rfl] at h
    cases h

/-- **A text that ends in a single quote is longer than its words.** -/
theorem lex_size {m : Mode} {cur : Cur} {l : List UInt8} {ts : List Token}
    (h : lex m cur (l ++ [squote]) = some ts) :
    totalSize ts + m.slack ≤ cur.size + l.length + 1 := by
  induction l generalizing m cur ts with
  | nil => exact lex_squote_size h
  | cons c l ih =>
    rw [List.cons_append, lex] at h
    split at h
    · rename_i out m' cur' hstep
      obtain ⟨ts', hts', rfl⟩ := Option.map_eq_some_iff.1 h
      have hs := step_go_size hstep
      have hrest := ih hts'
      rw [totalSize_append, List.length_cons]
      omega
    · rename_i out hstep
      cases h
      have hs := step_stop_size hstep
      have hslack : m.slack ≤ 1 := by cases m <;> simp [Mode.slack]
      omega

end Shell
