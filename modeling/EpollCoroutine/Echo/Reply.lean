import Mathlib.Data.List.DropRight
import EpollCoroutine.Echo.Data

/-!
# What `echo_loop` sends back

The two loops of `echo_loop` over the results of their system calls, and `client_socket_handler`
over the results of `recv`.

* `readLoop`: the loop over `readpipe`. Each result comes with the value of `doneReading()` that the
  loop condition sees after it.
* `sendRun`: the loop over `send`; `ans i n` is the answer of the `i`-th call to a request of `n`
  bytes.
* `echo_reply_iff`: when the child prints `cat` and a newline and then echoes the request, the
  reply is the request exactly when no read stops the loop early: a read loop that is meant to run
  to the end of file also stops after any read that does not end in a newline.
* `replyTo`, `replyTo_eq_iff`: what a child that prints some text first and then echoes its input
  makes of the text of one `recv`, and which two texts it makes the same of.
* `reply_eq_iff`: only the first `recv` of a connection for which the child prints something is
  answered, so the reply depends on where the kernel cut the request.
-/

namespace EpollCoroutine

/-! ### The loops -/

/-- How the read loop ends. -/
inductive ReadOutcome
  | waiting
  | thrown
  | left (v : EchoVars)
  deriving DecidableEq

/-- The read loop over the successive results of `readpipe`. -/
def readLoop (after : Bytes) : EchoVars → List (ReadResult × Bool) → ReadOutcome
  | _, [] => .waiting
  | v, (r, doneReading) :: rs =>
    match v.readBody r after with
    | none => .thrown
    | some v' => if v'.readAgain r doneReading then readLoop after v' rs else .left v'

/-- The state of the send loop: its counter, and the bytes that `send` has accepted. -/
structure SendState where
  nbSend : ℕ
  accepted : Bytes
  deriving DecidableEq

/-- One iteration of the send loop over `merged`; nothing happens once the loop has ended. -/
def sendIter (ans : ℕ → ℕ → Option ℕ) (merged : Bytes) (i : ℕ) (st : SendState) : SendState :=
  let v : EchoVars := { merged := merged, nbSend := st.nbSend }
  if v.sendMore then
    let res := ans i (merged.length - st.nbSend)
    { nbSend := (v.sent res).nbSend
      accepted := st.accepted ++ (merged.drop st.nbSend).take (res.getD 0) }
  else st

/-- The send loop after `k` iterations. -/
def sendRun (ans : ℕ → ℕ → Option ℕ) (merged : Bytes) : ℕ → SendState
  | 0 => ⟨0, []⟩
  | k + 1 => sendIter ans merged k (sendRun ans merged k)

/-- The send loop over `merged` ends, and `send` has accepted `out`. -/
def Sends (ans : ℕ → ℕ → Option ℕ) (merged out : Bytes) : Prop :=
  ∃ k, merged.length ≤ (sendRun ans merged k).nbSend ∧ (sendRun ans merged k).accepted = out

/-- Every answer is a positive count of at most the request. -/
def Positive (ans : ℕ → ℕ → Option ℕ) : Prop :=
  ∀ i n, 0 < n → ∃ k, ans i n = some k ∧ 0 < k ∧ k ≤ n

/-! ### The send loop -/

/-- With positive answers the loop sends a growing prefix, at least one byte an iteration. -/
theorem sendRun_positive {ans : ℕ → ℕ → Option ℕ} (hans : Positive ans) {merged : Bytes}
    (hm : merged.length < 2 ^ 64) (k : ℕ) :
    (sendRun ans merged k).nbSend ≤ merged.length ∧
      (sendRun ans merged k).accepted = merged.take (sendRun ans merged k).nbSend ∧
      min k merged.length ≤ (sendRun ans merged k).nbSend := by
  induction k with
  | zero => simp [sendRun]
  | succ k ih =>
    obtain ⟨h1, h2, h3⟩ := ih
    rw [sendRun, sendIter]
    generalize sendRun ans merged k = st at h1 h2 h3 ⊢
    by_cases hlt : st.nbSend < merged.length
    · obtain ⟨n, hn, hpos, hle⟩ := hans k (merged.length - st.nbSend) (by omega)
      have hmod : (st.nbSend + n) % 2 ^ 64 = st.nbSend + n := Nat.mod_eq_of_lt (by omega)
      simp only [EchoVars.sendMore, hlt, decide_true, if_true, hn, EchoVars.sent, Option.getD_some,
        hmod]
      refine ⟨by omega, ?_, by omega⟩
      rw [h2, List.take_add]
    · simp only [EchoVars.sendMore, hlt, decide_false, Bool.false_eq_true, if_false]
      exact ⟨h1, h2, by omega⟩

/-- With positive answers the loop ends, and it has sent exactly `merged`. -/
theorem sends_iff {ans : ℕ → ℕ → Option ℕ} (hans : Positive ans) {merged out : Bytes}
    (hm : merged.length < 2 ^ 64) : Sends ans merged out ↔ out = merged := by
  constructor
  · rintro ⟨k, hend, rfl⟩
    obtain ⟨-, h2, -⟩ := sendRun_positive hans hm k
    rw [h2, List.take_of_length_le hend]
  · rintro rfl
    obtain ⟨h1, h2, h3⟩ := sendRun_positive hans hm out.length
    have h4 : out.length ≤ (sendRun ans out out.length).nbSend := by simpa using h3
    exact ⟨out.length, h4, by rw [h2, List.take_of_length_le h4]⟩

/-! ### The read loop over a stream -/

/-- What the child branch of `PipedAsyncCommand::init` prints for the command `cat`. -/
def banner : Bytes := [99, 97, 116, 10]

/-- The results of `readpipe` for a stream cut into chunks, each with the `doneReading()` seen after
it, and then its end of file. -/
def reads (chunks : List (Bytes × Bool)) (eof : Bool) : List (ReadResult × Bool) :=
  chunks.map (fun c => (ReadResult.bytes c.1, c.2)) ++ [(ReadResult.bytes [], eof)]

/-- The loop goes on after the chunk `c`. -/
def GoesOn (c : Bytes × Bool) : Prop := c.1.getLast? = some newline ∧ c.2 = false

instance (c : Bytes × Bool) : Decidable (GoesOn c) := inferInstanceAs (Decidable (_ ∧ _))

/-- The part of the stream that the loop reads: up to the first chunk after which it stops. -/
def consumed : List (Bytes × Bool) → Bytes
  | [] => []
  | c :: cs => if GoesOn c then c.1 ++ consumed cs else c.1

/-- The loop reads a chunk that fills the buffer. -/
def ReachesFull : List (Bytes × Bool) → Prop
  | [] => False
  | c :: cs => c.1.length = buffSize ∨ (GoesOn c ∧ ReachesFull cs)

/-- A chunk of text: not empty, no NUL, at most the buffer. -/
def Chunk (c : Bytes) : Prop := c ≠ [] ∧ (0 : UInt8) ∉ c ∧ c.length ≤ buffSize

/-- The variables after a turn of the read loop that has appended the text `t`. -/
def EchoVars.grow (v : EchoVars) (t : Bytes) (count : ℤ) : EchoVars :=
  { v with
    merged := v.merged ++ t
    endlconuter := if (v.merged ++ t).getLast? = some newline then 0 else 1
    recAmmount := v.recAmmount + count }

theorem readBody_grow {v : EchoVars} {r : ReadResult} {after t : Bytes}
    (ht : cstr (filled r.content ++ after) = t) (hv : v.endlconuter = 0)
    (hne : v.merged ++ t ≠ []) :
    v.readBody r after = some (v.grow t r.count) := by
  unfold EchoVars.readBody EchoVars.grow
  rw [ht]
  cases hl : (v.merged ++ t).getLast? with
  | none => exact absurd (List.getLast?_eq_none_iff.1 hl) hne
  | some c => by_cases hc : c = newline <;> simp [hc, hv]

theorem getLast?_append_chunk (l : Bytes) {c : Bytes} (hc : c ≠ []) :
    (l ++ c).getLast? = c.getLast? := by
  rw [List.getLast?_append]
  cases h : c.getLast? with
  | none => exact absurd (List.getLast?_eq_none_iff.1 h) hc
  | some x => rfl

theorem grow_endlconuter {v : EchoVars} {t : Bytes} {fl : Bool} {n : ℤ} (ht : t ≠ [])
    (hg : GoesOn (t, fl)) : (v.grow t n).endlconuter = 0 := by
  unfold EchoVars.grow
  rw [getLast?_append_chunk _ ht]
  exact if_pos hg.1

/-- One turn of the loop on a chunk whose text ends up as `t`. -/
theorem readLoop_cons (v : EchoVars) {c t : Bytes} (fl : Bool) (rs : List (ReadResult × Bool))
    {after : Bytes} (hc : c ≠ []) (ht : cstr (filled c ++ after) = t) (htne : t ≠ [])
    (hv : v.endlconuter = 0) :
    readLoop after v ((.bytes c, fl) :: rs) =
      if GoesOn (t, fl) then readLoop after (v.grow t c.length) rs
      else .left (v.grow t c.length) := by
  have hbody : v.readBody (.bytes c) after = some (v.grow t c.length) :=
    readBody_grow (r := .bytes c) ht hv (by simp [htne])
  have hend : (v.grow t c.length).endlconuter ≠ 1 ↔ t.getLast? = some newline := by
    unfold EchoVars.grow
    rw [getLast?_append_chunk _ htne]
    by_cases h : t.getLast? = some newline <;> simp [h]
  have hagain : (v.grow t c.length).readAgain (.bytes c) fl = true ↔ GoesOn (t, fl) := by
    simp [EchoVars.readAgain, ReadResult.count, hc, GoesOn, hend, and_comm]
  simp only [readLoop, hbody, hagain]

/-- If no chunk that is read fills the buffer, the loop ends with the part of the stream it has
read. -/
theorem readLoop_consumed (after : Bytes) {cs : List (Bytes × Bool)} (eof : Bool) {v : EchoVars}
    (hcs : ∀ c ∈ cs, Chunk c.1) (hfull : ¬ ReachesFull cs) (hv : v.endlconuter = 0)
    (hne : v.merged ≠ [] ∨ cs ≠ []) :
    ∃ v', readLoop after v (reads cs eof) = .left v' ∧ v'.merged = v.merged ++ consumed cs := by
  induction cs generalizing v with
  | nil =>
    have hm : v.merged ≠ [] := by simpa using hne
    have hbody : v.readBody (.bytes []) after = some (v.grow [] 0) :=
      readBody_grow (r := .bytes []) (cstr_filled (by decide) after) hv (by simpa using hm)
    refine ⟨v.grow [] 0, ?_, rfl⟩
    simp [reads, readLoop, hbody, EchoVars.readAgain, ReadResult.count]
  | cons c cs ih =>
    obtain ⟨c, fl⟩ := c
    obtain ⟨hc, h0, hlen⟩ := hcs _ List.mem_cons_self
    simp only [ReachesFull, not_or, not_and] at hfull hc h0 hlen
    have ht : cstr (filled c ++ after) = c := by
      rw [cstr_filled (by omega), cstr_eq_self h0]
    have hstep := readLoop_cons v fl (reads cs eof) hc ht hc hv
    by_cases hg : GoesOn (c, fl)
    · rw [if_pos hg] at hstep
      obtain ⟨v', hrun, hm⟩ := ih (v := v.grow c c.length)
        (fun x hx => hcs x (List.mem_cons_of_mem _ hx)) (hfull.2 hg) (grow_endlconuter hc hg)
        (Or.inl (by simp [EchoVars.grow, hc]))
      refine ⟨v', hstep.trans hrun, ?_⟩
      rw [hm, consumed, if_pos hg, EchoVars.grow, List.append_assoc]
    · rw [if_neg hg] at hstep
      exact ⟨v.grow c c.length, hstep, by rw [consumed, if_neg hg]; rfl⟩

/-- If a chunk that is read fills the buffer, a byte that follows the buffer ends up in `merged`. -/
theorem readLoop_full {cs : List (Bytes × Bool)} (eof : Bool) {v : EchoVars}
    (hcs : ∀ c ∈ cs, Chunk c.1) (hfull : ReachesFull cs) (hv : v.endlconuter = 0) :
    ∃ q t, (cs.map Prod.fst).flatten = q ++ t ∧ buffSize ≤ q.length ∧
      ∀ x : UInt8, x ≠ 0 → x ≠ newline →
        ∃ v', readLoop [x] v (reads cs eof) = .left v' ∧ v'.merged = v.merged ++ q ++ [x] := by
  induction cs generalizing v with
  | nil => exact absurd hfull (by simp [ReachesFull])
  | cons c cs ih =>
    obtain ⟨c, fl⟩ := c
    obtain ⟨hc, h0, hlen⟩ := hcs _ List.mem_cons_self
    simp only at hc h0 hlen
    by_cases hlast : c.length = buffSize
    · refine ⟨c, (cs.map Prod.fst).flatten, by simp, hlast.ge, fun x hx0 hxn => ?_⟩
      have ht : cstr (filled c ++ [x]) = c ++ [x] := by
        rw [cstr_filled_full hlast h0, cstr_eq_self (by simpa using hx0.symm)]
      have hstep := readLoop_cons v fl (reads cs eof) hc ht (by simp) hv
      have hg : ¬ GoesOn (c ++ [x], fl) := fun hg => by simpa [hxn] using hg.1
      rw [if_neg hg] at hstep
      exact ⟨_, hstep, by simp [EchoVars.grow]⟩
    · obtain ⟨hg, hrest⟩ : GoesOn (c, fl) ∧ ReachesFull cs := by
        rcases hfull with h | h
        · exact absurd h hlast
        · exact h
      obtain ⟨q, t, hq, hlen', hx⟩ := ih (v := v.grow c c.length)
        (fun x hx => hcs x (List.mem_cons_of_mem _ hx)) hrest (grow_endlconuter hc hg)
      refine ⟨c ++ q, t, by simp [hq], by simp; omega, fun x hx0 hxn => ?_⟩
      have ht : cstr (filled c ++ [x]) = c := by
        rw [cstr_filled (by omega), cstr_eq_self h0]
      have hstep := readLoop_cons v fl (reads cs eof) hc ht hc hv
      rw [if_pos hg] at hstep
      obtain ⟨v', hrun, hm⟩ := hx x hx0 hxn
      exact ⟨v', hstep.trans hrun, by rw [hm]; simp [EchoVars.grow]⟩

/-! ### One request -/

/-- After a `recv` of `m`, with these results of `readpipe` and these answers of `send`,
`echo_loop` sends back `out`. -/
def EchoReplies (after m : Bytes) (rs : List (ReadResult × Bool)) (ans : ℕ → ℕ → Option ℕ)
    (out : Bytes) : Prop :=
  ∃ v, readLoop after (.received m) rs = .left v ∧ Sends ans v.stripFirstLine.merged out

/-- No chunk stops the loop before the last one, and none fills the buffer. -/
def RunsToEnd (chunks : List (Bytes × Bool)) : Prop :=
  (∀ c ∈ chunks.dropLast, GoesOn c) ∧ ∀ c ∈ chunks, c.1.length < buffSize

/-- The first chunk stops inside the first line, and happens to be the whole of `data`. -/
def ShortFirst (chunks : List (Bytes × Bool)) (data : Bytes) : Prop :=
  ∃ c rest, chunks = c :: rest ∧ c.1.length < banner.length ∧ c.1 = data

theorem consumed_append (cs : List (Bytes × Bool)) :
    ∃ r, (cs.map Prod.fst).flatten = consumed cs ++ r := by
  induction cs with
  | nil => exact ⟨[], rfl⟩
  | cons c cs ih =>
    obtain ⟨r, hr⟩ := ih
    by_cases hg : GoesOn c
    · exact ⟨r, by simp [consumed, hg, hr]⟩
    · exact ⟨(cs.map Prod.fst).flatten, by simp [consumed, hg]⟩

/-- The loop reads the whole stream exactly when every chunk but the last lets it go on. -/
theorem consumed_eq_iff {cs : List (Bytes × Bool)} (hcs : ∀ c ∈ cs, c.1 ≠ []) :
    consumed cs = (cs.map Prod.fst).flatten ↔ ∀ c ∈ cs.dropLast, GoesOn c := by
  induction cs with
  | nil => simp [consumed]
  | cons c cs ih =>
    have ih := ih fun x hx => hcs x (List.mem_cons_of_mem _ hx)
    cases cs with
    | nil => by_cases hg : GoesOn c <;> simp [consumed, hg]
    | cons c' cs =>
      have hne : ((c' :: cs).map Prod.fst).flatten ≠ [] := by
        have := hcs c' (by simp)
        simp [this]
      by_cases hg : GoesOn c
      · rw [consumed, if_pos hg, List.map_cons, List.flatten_cons, List.append_cancel_left_eq, ih]
        simp [hg]
      · rw [consumed, if_neg hg, List.map_cons, List.flatten_cons, List.dropLast_cons_cons]
        constructor
        · intro h
          exact absurd (List.self_eq_append_right.1 h) hne
        · intro h
          exact absurd (h c List.mem_cons_self) hg

theorem reachesFull_of_mem {cs : List (Bytes × Bool)} (hgo : ∀ c ∈ cs.dropLast, GoesOn c)
    {c : Bytes × Bool} (hc : c ∈ cs) (hlen : c.1.length = buffSize) : ReachesFull cs := by
  induction cs with
  | nil => cases hc
  | cons c' cs ih =>
    rcases List.mem_cons.1 hc with rfl | hc
    · exact Or.inl hlen
    · have hne : cs ≠ [] := List.ne_nil_of_mem hc
      rw [List.dropLast_cons_of_ne_nil hne] at hgo
      exact Or.inr ⟨hgo c' List.mem_cons_self,
        ih (fun x hx => hgo x (List.mem_cons_of_mem _ hx)) hc⟩

theorem not_reachesFull {cs : List (Bytes × Bool)} (h : ∀ c ∈ cs, c.1.length < buffSize) :
    ¬ ReachesFull cs := by
  induction cs with
  | nil => exact id
  | cons c cs ih =>
    rintro (hc | ⟨-, hc⟩)
    · exact absurd hc (h c List.mem_cons_self).ne
    · exact ih (fun x hx => h x (List.mem_cons_of_mem _ hx)) hc

/-- A part read from the front contains the first line, or stops inside it. -/
theorem banner_cut {p r data : Bytes} (h : p ++ r = banner ++ data) :
    (∃ p', p = banner ++ p' ∧ p' ++ r = data) ∨ (p.length < banner.length ∧ newline ∉ p) := by
  rcases List.append_eq_append_iff.1 h with ⟨a, ha, -⟩ | ⟨p', hp, hd⟩
  · by_cases hnil : a = []
    · left
      subst hnil
      rw [List.append_nil] at ha
      refine ⟨[], by rw [ha, List.append_nil], ?_⟩
      rw [← ha] at h
      simpa using h
    · right
      have hlen : p.length + a.length = 4 := by rw [← List.length_append, ← ha]; rfl
      have hpos : 0 < a.length := List.length_pos_of_ne_nil hnil
      have hp : p = banner.take p.length := by rw [ha]; simp
      refine ⟨by simp [banner]; omega, fun hmem => ?_⟩
      rw [hp] at hmem
      have h3 : newline ∈ banner.take 3 := List.take_subset_take_left banner (by omega) hmem
      exact absurd h3 (by decide)
  · exact Or.inl ⟨p', hp, hd.symm⟩

theorem strip_banner {v : EchoVars} {p : Bytes} (hv : v.merged = banner ++ p) :
    v.stripFirstLine.merged = p :=
  stripFirstLine_cut (a := [99, 97, 116]) (by decide) hv

theorem extractCommand_subset {m : Bytes} {x : UInt8} (hx : x ∈ (extractCommand m).2) : x ∈ m := by
  rcases cut_newline m with h | ⟨a, b, rfl, h⟩
  · rwa [extractCommand_none h] at hx
  · rw [extractCommand_cut h] at hx
    simp [hx]

theorem extractCommand_length (m : Bytes) : (extractCommand m).2.length ≤ m.length := by
  rcases cut_newline m with h | ⟨a, b, rfl, h⟩
  · rw [extractCommand_none h]
  · rw [extractCommand_cut h]
    simp
    omega

/-- The data of a request is taken from the bytes before its first NUL. -/
theorem received_data_cstr {m : Bytes} (hlen : m.length < buffSize) :
    (EchoVars.received m).data = (extractCommand (cstr m)).2 := by
  have h := cstr_filled hlen []
  rw [List.append_nil] at h
  rw [EchoVars.received, h]

/-- If a chunk that is read fills the buffer, the reply depends on what follows the buffer. -/
theorem not_replies_of_reachesFull {m : Bytes} {chunks : List (Bytes × Bool)} {eof : Bool}
    {ans : ℕ → ℕ → Option ℕ} (hans : Positive ans) {data : Bytes} (hdata : data.length < buffSize)
    (hcs : ∀ c ∈ chunks, Chunk c.1) (hstream : (chunks.map Prod.fst).flatten = banner ++ data)
    (hfull : ReachesFull chunks) :
    ¬ ∀ after, EchoReplies after m (reads chunks eof) ans data := by
  intro h
  obtain ⟨q, t, hq, hlen, hx⟩ := readLoop_full eof (v := .received m) hcs hfull rfl
  have hq' := hq.symm.trans hstream
  obtain ⟨p, rfl, hp⟩ : ∃ p, q = banner ++ p ∧ p ++ t = data := by
    rcases banner_cut hq' with hp | ⟨hshort, -⟩
    · exact hp
    · have : banner.length < buffSize := by decide
      omega
  have hplen : p.length ≤ data.length := by rw [← hp]; simp
  -- any byte may follow the buffer, and the reply would have to end in each of them
  have hends : ∀ x : UInt8, x ≠ 0 → x ≠ newline → data = p ++ [x] := by
    intro x hx0 hxn
    obtain ⟨v, hrun, hm⟩ := hx x hx0 hxn
    obtain ⟨v', hrun', hsend⟩ := h [x]
    rw [hrun] at hrun'
    cases hrun'
    have hstrip : v.stripFirstLine.merged = p ++ [x] :=
      strip_banner (by rw [hm, List.append_assoc]; rfl)
    rw [hstrip] at hsend
    refine (sends_iff hans ?_).1 hsend
    have : buffSize < 2 ^ 64 := by decide
    simp
    omega
  have h12 := (hends 1 (by decide) (by decide)).symm.trans (hends 2 (by decide) (by decide))
  exact absurd (List.append_cancel_left h12) (by decide)

/-- If no chunk that is read fills the buffer, the reply is what the loop has read, less its first
line. -/
theorem replies_iff_consumed {after m : Bytes} {chunks : List (Bytes × Bool)} {eof : Bool}
    {ans : ℕ → ℕ → Option ℕ} (hans : Positive ans) {data out : Bytes}
    (hdata : data.length < buffSize) (hcs : ∀ c ∈ chunks, Chunk c.1)
    (hstream : (chunks.map Prod.fst).flatten = banner ++ data) (hfull : ¬ ReachesFull chunks) :
    EchoReplies after m (reads chunks eof) ans out ↔
      out = ({ merged := consumed chunks } : EchoVars).stripFirstLine.merged := by
  have hne : chunks ≠ [] := by
    rintro rfl
    simp [banner] at hstream
  obtain ⟨v, hrun, hm⟩ := readLoop_consumed after eof (v := .received m) hcs
    hfull rfl (Or.inr hne)
  have hm : v.merged = consumed chunks := hm
  have hstrip : v.stripFirstLine.merged =
      ({ merged := consumed chunks } : EchoVars).stripFirstLine.merged := by
    simp only [EchoVars.stripFirstLine, hm]
  have hlen : v.stripFirstLine.merged.length < 2 ^ 64 := by
    have h1 : v.stripFirstLine.merged.length ≤ v.merged.length := by
      unfold EchoVars.stripFirstLine
      dsimp only
      split <;> simp
    obtain ⟨r, hr⟩ := consumed_append chunks
    have h2 : (consumed chunks).length + r.length = banner.length + data.length := by
      rw [← List.length_append, ← hr, hstream, List.length_append]
    have h3 : buffSize < 2 ^ 63 := by decide
    have h4 : banner.length < 2 ^ 63 := by decide
    rw [hm] at h1
    omega
  rw [← hstrip, ← sends_iff hans hlen]
  constructor
  · rintro ⟨v', hrun', hsend⟩
    rw [hrun] at hrun'
    cases hrun'
    exact hsend
  · intro hsend
    exact ⟨v, hrun, hsend⟩

/-- **The reply to one request.** The data written to the child is what `extractCommand` leaves of
the request. Let the child's output be the line `cat` and then this data, cut in any way into
results of `readpipe` with any values of `doneReading()`. The reply is the data, whatever memory
follows the buffer, exactly when every read but the last one ends in a newline with `doneReading()`
still false and none fills the buffer, or the first read stops inside the first line and is, by
accident, equal to the data. -/
theorem echo_reply_iff {m : Bytes} (hlen : m.length ≤ buffSize - 1) (h0 : (0 : UInt8) ∉ m)
    {chunks : List (Bytes × Bool)} {eof : Bool}
    (hchunks : ∀ c ∈ chunks, 1 ≤ c.1.length ∧ c.1.length ≤ buffSize)
    (hstream : (chunks.map Prod.fst).flatten = banner ++ (extractCommand m).2)
    {ans : ℕ → ℕ → Option ℕ} (hans : Positive ans) :
    (EchoVars.received m).data = (extractCommand m).2 ∧
      ((∀ after, EchoReplies after m (reads chunks eof) ans (extractCommand m).2) ↔
        RunsToEnd chunks ∨ ShortFirst chunks (extractCommand m).2) := by
  set data := (extractCommand m).2 with hdata
  have hdlen : data.length < buffSize := by
    have h1 : data.length ≤ m.length := extractCommand_length m
    have h2 : 0 < buffSize := by decide
    omega
  have hmlen : m.length < buffSize := by
    have h2 : 0 < buffSize := by decide
    omega
  have hd0 : (0 : UInt8) ∉ banner ++ data := by
    rw [List.mem_append, not_or]
    exact ⟨by decide, fun h => h0 (extractCommand_subset h)⟩
  have hcs : ∀ c ∈ chunks, Chunk c.1 := by
    intro c hc
    refine ⟨List.ne_nil_of_length_pos (hchunks c hc).1, fun h => hd0 ?_, (hchunks c hc).2⟩
    rw [← hstream]
    exact List.mem_flatten.2 ⟨c.1, List.mem_map_of_mem hc, h⟩
  have hne : ∀ c ∈ chunks, c.1 ≠ [] := fun c hc => (hcs c hc).1
  obtain ⟨r, hr⟩ := consumed_append chunks
  have hcut := banner_cut (hr.symm.trans hstream)
  refine ⟨by rw [received_data_cstr hmlen, cstr_eq_self h0], ?_⟩
  constructor
  · intro h
    by_cases hfull : ReachesFull chunks
    · exact absurd h (not_replies_of_reachesFull hans hdlen hcs hstream hfull)
    have hout := (replies_iff_consumed hans hdlen hcs hstream hfull).1 (h [])
    rcases hcut with ⟨p, hp, hpr⟩ | ⟨hshort, hnl⟩
    · -- the first line was read: the reply is the rest of what was read
      left
      rw [strip_banner (v := { merged := consumed chunks }) hp] at hout
      have hr0 : r = [] := by
        rw [hout] at hpr
        exact List.append_right_eq_self.1 hpr
      rw [hr0, List.append_nil] at hr
      have hgo := (consumed_eq_iff hne).1 hr.symm
      refine ⟨hgo, fun c hc => lt_of_le_of_ne (hchunks c hc).2 fun he => ?_⟩
      exact hfull (reachesFull_of_mem hgo hc he)
    · right
      rw [stripFirstLine_none (v := { merged := consumed chunks }) hnl] at hout
      cases chunks with
      | nil => simp [banner] at hstream
      | cons c rest =>
        by_cases hg : GoesOn c
        · have : newline ∈ consumed (c :: rest) := by
            rw [consumed, if_pos hg]
            exact List.mem_append_left _ (List.mem_of_getLast? hg.1)
          exact absurd this hnl
        · rw [consumed, if_neg hg] at hout hshort
          exact ⟨c, rest, rfl, hshort, hout.symm⟩
  · rintro (⟨hgo, hlt⟩ | ⟨c, rest, rfl, hshort, hc⟩) after
    · rw [replies_iff_consumed hans hdlen hcs hstream (not_reachesFull hlt),
        strip_banner (v := { merged := consumed chunks })
          (((consumed_eq_iff hne).2 hgo).trans hstream)]
    · have hnl : newline ∉ c.1 := by
        rcases banner_cut (p := c.1) (by simpa using hstream) with ⟨p, hp, -⟩ | ⟨-, h⟩
        · rw [hp] at hshort
          simp at hshort
        · exact h
      have hg : ¬ GoesOn c := fun hg => hnl (List.mem_of_getLast? hg.1)
      have hfull : ¬ ReachesFull (c :: rest) := by
        rintro (h | ⟨h, -⟩)
        · have : banner.length < buffSize := by decide
          omega
        · exact hg h
      have hcons : consumed (c :: rest) = c.1 := by rw [consumed, if_neg hg]
      rw [replies_iff_consumed hans hdlen hcs hstream hfull, hcons,
        stripFirstLine_none (v := { merged := c.1 }) hnl, hc]

theorem positive_full : Positive fun _ n => some n := fun _ n hn => ⟨n, rfl, hn, le_rfl⟩

/-- The request `ab` is sent back when its bytes come in one read after the first line. -/
theorem echo_reply_ab :
    RunsToEnd [(banner, false), ([97, 98], true)] ∧
      ∀ after, EchoReplies after [97, 98] (reads [(banner, false), ([97, 98], true)] true)
        (fun _ n => some n) [97, 98] := by
  have hruns : RunsToEnd [(banner, false), ([97, 98], true)] := ⟨by decide, by decide⟩
  refine ⟨hruns, ?_⟩
  exact ((echo_reply_iff (m := [97, 98]) (by decide) (by decide) (by decide) (by decide)
    positive_full).2).2 (Or.inl hruns)

/-- Not every split is echoed: the request `ab`, with the first line and the first byte in one
read. The hang-up is seen at the end of file only. -/
theorem echo_reply_cut_short :
    ¬ ∀ (m : Bytes) (chunks : List (Bytes × Bool)) (eof : Bool) (ans : ℕ → ℕ → Option ℕ),
      1 ≤ m.length → m.length ≤ buffSize - 1 → (0 : UInt8) ∉ m →
      (∀ c ∈ chunks, 1 ≤ c.1.length ∧ c.1.length ≤ buffSize) →
      (chunks.map Prod.snd ++ [eof]).Pairwise (· ≤ ·) →
      (chunks.map Prod.fst).flatten = banner ++ (extractCommand m).2 → Positive ans →
      ∀ after, EchoReplies after m (reads chunks eof) ans (extractCommand m).2 := by
  intro h
  have hreply := h [97, 98] [([99, 97, 116, 10, 97], false), ([98], false)] true
    (fun _ n => some n) (by decide) (by decide) (by decide) (by decide) (by decide) (by decide)
    positive_full []
  have hdata : ([97, 98] : Bytes).length < buffSize := by decide
  rw [replies_iff_consumed positive_full hdata (by unfold Chunk; decide) (by decide)
    (not_reachesFull (by decide))] at hreply
  exact absurd hreply (by decide)

/-! ### A whole connection -/

/-- What the environment does during one call of `echo_loop`: the result of its `recv`, the results
of `readpipe` and the memory after the buffer, the answers of `send`. -/
structure Exchange where
  recv : Option Bytes
  rs : List (ReadResult × Bool)
  after : Bytes
  ans : ℕ → ℕ → Option ℕ

/-- The bytes of the `recv`. -/
def Exchange.segment (x : Exchange) : Bytes := x.recv.getD []

/-- One call of `echo_loop`: the bytes it sends back, and its result. A `recv` that fails ends it;
one that returns no bytes does not, since `nbRecv` is then `2`. If the read loop throws, the result
has not been set. -/
def EchoLoop (x : Exchange) (out : Bytes) (run : Bool) : Prop :=
  if nbRecv x.recv ≤ 0 then out = [] ∧ run = false
  else
    match readLoop x.after (.received x.segment) x.rs with
    | .waiting => False
    | .thrown => out = []
    | .left v => Sends x.ans v.stripFirstLine.merged out ∧ run = false

/-- The loop of `client_socket_handler`: `echo_loop` is called again while it returns `true`, and
waits when there is no further `recv`. -/
def ClientSocketHandler : List Exchange → Bytes → Prop
  | [], _ => False
  | x :: xs, out => ∃ o run, EchoLoop x o run ∧
      if run then ∃ o', ClientSocketHandler xs o' ∧ out = o ++ o' else out = o

/-- The child prints `head` and echoes what is written to it, which is all of the data as a pipe does
not cut so short a write, and all its output is read. If there is none, the first read finds the end
of the file, and the loop throws. -/
def Exchange.Echoed (head : Bytes) (x : Exchange) : Prop :=
  match readLoop x.after (.received x.segment) x.rs with
  | .waiting => False
  | .thrown => head ++ (EchoVars.received x.segment).data = []
  | .left v => v.merged = head ++ (EchoVars.received x.segment).data

/-! ### Texts -/

theorem stripFirstLine_merged (v : EchoVars) :
    v.stripFirstLine.merged = (extractCommand v.merged).2 := by
  rcases cut_newline v.merged with h | ⟨a, b, hv, h⟩
  · rw [stripFirstLine_none h, extractCommand_none h]
  · rw [stripFirstLine_cut h hv, hv, extractCommand_cut h]

/-- The first line of a string contains what stands before it without a newline. -/
theorem initial_of_cut {a t u b : Bytes} (ha : newline ∉ a) (h : a ++ t = u ++ newline :: b) :
    a <+: u := by
  have h1 : a <+: u ++ newline :: b := ⟨t, h⟩
  rcases List.prefix_or_prefix_of_prefix h1 (List.prefix_append _ _) with hp | ⟨y, rfl⟩
  · exact hp
  · cases y with
    | nil => simp
    | cons z y =>
      rw [List.append_assoc, List.append_cancel_left_eq] at h
      obtain ⟨rfl, -⟩ := List.cons_eq_cons.1 h
      simp at ha

/-- `b` is `a`, or repeats `a` after its first newline. -/
def SameData (a b : Bytes) : Prop :=
  a = b ∨ ∃ x, newline ∉ a ++ x ∧ b = a ++ x ++ newline :: a

theorem data_eq_iff {a b : Bytes} (hab : a <+: b) :
    (extractCommand a).2 = (extractCommand b).2 ↔ SameData a b := by
  obtain ⟨t, rfl⟩ := hab
  rcases cut_newline a with ha | ⟨u, a', rfl, hu⟩
  · rw [extractCommand_none ha]
    rcases cut_newline (a ++ t) with hb | ⟨u, b', hcut, hu⟩
    · rw [extractCommand_none hb]
      refine ⟨Or.inl, ?_⟩
      rintro (h | ⟨x, -, h⟩)
      · exact h
      · exact absurd (by rw [h]; simp) hb
    · -- the newline is in the longer string only, after `a`
      obtain ⟨x, rfl⟩ := initial_of_cut ha hcut
      rw [hcut, extractCommand_cut hu]
      constructor
      · rintro rfl
        exact Or.inr ⟨x, hu, hcut ▸ rfl⟩
      · rintro (h | ⟨y, hy, h⟩)
        · exact absurd (by rw [h]; simp) ha
        · have h1 := congrArg (fun s => (extractCommand s).2) h
          simpa only [extractCommand_cut hu, extractCommand_cut hy] using h1.symm
  · rw [List.append_assoc, List.cons_append, extractCommand_cut hu, extractCommand_cut hu]
    dsimp only
    constructor
    · intro h
      exact Or.inl (by rw [← h])
    · rintro (h | ⟨x, hx, -⟩)
      · simpa using h
      · simp at hx

/-- What is sent back for the text `t`, if the child prints `head` before it echoes its input. -/
def replyTo (head t : Bytes) : Bytes := (extractCommand (head ++ (extractCommand t).2)).2

/-- What follows the last newline. -/
def lastLine (s : Bytes) : Bytes := s.rtakeWhile (· ≠ newline)

theorem lastLine_self {s : Bytes} (h : newline ∉ s) : lastLine s = s := by
  refine List.rtakeWhile_eq_self_iff.2 fun c hc => ?_
  simp only [ne_eq, decide_eq_true_eq]
  rintro rfl
  exact h hc

theorem lastLine_cut {s t : Bytes} (h : newline ∉ t) : lastLine (s ++ newline :: t) = t := by
  have ht : ∀ c ∈ t.reverse, decide (c ≠ newline) = true := by
    intro c hc
    simp only [ne_eq, decide_eq_true_eq]
    rintro rfl
    exact h (List.mem_reverse.1 hc)
  rw [lastLine, List.rtakeWhile, List.reverse_append, List.reverse_cons, List.append_assoc,
    List.takeWhile_append_of_pos ht]
  simp

/-- A string is cut in one way after so many newlines. -/
theorem cut_unique {p q r s : Bytes} (h : p ++ newline :: r = q ++ newline :: s)
    (hc : p.count newline = q.count newline) : p = q ∧ r = s := by
  rcases List.append_eq_append_iff.1 h with ⟨a, rfl, ha⟩ | ⟨a, rfl, ha⟩
  · cases a with
    | nil => exact ⟨by simp, by simpa using ha⟩
    | cons c a =>
      obtain ⟨rfl, -⟩ := List.cons_eq_cons.1 ha
      simp at hc
  · cases a with
    | nil => exact ⟨by simp, by simpa using ha.symm⟩
    | cons c a =>
      obtain ⟨rfl, -⟩ := List.cons_eq_cons.1 ha
      simp at hc

/-- The text `b`, a continuation of `a`, has the data of `a`; or, if the child prints no line of its
own first, the text is cut twice: after the second newline of `b` there is what is sent back for the
last line of `a`. -/
def SameReply (head a b : Bytes) : Prop :=
  SameData a b ∨ newline ∉ head ∧
    ∃ x, (a ++ x).count newline = 1 ∧ b = a ++ x ++ newline :: (head ++ lastLine a)

theorem SameData.isPrefix {a b : Bytes} (h : SameData a b) : a <+: b := by
  rcases h with rfl | ⟨x, -, rfl⟩
  · exact List.prefix_rfl
  · rw [List.append_assoc]
    exact List.prefix_append _ _

theorem SameReply.isPrefix {head a b : Bytes} (h : SameReply head a b) : a <+: b := by
  rcases h with h | ⟨-, x, -, rfl⟩
  · exact h.isPrefix
  · rw [List.append_assoc]
    exact List.prefix_append _ _

/-- A first line of the child's own is stripped, and nothing else. -/
theorem replyTo_of_mem {head : Bytes} (h : newline ∈ head) :
    ∃ rest, ∀ t, replyTo head t = rest ++ (extractCommand t).2 := by
  obtain ⟨u, rest, rfl, hu⟩ := List.eq_append_cons_of_mem h
  refine ⟨rest, fun t => ?_⟩
  rw [replyTo, List.append_assoc, List.cons_append, extractCommand_cut hu]

theorem count_line {s : Bytes} (h : newline ∉ s) : s.count newline = 0 := List.count_eq_zero.2 h

/-- Where the text `a` has no newline. -/
theorem replyTo_eq_iff_line {head a t : Bytes} (hhead : newline ∉ head) (ha : newline ∉ a) :
    replyTo head a = replyTo head (a ++ t) ↔ SameReply head a (a ++ t) := by
  have hra : replyTo head a = head ++ a := by
    rw [replyTo, extractCommand_none ha, extractCommand_none (by simp [hhead, ha])]
  rw [hra, SameReply, lastLine_self ha]
  rcases cut_newline (a ++ t) with hb | ⟨u, b, hcut, hu⟩
  · rw [replyTo, extractCommand_none hb, extractCommand_none (by simpa [hhead] using hb),
      List.append_cancel_left_eq]
    refine ⟨fun h => Or.inl (Or.inl h), ?_⟩
    rintro ((h | ⟨x, -, h⟩) | ⟨-, x, -, h⟩)
    · exact h
    · exact absurd (by rw [h]; simp) hb
    · exact absurd (by rw [h]; simp) hb
  obtain ⟨x, rfl⟩ := initial_of_cut ha hcut
  rw [hcut, replyTo, extractCommand_cut hu]
  dsimp only
  -- `SameData` is about the only newline, the other alternative about the second one
  have hdata : SameData a (a ++ x ++ newline :: b) ↔ b = a := by
    constructor
    · rintro (h | ⟨y, hy, h⟩)
      · exact absurd (by rw [h]; simp) ha
      · exact (cut_unique h (by rw [count_line hu, count_line hy])).2
    · rintro rfl
      exact Or.inr ⟨x, hu, rfl⟩
  rw [hdata]
  rcases cut_newline b with hb | ⟨v, c, rfl, hv⟩
  · rw [extractCommand_none (by simp [hhead, hb]), List.append_cancel_left_eq]
    refine ⟨fun h => Or.inl h.symm, ?_⟩
    rintro (h | ⟨-, y, hy, h⟩)
    · exact h.symm
    · have hone : (a ++ x ++ newline :: b).count newline = 1 := by
        rw [List.count_append, List.count_cons_self, count_line hu, count_line hb]
      rw [h, List.count_append, List.count_cons_self, hy] at hone
      omega
  · have htwice : head ++ (v ++ newline :: c) = head ++ v ++ newline :: c := by simp
    rw [htwice, extractCommand_cut (by simp [hhead, hv])]
    have hone : (a ++ x ++ newline :: v).count newline = 1 := by
      rw [List.count_append, List.count_cons_self, count_line hu, count_line hv]
    have hlong : a ++ x ++ newline :: (v ++ newline :: c) =
        a ++ x ++ newline :: v ++ newline :: c := by simp
    constructor
    · rintro rfl
      exact Or.inr ⟨hhead, x ++ newline :: v, by simpa using hone, by simp⟩
    · rintro (h | ⟨-, y, hy, h⟩)
      · exact absurd (by rw [← h]; simp) ha
      · rw [hlong] at h
        exact (cut_unique h (by rw [hone, hy])).2.symm

theorem replyTo_eq_iff {head a b : Bytes} (hab : a <+: b) :
    replyTo head a = replyTo head b ↔ SameReply head a b := by
  by_cases hhead : newline ∈ head
  · obtain ⟨rest, hrest⟩ := replyTo_of_mem hhead
    simp only [hrest, SameReply, hhead, not_true, false_and, or_false, List.append_cancel_left_eq,
      data_eq_iff hab]
  obtain ⟨t, rfl⟩ := hab
  rcases cut_newline a with ha | ⟨u, a', rfl, hu⟩
  · exact replyTo_eq_iff_line hhead ha
  -- `a` has its first line, and its data are continued
  have hlong : u ++ newline :: a' ++ t = u ++ newline :: (a' ++ t) := by simp
  rw [hlong, replyTo, replyTo, extractCommand_cut hu, extractCommand_cut hu]
  dsimp only
  rw [data_eq_iff (b := head ++ (a' ++ t)) ⟨t, by simp⟩]
  constructor
  · rintro (h | ⟨x, hx, h⟩)
    · have ht : t = [] := by simpa using h
      exact Or.inl (Or.inl (by rw [ht, List.append_nil]))
    · have hx' : newline ∉ a' ++ x := by
        simp only [List.mem_append, not_or] at hx ⊢
        exact ⟨hx.1.2, hx.2⟩
      refine Or.inr ⟨hhead, x, ?_, ?_⟩
      · rw [List.append_assoc, List.cons_append, List.count_append, List.count_cons_self,
          count_line hu, count_line hx']
      · rw [lastLine_cut fun hm => hx' (List.mem_append_left x hm)]
        have ht : t = x ++ newline :: (head ++ a') := by simpa using h
        simp [ht]
  · rintro ((h | ⟨x, hx, -⟩) | ⟨-, x, hx, h⟩)
    · have ht : t = [] := by simpa using h
      exact Or.inl (by simp [ht])
    · simp at hx
    · have hx' : newline ∉ a' ++ x := by
        rw [List.append_assoc, List.cons_append, List.count_append, List.count_cons_self,
          count_line hu] at hx
        exact List.count_eq_zero.1 (by omega)
      rw [lastLine_cut fun hm => hx' (List.mem_append_left x hm)] at h
      have ht : t = x ++ newline :: (head ++ a') := by simpa using h
      refine Or.inr ⟨x, ?_, by simp [ht]⟩
      rw [List.append_assoc]
      simpa [hhead] using hx'

/-- The text is empty or ends with a newline, and has `n` newlines at most. -/
def EndsLine (n : ℕ) (t : Bytes) : Prop :=
  t.count newline ≤ n ∧ (t = [] ∨ t.getLast? = some newline)

instance (n : ℕ) (t : Bytes) : Decidable (EndsLine n t) := inferInstanceAs (Decidable (_ ∧ _))

theorem endsLine_line {n : ℕ} {t : Bytes} (h : newline ∉ t) : EndsLine n t ↔ t = [] := by
  constructor
  · rintro ⟨-, hnil | hlast⟩
    · exact hnil
    · exact absurd (List.mem_of_getLast? hlast) h
  · rintro rfl
    exact ⟨Nat.zero_le n, Or.inl rfl⟩

theorem endsLine_zero {t : Bytes} : EndsLine 0 t ↔ t = [] := by
  refine ⟨fun h => ?_, fun h => (endsLine_line (by simp [h])).2 h⟩
  exact (endsLine_line (List.count_eq_zero.1 (Nat.le_zero.1 h.1))).1 h

theorem endsLine_succ {n : ℕ} {t : Bytes} :
    EndsLine (n + 1) t ↔ EndsLine n (extractCommand t).2 := by
  rcases cut_newline t with h | ⟨u, b, rfl, hu⟩
  · rw [extractCommand_none h, endsLine_line h, endsLine_line h]
  · rw [extractCommand_cut hu, EndsLine, EndsLine, List.count_append, List.count_cons_self,
      count_line hu]
    cases b with
    | nil => simp
    | cons c b => simp

/-! ### Replies -/

/-- The child prints nothing for the text `t`: neither lines of its own nor data. -/
def Silent (head t : Bytes) : Prop := head = [] ∧ EndsLine 1 t

instance (head t : Bytes) : Decidable (Silent head t) := inferInstanceAs (Decidable (_ ∧ _))

theorem silent_iff {head t : Bytes} : Silent head t ↔ head ++ (extractCommand t).2 = [] := by
  rw [Silent, endsLine_succ, endsLine_zero, List.append_eq_nil_iff]

theorem replyTo_nil_iff {t : Bytes} : replyTo [] t = [] ↔ EndsLine 2 t := by
  rw [endsLine_succ, endsLine_succ, endsLine_zero]
  rfl

theorem Silent.replyTo {head t : Bytes} (h : Silent head t) : replyTo head t = [] := by
  rw [EpollCoroutine.replyTo, silent_iff.1 h]
  rfl

/-- If the read loop has left without an exception, something has been read. -/
theorem readLoop_merged_ne {after : Bytes} {rs : List (ReadResult × Bool)} {v v' : EchoVars}
    (h : readLoop after v rs = .left v') : v'.merged ≠ [] := by
  induction rs generalizing v with
  | nil => cases h
  | cons r rs ih =>
    obtain ⟨r, doneReading⟩ := r
    rw [readLoop] at h
    cases hbody : v.readBody r after with
    | none => simp [hbody] at h
    | some u =>
      simp only [hbody] at h
      split_ifs at h
      · exact ih h
      · cases h
        unfold EchoVars.readBody at hbody
        split at hbody
        · cases hbody
        · rename_i c hc
          cases hbody
          intro hnil
          rw [show v.merged ++ cstr (filled r.content ++ after) = [] from hnil] at hc
          cases hc

/-- The text of the `recv`. -/
def Exchange.text (x : Exchange) : Bytes := cstr x.segment

/-- A `recv` of some bytes, a child that echoes them, all of whose output is read, and calls of
`send` that make progress. -/
structure Exchange.Served (head : Bytes) (x : Exchange) : Prop where
  nonempty : x.segment ≠ []
  short : x.segment.length < buffSize
  echoed : x.Echoed head
  positive : Positive x.ans

/-- One call of `echo_loop`. Its result is not determined if nothing has been read. -/
theorem echoLoop_iff {head : Bytes} (hsize : head.length + buffSize ≤ 2 ^ 64) {x : Exchange}
    (hx : x.Served head) (out : Bytes) (run : Bool) :
    EchoLoop x out run ↔ out = replyTo head x.text ∧ (run = true → Silent head x.text) := by
  have hlen := hx.short
  have hpos : ¬ nbRecv x.recv ≤ 0 := by
    cases hrecv : x.recv with
    | none => exact absurd (by simp [Exchange.segment, hrecv]) hx.nonempty
    | some m => simp [nbRecv]; omega
  have hecho := hx.echoed
  rw [Exchange.Echoed, received_data_cstr hlen] at hecho
  rw [EchoLoop, if_neg hpos]
  cases hrun : readLoop x.after (.received x.segment) x.rs with
  | waiting => simp [hrun] at hecho
  | thrown =>
    simp only [hrun] at hecho
    have hsilent : Silent head x.text := silent_iff.2 hecho
    simp [hsilent, hsilent.replyTo]
  | left v =>
    simp only [hrun] at hecho
    have hloud : ¬ Silent head x.text := fun h =>
      readLoop_merged_ne hrun (hecho.trans (silent_iff.1 h))
    have hstrip : v.stripFirstLine.merged = replyTo head x.text := by
      rw [stripFirstLine_merged, hecho]
      rfl
    have hmerged : v.stripFirstLine.merged.length < 2 ^ 64 := by
      have h1 := extractCommand_length v.merged
      have h2 := extractCommand_length (cstr x.segment)
      have h3 : (cstr x.segment).length ≤ x.segment.length :=
        List.IsPrefix.length_le (List.takeWhile_prefix _)
      rw [hecho, List.length_append] at h1
      rw [stripFirstLine_merged, hecho]
      omega
    dsimp only
    rw [sends_iff hx.positive hmerged, hstrip]
    cases run <;> simp [hloud]

/-- What is sent back on a connection: the reply to the first text, unless the loop throws; the
handler may then go on to the next one. -/
theorem handler_iff {head : Bytes} (hsize : head.length + buffSize ≤ 2 ^ 64) {x : Exchange}
    (hx : x.Served head) (xs : List Exchange) (out : Bytes) :
    ClientSocketHandler (x :: xs) out ↔
      out = replyTo head x.text ∨ Silent head x.text ∧ ClientSocketHandler xs out := by
  rw [ClientSocketHandler]
  simp only [echoLoop_iff hsize hx]
  constructor
  · rintro ⟨o, run, ⟨rfl, hsilent⟩, hout⟩
    cases run with
    | false => exact Or.inl hout
    | true =>
      obtain ⟨o', ho', rfl⟩ := hout
      have hs := hsilent rfl
      exact Or.inr ⟨hs, by rwa [hs.replyTo, List.nil_append]⟩
  · rintro (rfl | ⟨hs, hout⟩)
    · exact ⟨_, false, ⟨rfl, by simp⟩, rfl⟩
    · exact ⟨_, true, ⟨rfl, fun _ => hs⟩, out, hout, by rw [hs.replyTo, List.nil_append]⟩

/-- No bytes are sent back for these texts: not for the first for which the child prints something,
and there need not be one. -/
def Mute : List Bytes → Prop
  | [] => True
  | t :: ts => EndsLine 2 t ∧ (EndsLine 1 t → Mute ts)

theorem mute_iff {xs : List Exchange} (hxs : ∀ x ∈ xs, x.Served []) :
    Mute (xs.map Exchange.text) ↔ ∀ out, ClientSocketHandler xs out → out = [] := by
  induction xs with
  | nil => simp [Mute, ClientSocketHandler]
  | cons x xs ih =>
    have hx := hxs x List.mem_cons_self
    have hsilent : Silent [] x.text ↔ EndsLine 1 x.text := by simp [Silent]
    rw [List.map_cons, Mute, ih fun y hy => hxs y (List.mem_cons_of_mem _ hy), ← replyTo_nil_iff,
      ← hsilent]
    simp only [handler_iff (by decide) hx]
    constructor
    · rintro ⟨hreply, hrest⟩ out (rfl | ⟨hs, hout⟩)
      · exact hreply
      · exact hrest hs out hout
    · exact fun h => ⟨h _ (Or.inl rfl), fun hs out hout => h out (Or.inr ⟨hs, hout⟩)⟩

/-! ### Two segmentations -/

/-- A connection on which a client sends `m`: the segments are not empty and make up `m`, each child
prints `head` and echoes its input, all its output is read, and `send` makes progress. -/
structure Delivers (head m : Bytes) (xs : List Exchange) : Prop where
  segments : (xs.map Exchange.segment).flatten = m
  nonempty : ∀ x ∈ xs, 1 ≤ x.segment.length
  echoed : ∀ x ∈ xs, x.Echoed head
  positive : ∀ x ∈ xs, Positive x.ans

theorem Delivers.served {head m : Bytes} {xs : List Exchange} (h : Delivers head m xs)
    (hlen : m.length ≤ buffSize - 1) : ∀ x ∈ xs, x.Served head := by
  intro x hx
  refine ⟨List.ne_nil_of_length_pos (h.nonempty x hx), ?_, h.echoed x hx, h.positive x hx⟩
  have hle : x.segment.length ≤ m.length := by
    rw [← h.segments]
    exact (List.sublist_flatten_of_mem (List.mem_map_of_mem hx)).length_le
  have hbuff : 0 < buffSize := by decide
  omega

theorem cstr_initial {a b : Bytes} (h : a <+: b) : cstr a <+: cstr b := by
  obtain ⟨t, rfl⟩ := h
  by_cases h0 : (0 : UInt8) ∈ a
  · obtain ⟨u, v, rfl, -⟩ := List.eq_append_cons_of_mem h0
    rw [List.append_assoc, List.cons_append, cstr_append_zero, cstr_append_zero]
  · rw [cstr_eq_self h0, cstr, List.takeWhile_append_of_pos fun x hx => by
      simp only [ne_eq, decide_eq_true_eq]
      rintro rfl
      exact h0 hx]
    exact List.prefix_append _ _

/-- The texts for which the replies agree. If the child has something to print for the first text of
either connection, the first texts decide; if it has not, nothing may be sent back at all. -/
def AnsweredAlike (head : Bytes) (ts us : List Bytes) : Prop :=
  if Silent head (ts.headD []) ∨ Silent head (us.headD []) then Mute ts ∧ Mute us
  else SameReply head (ts.headD []) (us.headD []) ∨ SameReply head (us.headD []) (ts.headD [])

/-- Two connections one of which may be sent nothing are sent the same if neither is ever sent
anything. -/
theorem agree_iff_nil {P Q : Bytes → Prop} (hP : ∃ out, P out) (hQ : ∃ out, Q out)
    (hnil : P [] ∨ Q []) :
    (∀ out out', P out → Q out' → out = out') ↔
      (∀ out, P out → out = []) ∧ ∀ out, Q out → out = [] := by
  obtain ⟨p, hp⟩ := hP
  obtain ⟨q, hq⟩ := hQ
  constructor
  · intro h
    rcases hnil with h0 | h0
    · have hQnil : ∀ out, Q out → out = [] := fun out hout => (h _ _ h0 hout).symm
      exact ⟨fun out hout => (h _ _ hout hq).trans (hQnil q hq), hQnil⟩
    · have hPnil : ∀ out, P out → out = [] := fun out hout => h _ _ hout h0
      exact ⟨hPnil, fun out hout => (h _ _ hp hout).symm.trans (hPnil p hp)⟩
  · rintro ⟨h1, h2⟩ out out' hout hout'
    rw [h1 out hout, h2 out' hout']

/-- **The reply depends on the segmentation.** The child prints any text `head` first, or none, and
then echoes what is written to it. On two connections that deliver the same bytes, cut in any two
ways, the same bytes are sent back exactly if the texts of the results of `recv` are
`AnsweredAlike`. -/
theorem reply_eq_iff {head m : Bytes} (hsize : head.length + buffSize ≤ 2 ^ 64)
    (hpos : 1 ≤ m.length) (hlen : m.length ≤ buffSize - 1) {xs ys : List Exchange}
    (hx : Delivers head m xs) (hy : Delivers head m ys) :
    (∃ out, ClientSocketHandler xs out) ∧ (∃ out, ClientSocketHandler ys out) ∧
      ((∀ out out', ClientSocketHandler xs out → ClientSocketHandler ys out' → out = out') ↔
        AnsweredAlike head (xs.map Exchange.text) (ys.map Exchange.text)) := by
  have hxs := hx.served hlen
  have hys := hy.served hlen
  have hne : ∀ {zs : List Exchange}, Delivers head m zs → zs ≠ [] := by
    rintro zs hz rfl
    have h := congrArg List.length hz.segments
    simp only [List.map_nil, List.flatten_nil, List.length_nil] at h
    omega
  obtain ⟨x, xs, rfl⟩ := List.exists_cons_of_ne_nil (hne hx)
  obtain ⟨y, ys, rfl⟩ := List.exists_cons_of_ne_nil (hne hy)
  have hhx := handler_iff hsize (hxs x List.mem_cons_self) xs
  have hhy := handler_iff hsize (hys y List.mem_cons_self) ys
  have hox : ∃ out, ClientSocketHandler (x :: xs) out := ⟨_, (hhx _).2 (Or.inl rfl)⟩
  have hoy : ∃ out, ClientSocketHandler (y :: ys) out := ⟨_, (hhy _).2 (Or.inl rfl)⟩
  refine ⟨hox, hoy, ?_⟩
  simp only [AnsweredAlike, List.map_cons, List.headD_cons]
  split_ifs with hs
  · -- one of the loops may throw: then nothing is sent back there
    obtain rfl : head = [] := by rcases hs with hs | hs <;> exact hs.1
    rw [← List.map_cons, ← List.map_cons, mute_iff hxs, mute_iff hys]
    refine agree_iff_nil hox hoy (hs.imp (fun h => ?_) fun h => ?_)
    · exact (hhx _).2 (Or.inl h.replyTo.symm)
    · exact (hhy _).2 (Or.inl h.replyTo.symm)
  · rw [not_or] at hs
    simp only [hhx, hhy, hs.1, hs.2, false_and, or_false]
    have heq : (∀ out out', out = replyTo head x.text → out' = replyTo head y.text → out = out') ↔
        replyTo head x.text = replyTo head y.text := by
      constructor
      · intro h
        exact h _ _ rfl rfl
      · rintro h out out' rfl rfl
        exact h
    rw [heq]
    -- both first segments are initial segments of `m`, so one text continues the other
    have hxm : x.segment <+: m := ⟨_, hx.segments⟩
    have hym : y.segment <+: m := ⟨_, hy.segments⟩
    constructor
    · intro h
      rcases List.prefix_or_prefix_of_prefix hxm hym with hp | hp
      · exact Or.inl ((replyTo_eq_iff (cstr_initial hp)).1 h)
      · exact Or.inr ((replyTo_eq_iff (cstr_initial hp)).1 h.symm)
    · rintro (h | h)
      · exact (replyTo_eq_iff h.isPrefix).2 h
      · exact ((replyTo_eq_iff h.isPrefix).2 h).symm

/-- A segment whose child's output, if there is any, comes in one read. -/
def wholeExchange (head segment : Bytes) : Exchange where
  recv := some segment
  rs := reads (([head ++ (EchoVars.received segment).data].filter (· ≠ [])).map (·, true)) true
  after := []
  ans := fun _ n => some n

theorem wholeExchange_echoed {head s : Bytes} (hhead : (0 : UInt8) ∉ head)
    (hs : head.length + s.length < buffSize) : (wholeExchange head s).Echoed head := by
  have hdata := received_data_cstr (m := s) (by omega)
  have hlen : (EchoVars.received s).data.length ≤ s.length := by
    rw [hdata]
    exact (extractCommand_length _).trans <| List.IsPrefix.length_le <| List.takeWhile_prefix _
  have h0 : (0 : UInt8) ∉ head ++ (EchoVars.received s).data := by
    rw [List.mem_append, not_or, hdata]
    exact ⟨hhead, fun h => zero_not_mem_cstr s (extractCommand_subset h)⟩
  have hlt : (head ++ (EchoVars.received s).data).length < buffSize := by
    rw [List.length_append]
    omega
  unfold Exchange.Echoed wholeExchange Exchange.segment
  dsimp only [Option.getD_some]
  generalize head ++ (EchoVars.received s).data = stream at h0 hlt ⊢
  by_cases hnil : stream = []
  · have hthrown : (EchoVars.received s).readBody (.bytes []) [] = none := by
      unfold EchoVars.readBody
      rw [show cstr (filled (ReadResult.bytes []).content ++ []) = [] from
        cstr_filled (by decide) []]
      rfl
    simp [hnil, reads, readLoop, hthrown]
  · have hchunk : ∀ c ∈ [(stream, true)], Chunk c.1 := by
      simpa [Chunk] using ⟨hnil, h0, hlt.le⟩
    obtain ⟨v, hrun, hm⟩ := readLoop_consumed [] true (v := .received s) hchunk
      (not_reachesFull (by simpa using hlt)) rfl (by simp)
    have hrs : reads (([stream].filter (· ≠ [])).map (·, true)) true =
        reads [(stream, true)] true := by
      simp [hnil]
    rw [hrs, hrun]
    dsimp only
    rw [hm, consumed, if_neg (by simp [GoesOn])]
    rfl

theorem delivers_whole {head : Bytes} (hhead : (0 : UInt8) ∉ head) (ss : List Bytes)
    (hss : ∀ s ∈ ss, 1 ≤ s.length ∧ head.length + s.length < buffSize) :
    Delivers head ss.flatten (ss.map (wholeExchange head)) where
  segments := by rw [List.map_map]; exact congrArg List.flatten (List.map_id ss)
  nonempty := by
    intro x hx
    obtain ⟨s, hs, rfl⟩ := List.mem_map.1 hx
    exact (hss s hs).1
  echoed := by
    intro x hx
    obtain ⟨s, hs, rfl⟩ := List.mem_map.1 hx
    exact wholeExchange_echoed hhead (hss s hs).2
  positive := by
    intro x hx
    obtain ⟨s, -, rfl⟩ := List.mem_map.1 hx
    exact positive_full

/-- The lines `x`, `y`, `y` are answered alike whole and cut after the first `y`. -/
theorem reply_eq_repeated :
    (∃ out, ClientSocketHandler [wholeExchange [] [120, 10, 121, 10, 121]] out) ∧
      ∀ out out', ClientSocketHandler [wholeExchange [] [120, 10, 121, 10, 121]] out →
        ClientSocketHandler [wholeExchange [] [120, 10, 121], wholeExchange [] [10, 121]] out' →
          out = out' := by
  have hx : Delivers [] [120, 10, 121, 10, 121] [wholeExchange [] [120, 10, 121, 10, 121]] :=
    delivers_whole (by decide) [[120, 10, 121, 10, 121]] (by decide)
  have hy : Delivers [] [120, 10, 121, 10, 121]
      [wholeExchange [] [120, 10, 121], wholeExchange [] [10, 121]] :=
    delivers_whole (by decide) [[120, 10, 121], [10, 121]] (by decide)
  obtain ⟨hout, -, heq⟩ := reply_eq_iff (by decide) (by decide) (by decide) hx hy
  refine ⟨hout, heq.2 ?_⟩
  rw [AnsweredAlike, if_neg (by decide)]
  exact Or.inr (Or.inr ⟨by decide, [], by decide, by decide⟩)

/-- Not every segmentation gets the same reply: with a child that echoes its input and prints
nothing else, `ab` is answered with `ab` when it comes whole, with `a` when it comes byte by byte.
-/
theorem reply_segmented :
    ¬ ∀ (m : Bytes) (xs ys : List Exchange), 1 ≤ m.length → m.length ≤ buffSize - 1 →
      Delivers [] m xs → Delivers [] m ys →
      ∀ out out', ClientSocketHandler xs out → ClientSocketHandler ys out' → out = out' := by
  intro h
  have hx : Delivers [] [97, 98] [wholeExchange [] [97, 98]] :=
    delivers_whole (by decide) [[97, 98]] (by decide)
  have hy : Delivers [] [97, 98] [wholeExchange [] [97], wholeExchange [] [98]] :=
    delivers_whole (by decide) [[97], [98]] (by decide)
  have heq := h _ _ _ (by decide) (by decide) hx hy [97, 98] [97]
    ((handler_iff (by decide) (hx.served (by decide) _ List.mem_cons_self) _ _).2
      (Or.inl (by decide)))
    ((handler_iff (by decide) (hy.served (by decide) _ List.mem_cons_self) _ _).2
      (Or.inl (by decide)))
  exact absurd heq (by decide)

end EpollCoroutine
