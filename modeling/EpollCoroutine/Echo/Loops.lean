import EpollCoroutine.Echo.Reply

/-!
# The invariants of the two loops of `echo_loop`

What each loop is meant to keep up at every iteration, and the results of its system calls for which
it does.

* `SendLoopOk`: what has been accepted is the first `nbSend` bytes of the reply. The result `-1`,
  which `send` gives after a suspension, is added to `nbSend` like a count: it takes one off, or
  wraps it (`send_loop_iff`).
* `Accumulates`: `merged` is what has been read and `rec_ammount` its length. It breaks on a NUL, on
  a full buffer, on the result `-1` and on an end of file before any byte (`accumulates_iff`).
-/

namespace EpollCoroutine

/-! ### The send loop -/

/-- The send loop over `merged` after `k` iterations, when the calls give `rs` in turn; `none` is
the result `-1`. -/
def sendAfter (rs : ℕ → Option ℕ) (merged : Bytes) (k : ℕ) : SendState :=
  sendRun (fun i _ => rs i) merged k

/-- Every count that a call returns is at least one and at most the length it was given. -/
def Counts (rs : ℕ → Option ℕ) (merged : Bytes) : Prop :=
  ∀ i n, rs i = some n → (sendAfter rs merged i).nbSend < merged.length →
    1 ≤ n ∧ n ≤ merged.length - (sendAfter rs merged i).nbSend

/-- The bytes accepted so far are the first `nbSend` bytes of `merged`. -/
structure SendState.Sent (merged : Bytes) (st : SendState) : Prop where
  le : st.nbSend ≤ merged.length
  accepted : st.accepted = merged.take st.nbSend

/-- What the send loop is meant to do: at every iteration an initial part of `merged` has been
accepted, the range that is passed to `send` lies in `merged`, and if the loop ends without a `-1`
then all of `merged` has been accepted. -/
structure SendLoopOk (rs : ℕ → Option ℕ) (merged : Bytes) : Prop where
  sent : ∀ k, (sendAfter rs merged k).Sent merged
  range : ∀ k, (sendAfter rs merged k).nbSend < merged.length →
    (sendAfter rs merged k).nbSend + (merged.length - (sendAfter rs merged k).nbSend) ≤
      merged.length
  whole : ∀ k, merged.length ≤ (sendAfter rs merged k).nbSend →
    (∀ i < k, (sendAfter rs merged i).nbSend < merged.length → (rs i).isSome) →
    (sendAfter rs merged k).accepted = merged

/-- The sum of the counts among the first results. -/
def countsBefore (rs : ℕ → Option ℕ) : ℕ → ℕ
  | 0 => 0
  | i + 1 => countsBefore rs i + (rs i).getD 0

section Send

variable {rs : ℕ → Option ℕ} {merged : Bytes} {k n : ℕ}

theorem sendAfter_succ (rs : ℕ → Option ℕ) (merged : Bytes) (k : ℕ) :
    sendAfter rs merged (k + 1) = sendIter (fun i _ => rs i) merged k (sendAfter rs merged k) := rfl

theorem sendAfter_of_ended (h : merged.length ≤ (sendAfter rs merged k).nbSend) :
    sendAfter rs merged (k + 1) = sendAfter rs merged k := by
  have hlt : ¬ (sendAfter rs merged k).nbSend < merged.length := by omega
  rw [sendAfter_succ]
  simp [sendIter, EchoVars.sendMore, hlt]

/-- An iteration in which `send` accepts `n` bytes. -/
theorem sendAfter_of_count (hlt : (sendAfter rs merged k).nbSend < merged.length)
    (hm : merged.length < 2 ^ 64) (hk : rs k = some n)
    (hn : n ≤ merged.length - (sendAfter rs merged k).nbSend) :
    sendAfter rs merged (k + 1) =
      ⟨(sendAfter rs merged k).nbSend + n,
        (sendAfter rs merged k).accepted ++
          (merged.drop (sendAfter rs merged k).nbSend).take n⟩ := by
  have hmod : ((sendAfter rs merged k).nbSend + n) % 2 ^ 64 = (sendAfter rs merged k).nbSend + n :=
    Nat.mod_eq_of_lt (by omega)
  rw [sendAfter_succ]
  simp only [sendIter, EchoVars.sendMore, hlt, decide_true, if_true, hk, EchoVars.sent,
    Option.getD_some, hmod]

/-- An iteration in which `send` gives `-1`. -/
theorem sendAfter_of_failed (hlt : (sendAfter rs merged k).nbSend < merged.length)
    (hk : rs k = none) :
    sendAfter rs merged (k + 1) =
      ⟨if (sendAfter rs merged k).nbSend = 0 then 2 ^ 64 - 1
        else (sendAfter rs merged k).nbSend - 1, (sendAfter rs merged k).accepted⟩ := by
  rw [sendAfter_succ]
  simp [sendIter, EchoVars.sendMore, hlt, hk, EchoVars.sent]

/-- A count keeps the invariant. -/
theorem SendState.Sent.count (h : (sendAfter rs merged k).Sent merged)
    (hm : merged.length < 2 ^ 64) (hlt : (sendAfter rs merged k).nbSend < merged.length)
    (hk : rs k = some n) (hn : n ≤ merged.length - (sendAfter rs merged k).nbSend) :
    (sendAfter rs merged (k + 1)).Sent merged := by
  rw [sendAfter_of_count hlt hm hk hn]
  refine ⟨?_, ?_⟩
  · show (sendAfter rs merged k).nbSend + n ≤ merged.length
    omega
  · rw [h.accepted, List.take_add]

/-- A failure breaks it: `nbSend` moves although nothing was accepted. -/
theorem SendState.Sent.not_failed (h : (sendAfter rs merged k).Sent merged)
    (hlt : (sendAfter rs merged k).nbSend < merged.length) (hk : rs k = none) :
    ¬ (sendAfter rs merged (k + 1)).Sent merged := by
  intro h'
  have hlen : (sendAfter rs merged k).accepted.length = (sendAfter rs merged k).nbSend := by
    rw [h.accepted, List.length_take, Nat.min_eq_left h.le]
  have hlen' := congrArg List.length h'.accepted
  have hle' := h'.le
  rw [sendAfter_of_failed hlt hk] at hlen' hle'
  simp only [List.length_take, hlen] at hlen' hle'
  split_ifs at hlen' hle' <;> omega

/-- As long as the counts do not reach the length of `merged`, `nbSend` is their sum. -/
theorem sendAfter_nbSend (hm : merged.length < 2 ^ 64) (hrs : Counts rs merged)
    (hsome : ∀ j < k, (rs j).isSome) (hlt : countsBefore rs k < merged.length) :
    (sendAfter rs merged k).nbSend = countsBefore rs k := by
  induction k with
  | zero => rfl
  | succ k ih =>
    have hk : countsBefore rs k < merged.length := by
      rw [countsBefore] at hlt
      omega
    have hprev := ih (fun j hj => hsome j (by omega)) hk
    obtain ⟨n, hn⟩ := Option.isSome_iff_exists.1 (hsome k (by omega))
    have hle := (hrs k n hn (by omega)).2
    rw [sendAfter_of_count (by omega) hm hn hle, countsBefore, hn, hprev]
    rfl

/-- While no `-1` interferes, the invariant holds, and a loop that goes on has seen counts only. -/
theorem sendAfter_sent (hm : merged.length < 2 ^ 64) (hrs : Counts rs merged)
    (h : ∀ i, (∀ j < i, (rs j).isSome) → countsBefore rs i < merged.length → (rs i).isSome)
    (k : ℕ) :
    (sendAfter rs merged k).Sent merged ∧
      ((sendAfter rs merged k).nbSend < merged.length → (∀ j < k, (rs j).isSome) ∧
        countsBefore rs k < merged.length) := by
  induction k with
  | zero => exact ⟨⟨Nat.zero_le _, rfl⟩, fun hlt => ⟨by simp, hlt⟩⟩
  | succ k ih =>
    obtain ⟨hsent, hgo⟩ := ih
    by_cases hlt : (sendAfter rs merged k).nbSend < merged.length
    · obtain ⟨hsome, hcount⟩ := hgo hlt
      obtain ⟨n, hn⟩ := Option.isSome_iff_exists.1 (h k hsome hcount)
      have hle := (hrs k n hn hlt).2
      refine ⟨hsent.count hm hlt hn hle, fun hlt' => ⟨fun j hj => ?_, ?_⟩⟩
      · rcases Nat.lt_succ_iff_lt_or_eq.1 hj with hj | rfl
        · exact hsome j hj
        · simp [hn]
      · rw [sendAfter_of_count hlt hm hn hle, sendAfter_nbSend hm hrs hsome hcount] at hlt'
        simpa [countsBefore, hn] using hlt'
    · rw [sendAfter_of_ended (by omega)]
      exact ⟨hsent, fun hlt' => absurd hlt' hlt⟩

end Send

/-- **When the send loop keeps its place.** For every reply, whose size is a `size_t`, and every
sequence of results of `send`: at every iteration the accepted bytes are the first `nbSend` bytes of
the reply, the range passed to `send` lies within it, and all of it has been accepted when the loop
ends without a `-1`, if and only if no `-1` comes before the counts add up to the whole reply. -/
theorem send_loop_iff {merged : Bytes} (hm : merged.length < 2 ^ 64) {rs : ℕ → Option ℕ}
    (hrs : Counts rs merged) :
    SendLoopOk rs merged ↔
      ∀ i, (∀ j < i, (rs j).isSome) → countsBefore rs i < merged.length → (rs i).isSome := by
  constructor
  · intro h i hsome hlt
    by_contra hno
    rw [Option.not_isSome_iff_eq_none] at hno
    have hnb := sendAfter_nbSend hm hrs hsome hlt
    exact (h.sent i).not_failed (by omega) hno (h.sent (i + 1))
  · intro h
    refine ⟨fun k => (sendAfter_sent hm hrs h k).1, fun k hlt => by omega, fun k hend _ => ?_⟩
    rw [(sendAfter_sent hm hrs h k).1.accepted, List.take_of_length_le hend]

/-- A client that takes one byte at a time. -/
theorem send_loop_bytewise :
    ([97, 98] : Bytes).length < 2 ^ 64 ∧ SendLoopOk (fun _ => some 1) [97, 98] := by
  have hcounts : Counts (fun _ => some 1) [97, 98] := by
    intro i n hn hlt
    cases hn
    exact ⟨le_rfl, by omega⟩
  exact ⟨by decide, (send_loop_iff (by decide) hcounts).2 fun _ _ _ => rfl⟩

/-- Not every sequence of results is handled: after one byte of `ab` the next `send` fails, and the
byte is sent again. -/
theorem send_loop_repeats :
    ¬ ∀ (merged : Bytes) (rs : ℕ → Option ℕ), merged.length < 2 ^ 64 → Counts rs merged →
      SendLoopOk rs merged := by
  intro h
  have hcounts : Counts (fun i => if i = 1 then none else some 1) [97, 98] := by
    intro i n hn hlt
    by_cases hi : i = 1
    · simp [hi] at hn
    simp only [hi, if_false, Option.some.injEq] at hn
    subst hn
    exact ⟨le_rfl, by omega⟩
  have hsent := (h [97, 98] _ (by decide) hcounts).sent 2
  exact absurd hsent.accepted (by decide)

/-! ### The read loop -/

/-- What the read loop is meant to do from the variables `v` on, when `read` is what has been read
so far: after each iteration `merged` is what has been read and `rec_ammount` its length; the C
string appended to `merged` ends within the buffer, whatever memory follows it; `merged.at` does not
throw. -/
def Accumulates (after : Bytes) : Bytes → EchoVars → List (ReadResult × Bool) → Prop
  | _, _, [] => True
  | read, v, (r, doneReading) :: rs =>
    (0 : UInt8) ∈ filled r.content ∧
      ∃ v', v.readBody r after = some v' ∧ v'.merged = read ++ r.content ∧
        v'.recAmmount = (read ++ r.content).length ∧
        (v'.readAgain r doneReading → Accumulates after (read ++ r.content) v' rs)

/-- Every read that the loop comes to gives fewer bytes than the buffer holds and no NUL, and the
first of them gives a byte. -/
def CleanReads : Bool → List (ReadResult × Bool) → Prop
  | _, [] => True
  | first, (r, doneReading) :: rs =>
    (∃ l, r = .bytes l ∧ (0 : UInt8) ∉ l ∧ l.length < buffSize ∧ (first → l ≠ [])) ∧
      (GoesOn (r.content, doneReading) → CleanReads false rs)

/-- The loop is left through its condition. -/
theorem Accumulates.not_thrown {after read : Bytes} {v : EchoVars} {rs : List (ReadResult × Bool)}
    (h : Accumulates after read v rs) : readLoop after v rs ≠ .thrown := by
  induction rs generalizing read v with
  | nil => simp [readLoop]
  | cons x rs ih =>
    obtain ⟨r, doneReading⟩ := x
    obtain ⟨-, v', hbody, -, -, hrest⟩ := h
    simp only [readLoop, hbody]
    split_ifs with hgo
    · exact ih (hrest hgo)
    · simp

theorem zero_mem_filled {l : Bytes} (h : l.length < buffSize) : (0 : UInt8) ∈ filled l := by
  have hne : buffSize - l.length ≠ 0 := by omega
  simp [filled, hne]

/-- A text that fills the buffer leaves no room for the terminating NUL. -/
theorem zero_not_mem_filled {l : Bytes} (h0 : (0 : UInt8) ∉ l) (h : buffSize ≤ l.length) :
    (0 : UInt8) ∉ filled l := by
  have hz : buffSize - l.length = 0 := by omega
  simpa [filled, hz] using h0

section Read

variable {after read : Bytes} {v : EchoVars} {r : ReadResult} {doneReading : Bool}
  {rs : List (ReadResult × Bool)}

theorem readBody_merged {v' : EchoVars} (h : v.readBody r after = some v') :
    v'.merged = v.merged ++ cstr (filled r.content ++ after) ∧
      v'.recAmmount = v.recAmmount + r.count := by
  unfold EchoVars.readBody at h
  split at h
  · cases h
  · cases h
    exact ⟨rfl, rfl⟩

/-- A clean read: the body of the loop appends its bytes. -/
theorem readBody_clean {l : Bytes} (hv : v.endlconuter = 0) (h0 : (0 : UInt8) ∉ l)
    (hlen : l.length < buffSize) (hne : v.merged ++ l ≠ []) :
    v.readBody (.bytes l) after = some (v.grow l l.length) :=
  readBody_grow (r := .bytes l) ((cstr_filled hlen after).trans (cstr_eq_self h0)) hv hne

theorem grow_readAgain_iff {l : Bytes} :
    (v.grow l l.length).readAgain (.bytes l) doneReading = true ↔ GoesOn (l, doneReading) := by
  by_cases hl : l = []
  · simp [hl, EchoVars.readAgain, ReadResult.count, GoesOn]
  · have hend : (v.grow l l.length).endlconuter ≠ 1 ↔ l.getLast? = some newline := by
      unfold EchoVars.grow
      rw [getLast?_append_chunk _ hl]
      by_cases h : l.getLast? = some newline <;> simp [h]
    simp [EchoVars.readAgain, ReadResult.count, hl, GoesOn, hend, and_comm]

/-- The first read of the rest is a clean one. -/
theorem Accumulates.clean (hm : v.merged = read) (hr : v.recAmmount = read.length)
    (h : Accumulates after read v ((r, doneReading) :: rs)) :
    ∃ l, r = .bytes l ∧ (0 : UInt8) ∉ l ∧ l.length < buffSize ∧ (read = [] → l ≠ []) := by
  obtain ⟨hz, v', hbody, hmerged, hrec, -⟩ := h
  obtain ⟨hmerged', hrec'⟩ := readBody_merged hbody
  cases r with
  | failed =>
    simp [ReadResult.count, ReadResult.content, hr, hrec] at hrec'
  | bytes l =>
    have hcontent : cstr (filled l ++ after) = l := by
      rw [hmerged', hm] at hmerged
      exact List.append_cancel_left hmerged
    have h0 : (0 : UInt8) ∉ l := by
      rw [← hcontent]
      exact zero_not_mem_cstr _
    refine ⟨l, rfl, h0, ?_, ?_⟩
    · by_contra hlen
      exact zero_not_mem_filled h0 (by omega) hz
    · rintro hread rfl
      simp [EchoVars.readBody, ReadResult.content, hm, hread, hcontent] at hbody

end Read

/-- The iterations of the read loop, from any of them on. -/
theorem accumulates_clean_iff {after read : Bytes} {v : EchoVars} {rs : List (ReadResult × Bool)}
    (hv : v.endlconuter = 0) (hm : v.merged = read) (hr : v.recAmmount = read.length) :
    Accumulates after read v rs ↔ CleanReads read.isEmpty rs := by
  induction rs generalizing read v with
  | nil => exact Iff.rfl
  | cons x rs ih =>
    obtain ⟨r, doneReading⟩ := x
    -- what a clean read leaves to the other iterations
    have hstep : ∀ l, r = .bytes l → (0 : UInt8) ∉ l → l.length < buffSize →
        (read = [] → l ≠ []) →
        v.readBody r after = some (v.grow l l.length) ∧
        (GoesOn (r.content, doneReading) →
          (Accumulates after (read ++ l) (v.grow l l.length) rs ↔ CleanReads false rs)) := by
      rintro l rfl h0 hlen hne
      refine ⟨readBody_clean hv h0 hlen ?_, fun hgo => ?_⟩
      · rw [hm]
        intro e
        obtain ⟨e1, e2⟩ := List.append_eq_nil_iff.1 e
        exact hne e1 e2
      · have hl : l ≠ [] := by
          rintro rfl
          simp [GoesOn, ReadResult.content] at hgo
        have hempty : (read ++ l).isEmpty = false := by simp [hl]
        rw [← hempty]
        exact ih (grow_endlconuter hl hgo) (by simp [EchoVars.grow, hm])
          (by simp [EchoVars.grow, hr])
    constructor
    · intro h
      obtain ⟨l, rfl, h0, hlen, hne⟩ := h.clean hm hr
      obtain ⟨hbody, hrest⟩ := hstep l rfl h0 hlen hne
      refine ⟨⟨l, rfl, h0, hlen, by simpa using hne⟩, fun hgo => (hrest hgo).1 ?_⟩
      obtain ⟨-, v', hbody', -, -, hacc⟩ := h
      rw [hbody] at hbody'
      cases hbody'
      exact hacc (grow_readAgain_iff.2 hgo)
    · rintro ⟨⟨l, rfl, h0, hlen, hne⟩, hrest'⟩
      obtain ⟨hbody, hrest⟩ := hstep l rfl h0 hlen (by simpa using hne)
      refine ⟨zero_mem_filled hlen, _, hbody, by simp [EchoVars.grow, hm, ReadResult.content],
        by simp [EchoVars.grow, hr, ReadResult.content], fun hgo => ?_⟩
      have hgo' := grow_readAgain_iff.1 hgo
      exact (hrest hgo').2 (hrest' hgo')

/-- **When the read loop accumulates the output.** For every request and every sequence of results
of `readpipe`: after every iteration `merged` is what has been read and `rec_ammount` its length, no
byte outside the buffer is read and `merged.at` does not throw, if and only if every read that the
loop comes to gives fewer than `BUFFSIZE` bytes without a NUL, and the first of them gives a byte.
-/
theorem accumulates_iff (after m : Bytes) (rs : List (ReadResult × Bool)) :
    Accumulates after [] (.received m) rs ↔ CleanReads true rs :=
  accumulates_clean_iff rfl rfl rfl

/-- Not every output is accumulated: a child that ends without output makes `merged.at` throw. -/
theorem accumulates_empty_thrown :
    ¬ ∀ (after m : Bytes) (rs : List (ReadResult × Bool)),
      (∀ x ∈ rs, x.1.content.length ≤ buffSize) → Accumulates after [] (.received m) rs := by
  intro h
  have hacc := h [] [97, 98] [(.bytes [], true)] (by decide)
  exact hacc.not_thrown (by decide)

end EpollCoroutine
