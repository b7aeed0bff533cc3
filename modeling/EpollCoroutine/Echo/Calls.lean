import EpollCoroutine.Echo.Loops
import EpollCoroutine.Lib.History

/-!
# `echo_loop` as a machine over its completed calls

What one call of `echo_loop` does, when nothing but the operations it awaits is looked at: what it
passes to them and what comes back.

* `Io`: a completed operation, with the range passed to the kernel and the result. `noChild` is the
  failure of `PipedAsyncCommand::factory`, by an error or by an exception.
* `EchoAt.next`: the machine. It only allows the ranges that the source passes.
* `Io.reads`, `Io.results`, `Io.sentBytes`, `Io.fedBytes`: what a log of completed operations says
  about the two loops, about the connection and about the pipe to the child.
* `trace_replies`: a log that leads to the wait for the child is one turn of the two loops of
  `EchoReplies`.
* `trace_echoes`: without failures and NULs, what was sent is what was read, less its first line.
-/

namespace EpollCoroutine

/-- A completed operation of `echo_loop`; `none` is the result `-1`. A read comes with the memory
after the buffer and with the value of `doneReading()` that the loop condition sees. -/
inductive Io
  | recv (m : Option Bytes)
  | noChild
  | writepipe (buffer : Bytes) (res : Option ℕ)
  | readpipe (r : ReadResult) (after : Bytes) (doneReading : Bool)
  | send (buffer : Bytes) (res : Option ℕ)
  | whaitforprocesstodie
  deriving DecidableEq

/-- Which operation a call of `echo_loop` awaits next; `finished` when it awaits none. The
construction of the child belongs to `writing`. -/
inductive EchoAt
  | receiving
  | writing (v : EchoVars)
  | reading (v : EchoVars)
  | sending (v : EchoVars)
  | waiting (v : EchoVars)
  | finished
  deriving DecidableEq

namespace EchoAt

/-- The head of the send loop. -/
def sendHead (v : EchoVars) : EchoAt := if v.sendMore then .sending v else .waiting v

/-- The read loop after the result of `readpipe`. -/
def afterRead (v : EchoVars) (r : ReadResult) (after : Bytes) (doneReading : Bool) : EchoAt :=
  match v.readBody r after with
  | none => .finished
  | some v' => if v'.readAgain r doneReading then .reading v' else sendHead v'.stripFirstLine

/-- The next completed operation. -/
def next : EchoAt → Io → Option EchoAt
  | .receiving, .recv (some m) => some (.writing (.received m))
  | .receiving, .recv none => some .finished
  | .writing _, .noChild => some .finished
  | .writing v, .writepipe buffer _ => if buffer = v.data then some (.reading v) else none
  | .reading v, .readpipe r after doneReading => some (afterRead v r after doneReading)
  | .sending v, .send buffer res =>
    if buffer = v.merged.drop v.nbSend then some (sendHead (v.sent res)) else none
  | .waiting _, .whaitforprocesstodie => some .finished
  | _, _ => none

end EchoAt

/-! ### What a log says -/

namespace Io

/-- The bytes of the `recv`. -/
def received (ios : List Io) : Bytes :=
  ios.flatMap fun
    | .recv (some m) => m
    | _ => []

/-- The results of `readpipe`, each with the `doneReading()` after it. -/
def reads (ios : List Io) : List (ReadResult × Bool) :=
  ios.filterMap fun
    | .readpipe r _ doneReading => some (r, doneReading)
    | _ => none

/-- The results of `send`. -/
def results (ios : List Io) : List (Option ℕ) :=
  ios.filterMap fun
    | .send _ res => some res
    | _ => none

/-- The answers of `send` to its successive calls. -/
def answers (rs : List (Option ℕ)) (i _ : ℕ) : Option ℕ := rs.getD i none

/-- The bytes that the kernel has accepted from `send`. -/
def sentBytes (ios : List Io) : Bytes :=
  ios.flatMap fun
    | .send buffer res => buffer.take (res.getD 0)
    | _ => []

/-- The bytes that the kernel has accepted from `writepipe`. -/
def fedBytes (ios : List Io) : Bytes :=
  ios.flatMap fun
    | .writepipe buffer res => buffer.take (res.getD 0)
    | _ => []

/-- The bytes that `readpipe` has read. -/
def readBytes (ios : List Io) : Bytes := (reads ios).flatMap fun x => x.1.content

/-- No read fills the buffer. -/
def Short (ios : List Io) : Prop :=
  ∀ r after doneReading, .readpipe r after doneReading ∈ ios → r.content.length < buffSize

/-- No read fills the buffer or contains a NUL, and every `send` gives a count of at most the bytes
it was passed. -/
structure Smooth (ios : List Io) : Prop where
  short : Short ios
  text : ∀ r after doneReading, .readpipe r after doneReading ∈ ios → (0 : UInt8) ∉ r.content
  counts : ∀ buffer res, .send buffer res ∈ ios → ∃ n, res = some n ∧ n ≤ buffer.length

section Append

variable (xs ys : List Io)

@[simp] theorem received_append : received (xs ++ ys) = received xs ++ received ys := by
  simp [received]

@[simp] theorem reads_append : reads (xs ++ ys) = reads xs ++ reads ys := by simp [reads]

@[simp] theorem results_append : results (xs ++ ys) = results xs ++ results ys := by simp [results]

@[simp] theorem sentBytes_append : sentBytes (xs ++ ys) = sentBytes xs ++ sentBytes ys := by
  simp [sentBytes]

@[simp] theorem fedBytes_append : fedBytes (xs ++ ys) = fedBytes xs ++ fedBytes ys := by
  simp [fedBytes]

@[simp] theorem readBytes_append : readBytes (xs ++ ys) = readBytes xs ++ readBytes ys := by
  simp [readBytes]

theorem Short.left {xs ys : List Io} (h : Short (xs ++ ys)) : Short xs :=
  fun r after d hr => h r after d (List.mem_append_left _ hr)

theorem Smooth.left {xs ys : List Io} (h : Smooth (xs ++ ys)) : Smooth xs where
  short := h.short.left
  text r after d hr := h.text r after d (List.mem_append_left _ hr)
  counts b res hr := h.counts b res (List.mem_append_left _ hr)

end Append

end Io

/-! ### The moves of the machine -/

namespace EchoAt

/-- The moves, one by one. -/
inductive NextCase : EchoAt → Io → EchoAt → Prop
  | recv (m : Bytes) : NextCase .receiving (.recv (some m)) (.writing (.received m))
  | recvFail : NextCase .receiving (.recv none) .finished
  | noChild (v : EchoVars) : NextCase (.writing v) .noChild .finished
  | writepipe (v : EchoVars) (res : Option ℕ) :
      NextCase (.writing v) (.writepipe v.data res) (.reading v)
  | readpipe (v : EchoVars) (r : ReadResult) (after : Bytes) (d : Bool) :
      NextCase (.reading v) (.readpipe r after d) (afterRead v r after d)
  | send (v : EchoVars) (res : Option ℕ) :
      NextCase (.sending v) (.send (v.merged.drop v.nbSend) res) (sendHead (v.sent res))
  | wait (v : EchoVars) : NextCase (.waiting v) .whaitforprocesstodie .finished

theorem next_cases {a a' : EchoAt} {io : Io} (h : a.next io = some a') : NextCase a io a' := by
  unfold next at h
  split at h
  case h_1 => cases h; exact .recv _
  case h_2 => cases h; exact .recvFail
  case h_3 => cases h; exact .noChild _
  case h_4 =>
    split_ifs at h with hb
    cases h
    subst hb
    exact .writepipe _ _
  case h_5 => cases h; exact .readpipe _ _ _ _
  case h_6 =>
    split_ifs at h with hb
    cases h
    subst hb
    exact .send _ _
  case h_7 => cases h; exact .wait _
  case h_8 => cases h

theorem sendHead_cases (v : EchoVars) :
    (v.sendMore ∧ sendHead v = .sending v) ∨ (¬ v.sendMore ∧ sendHead v = .waiting v) := by
  by_cases h : v.sendMore
  · exact Or.inl ⟨h, by simp [sendHead, h]⟩
  · exact Or.inr ⟨h, by simp [sendHead, h]⟩

/-- The wait for the child is the last operation. -/
theorem trace_wait {ios : List Io} {a : EchoAt} (h : Lts.trace next .receiving ios = some a)
    (hw : .whaitforprocesstodie ∈ ios) :
    ∃ js v, ios = js ++ [.whaitforprocesstodie] ∧
      Lts.trace next .receiving js = some (.waiting v) := by
  have hI := Lts.trace_inv next .receiving
    (I := fun es b => .whaitforprocesstodie ∈ es → b = .finished ∧
      ∃ js v, es = js ++ [.whaitforprocesstodie] ∧
        Lts.trace next .receiving js = some (.waiting v)) (by simp) ?_ h hw
  · exact hI.2
  · intro es b e b' htr ih hn hmem
    rcases List.mem_append.1 hmem with hes | he
    · -- nothing follows the last operation
      obtain ⟨rfl, -⟩ := ih hes
      cases hn
    · obtain rfl := List.mem_singleton.1 he
      cases next_cases hn with
      | wait v => exact ⟨rfl, es, v, rfl, htr⟩

end EchoAt

/-! ### The loops -/

namespace Io

/-- The memory after the buffer does not matter to a read that leaves room for a NUL. -/
theorem readBody_after {r : ReadResult} (h : r.content.length < buffSize) (v : EchoVars)
    (after : Bytes) : v.readBody r after = v.readBody r [] := by
  unfold EchoVars.readBody
  rw [cstr_filled h after, cstr_filled h []]

/-- The send loop only asks for the answers to the calls it has made. -/
theorem sendRun_congr {ans ans' : ℕ → ℕ → Option ℕ} {merged : Bytes} {k : ℕ}
    (h : ∀ i < k, ans i = ans' i) : sendRun ans merged k = sendRun ans' merged k := by
  induction k with
  | zero => rfl
  | succ k ih =>
    simp only [sendRun, sendIter]
    rw [ih fun i hi => h i (by omega), h k (by omega)]

/-- The send loop after one more result. -/
theorem sendRun_answers_snoc (rs : List (Option ℕ)) (res : Option ℕ) (merged : Bytes) :
    sendRun (answers (rs ++ [res])) merged (rs.length + 1) =
      sendIter (fun _ _ => res) merged rs.length (sendRun (answers rs) merged rs.length) := by
  have hprev : sendRun (answers (rs ++ [res])) merged rs.length =
      sendRun (answers rs) merged rs.length := by
    refine sendRun_congr fun i hi => ?_
    funext n
    simp [answers, List.getElem?_append_left hi]
  rw [sendRun, hprev]
  simp [sendIter, answers]

/-- The variables `v` are those of the send loop after the `send`s of the log. -/
structure InSendLoop (ios : List Io) (reply : Bytes) (v : EchoVars) : Prop where
  merged : v.merged = reply
  state : sendRun (answers (results ios)) reply (results ios).length = ⟨v.nbSend, sentBytes ios⟩

theorem InSendLoop.snoc {ios : List Io} {reply : Bytes} {v : EchoVars}
    (h : InSendLoop ios reply v) (hv : v.sendMore) (res : Option ℕ) :
    InSendLoop (ios ++ [.send (v.merged.drop v.nbSend) res]) reply (v.sent res) := by
  refine ⟨h.merged, ?_⟩
  have hr : results (ios ++ [.send (v.merged.drop v.nbSend) res]) = results ios ++ [res] :=
    results_append _ _
  have hs : sentBytes (ios ++ [.send (v.merged.drop v.nbSend) res]) =
      sentBytes ios ++ (v.merged.drop v.nbSend).take (res.getD 0) := by
    rw [sentBytes_append]
    simp [sentBytes]
  rw [hr, hs, List.length_append, List.length_singleton, sendRun_answers_snoc, h.state]
  have hmore : ({ merged := reply, nbSend := v.nbSend } : EchoVars).sendMore = true := by
    rw [← h.merged]
    exact hv
  simp only [sendIter, hmore, if_true, h.merged]
  rfl

/-- What the log says about the two loops. -/
def Replied (ios : List Io) : Prop :=
  EchoReplies [] (received ios) (reads ios) (answers (results ios)) (sentBytes ios)

/-- What the log has to do with the variables at each operation. -/
def Explains (ios : List Io) : EchoAt → Prop
  | .receiving => ios = []
  | .writing v => v = .received (received ios) ∧ reads ios = [] ∧ results ios = [] ∧
      sentBytes ios = []
  | .reading v => results ios = [] ∧ sentBytes ios = [] ∧
      ∀ rs, readLoop [] (.received (received ios)) (reads ios ++ rs) = readLoop [] v rs
  | .sending v => v.sendMore ∧ ∃ u, readLoop [] (.received (received ios)) (reads ios) = .left u ∧
      InSendLoop ios u.stripFirstLine.merged v
  | .waiting _ => Replied ios
  | .finished => True

/-- The head of the send loop. -/
theorem explains_sendHead {ios : List Io} {u v : EchoVars}
    (hu : readLoop [] (.received (received ios)) (reads ios) = .left u)
    (hv : InSendLoop ios u.stripFirstLine.merged v) : Explains ios (.sendHead v) := by
  rcases EchoAt.sendHead_cases v with ⟨hmore, e⟩ | ⟨hmore, e⟩
  · rw [e]
    exact ⟨hmore, u, hu, hv⟩
  · rw [e]
    refine ⟨u, hu, (results ios).length, ?_, ?_⟩
    · rw [hv.state, ← hv.merged]
      simpa [EchoVars.sendMore] using hmore
    · rw [hv.state]

theorem explains_step {ios : List Io} {a a' : EchoAt} {io : Io} (h : Explains ios a)
    (hn : a.next io = some a') (hshort : Short (ios ++ [io])) : Explains (ios ++ [io]) a' := by
  cases EchoAt.next_cases hn with
  | recv m =>
    obtain rfl : ios = [] := h
    simp [Explains, received, reads, results, sentBytes]
  | recvFail | noChild | wait => trivial
  | writepipe v res =>
    obtain ⟨rfl, hr, hres, hsent⟩ := h
    refine ⟨by rw [results_append, hres]; rfl, by rw [sentBytes_append, hsent]; rfl, fun rs => ?_⟩
    rw [reads_append, hr, received_append]
    simp [received, reads]
  | readpipe v r after d =>
    obtain ⟨hres, hsent, hloop⟩ := h
    have hlen : r.content.length < buffSize := hshort r after d (by simp)
    have hrec : received (ios ++ [.readpipe r after d]) = received ios := by
      rw [received_append]
      exact List.append_nil _
    have hreads : reads (ios ++ [.readpipe r after d]) = reads ios ++ [(r, d)] := reads_append _ _
    have hres' : results (ios ++ [.readpipe r after d]) = [] := by
      rw [results_append, hres]
      rfl
    have hsent' : sentBytes (ios ++ [.readpipe r after d]) = [] := by
      rw [sentBytes_append, hsent]
      rfl
    unfold EchoAt.afterRead
    rw [readBody_after hlen]
    cases hbody : v.readBody r [] with
    | none => trivial
    | some v' =>
      have hnext : ∀ rs, readLoop [] (.received (received ios)) (reads ios ++ [(r, d)] ++ rs) =
          if v'.readAgain r d then readLoop [] v' rs else .left v' := by
        intro rs
        rw [List.append_assoc, hloop]
        simp [readLoop, hbody]
      by_cases hgo : v'.readAgain r d
      · simp only [hgo, if_true]
        refine ⟨hres', hsent', fun rs => ?_⟩
        rw [hrec, hreads, hnext, if_pos hgo]
      · simp only [hgo]
        refine explains_sendHead (u := v') ?_ ⟨rfl, ?_⟩
        · have hnil := hnext []
          rw [List.append_nil, if_neg hgo] at hnil
          rw [hrec, hreads, hnil]
        · rw [hres', hsent']
          rfl
  | send v res =>
    obtain ⟨hmore, u, hu, hv⟩ := h
    refine explains_sendHead (u := u) ?_ (hv.snoc hmore res)
    simpa [received, reads] using hu

end Io

/-- A log that leads to the wait for the child, in which no read fills the buffer: the bytes sent
are the reply of the two loops to the `recv`, the reads and the answers of the log. -/
theorem trace_replies {ios : List Io} {v : EchoVars}
    (h : Lts.trace EchoAt.next .receiving ios = some (.waiting v)) (hshort : Io.Short ios) :
    Io.Replied ios := by
  refine Lts.trace_inv EchoAt.next .receiving
    (I := fun es a => Io.Short es → Io.Explains es a) (fun _ => rfl) ?_ h hshort
  intro es a io a' _ ih hn hs
  exact Io.explains_step (ih hs.left) hn hs

/-- The same when the log goes on to the end of the wait. -/
theorem trace_replied {ios : List Io} {a : EchoAt}
    (h : Lts.trace EchoAt.next .receiving ios = some a) (hw : .whaitforprocesstodie ∈ ios)
    (hshort : Io.Short ios) : Io.Replied ios := by
  obtain ⟨js, v, rfl, hjs⟩ := EchoAt.trace_wait h hw
  have hreplied := trace_replies hjs hshort.left
  unfold Io.Replied at hreplied ⊢
  simpa [Io.received, Io.reads, Io.results, Io.sentBytes] using hreplied

/-! ### Without failures -/

namespace Io

/-- What was read, less its first line. -/
def reply (ios : List Io) : Bytes := ({ merged := readBytes ios } : EchoVars).stripFirstLine.merged

/-- What was accepted for the child is the beginning of the data. -/
def Feeds (ios : List Io) : Prop := fedBytes ios <+: (EchoVars.received (received ios)).data

/-- What the log has to do with the variables while nothing fails. -/
def Keeps (ios : List Io) : EchoAt → Prop
  | .receiving => ios = []
  | .writing v => v = .received (received ios) ∧ readBytes ios = [] ∧ sentBytes ios = [] ∧
      fedBytes ios = []
  | .reading v => v.merged = readBytes ios ∧ sentBytes ios = [] ∧ Feeds ios
  | .sending v => v.sendMore ∧ v.merged = reply ios ∧ sentBytes ios = v.merged.take v.nbSend ∧
      Feeds ios
  | .waiting _ => sentBytes ios = reply ios ∧ Feeds ios
  | .finished => True

/-- The other operations leave alone what a log says about a loop. -/
theorem readBytes_snoc_send (ios : List Io) (b : Bytes) (res : Option ℕ) :
    readBytes (ios ++ [.send b res]) = readBytes ios :=
  (readBytes_append _ _).trans (List.append_nil _)

theorem readBytes_snoc_readpipe (ios : List Io) (r : ReadResult) (after : Bytes) (d : Bool) :
    readBytes (ios ++ [.readpipe r after d]) = readBytes ios ++ r.content := by
  rw [readBytes_append]
  simp [readBytes, reads]

theorem Feeds.snoc {ios : List Io} (h : Feeds ios) {io : Io} (hr : received [io] = [])
    (hf : fedBytes [io] = []) : Feeds (ios ++ [io]) := by
  unfold Feeds
  rw [received_append, fedBytes_append, hr, hf, List.append_nil, List.append_nil]
  exact h

theorem stripFirstLine_congr {u v : EchoVars} (h : u.merged = v.merged) :
    u.stripFirstLine.merged = v.stripFirstLine.merged := by
  simp only [EchoVars.stripFirstLine, h]

theorem reply_length_le (ios : List Io) : (reply ios).length ≤ (readBytes ios).length := by
  unfold reply EchoVars.stripFirstLine
  dsimp only
  split <;> simp

/-- The head of the send loop. -/
theorem keeps_sendHead {ios : List Io} {v : EchoVars} (hm : v.merged = reply ios)
    (hs : sentBytes ios = v.merged.take v.nbSend) (hf : Feeds ios) : Keeps ios (.sendHead v) := by
  rcases EchoAt.sendHead_cases v with ⟨hmore, e⟩ | ⟨hmore, e⟩
  · rw [e]
    exact ⟨hmore, hm, hs, hf⟩
  · have hall : v.merged.length ≤ v.nbSend := by simpa [EchoVars.sendMore] using hmore
    rw [e]
    exact ⟨by rw [hs, List.take_of_length_le hall, hm], hf⟩

theorem keeps_step {ios : List Io} {a a' : EchoAt} {io : Io} (h : Keeps ios a)
    (hn : a.next io = some a') (hsm : Smooth (ios ++ [io]))
    (hlen : (readBytes (ios ++ [io])).length < 2 ^ 64) : Keeps (ios ++ [io]) a' := by
  cases EchoAt.next_cases hn with
  | recv m =>
    obtain rfl : ios = [] := h
    simp [Keeps, received, readBytes, reads, sentBytes, fedBytes]
  | recvFail | noChild | wait => trivial
  | writepipe v res =>
    obtain ⟨rfl, hr, hsent, hfed⟩ := h
    refine ⟨?_, by rw [sentBytes_append, hsent]; rfl, ?_⟩
    · rw [readBytes_append, hr]
      rfl
    · unfold Feeds
      rw [fedBytes_append, hfed, received_append]
      simpa [fedBytes, received] using List.take_prefix _ _
  | readpipe v r after d =>
    obtain ⟨hm, hsent, hf⟩ := h
    have hmem : Io.readpipe r after d ∈ ios ++ [.readpipe r after d] := by simp
    have hcontent : cstr (filled r.content ++ after) = r.content :=
      (cstr_filled (hsm.short r after d hmem) after).trans (cstr_eq_self (hsm.text r after d hmem))
    have hsent' : sentBytes (ios ++ [.readpipe r after d]) = [] := by
      rw [sentBytes_append, hsent]
      rfl
    have hf' : Feeds (ios ++ [.readpipe r after d]) := hf.snoc rfl rfl
    unfold EchoAt.afterRead
    cases hbody : v.readBody r after with
    | none => trivial
    | some v' =>
      have hm' : v'.merged = readBytes (ios ++ [.readpipe r after d]) := by
        rw [(readBody_merged hbody).1, hcontent, hm, readBytes_snoc_readpipe]
      by_cases hgo : v'.readAgain r d
      · simp only [hgo, if_true]
        exact ⟨hm', hsent', hf'⟩
      · simp only [hgo]
        refine keeps_sendHead (stripFirstLine_congr hm') ?_ hf'
        rw [hsent']
        rfl
  | send v res =>
    obtain ⟨hmore, hm, hsent, hf⟩ := h
    obtain ⟨n, rfl, hle⟩ := hsm.counts _ _ (List.mem_append_right _ List.mem_cons_self)
    have hreads := readBytes_snoc_send ios (v.merged.drop v.nbSend) (some n)
    have hreply : reply (ios ++ [.send (v.merged.drop v.nbSend) (some n)]) = reply ios := by
      unfold reply
      rw [hreads]
    -- the counter does not wrap
    have hnb : (v.sent (some n)).nbSend = v.nbSend + n := by
      have h1 : v.nbSend < v.merged.length := by simpa [EchoVars.sendMore] using hmore
      have h2 := reply_length_le ios
      rw [← hm] at h2
      rw [hreads] at hlen
      rw [List.length_drop] at hle
      exact Nat.mod_eq_of_lt (by omega)
    refine keeps_sendHead (hm.trans hreply.symm) ?_ (hf.snoc rfl rfl)
    rw [sentBytes_append, hsent, hnb]
    show _ = v.merged.take (v.nbSend + n)
    rw [List.take_add]
    simp [sentBytes]

end Io

/-- A log that leads to the wait for the child, in which nothing fails: what was sent is what was
read, less its first line, and what was written to the child is the beginning of the data. -/
theorem trace_echoes {ios : List Io} {v : EchoVars}
    (h : Lts.trace EchoAt.next .receiving ios = some (.waiting v)) (hsm : Io.Smooth ios)
    (hlen : (Io.readBytes ios).length < 2 ^ 64) :
    Io.sentBytes ios = Io.reply ios ∧ Io.Feeds ios := by
  refine Lts.trace_inv EchoAt.next .receiving
    (I := fun es a => Io.Smooth es → (Io.readBytes es).length < 2 ^ 64 → Io.Keeps es a)
    (fun _ _ => rfl) ?_ h hsm hlen
  intro es a io a' _ ih hn hs hl
  have hl' : (Io.readBytes es).length < 2 ^ 64 := by
    rw [Io.readBytes_append, List.length_append] at hl
    omega
  exact Io.keeps_step (ih hs.left hl') hn hs hl

/-- The same when the log goes on to the end of the wait. -/
theorem trace_echoed {ios : List Io} {a : EchoAt}
    (h : Lts.trace EchoAt.next .receiving ios = some a) (hw : .whaitforprocesstodie ∈ ios)
    (hsm : Io.Smooth ios) (hlen : (Io.readBytes ios).length < 2 ^ 64) :
    Io.sentBytes ios = Io.reply ios ∧ Io.Feeds ios := by
  obtain ⟨js, v, rfl, hjs⟩ := EchoAt.trace_wait h hw
  have hreads : Io.readBytes (js ++ [.whaitforprocesstodie]) = Io.readBytes js :=
    (Io.readBytes_append _ _).trans (List.append_nil _)
  rw [hreads] at hlen
  obtain ⟨hsent, hfeeds⟩ := trace_echoes hjs hsm.left hlen
  refine ⟨?_, hfeeds.snoc rfl rfl⟩
  unfold Io.reply at hsent ⊢
  rw [hreads, ← hsent, Io.sentBytes_append]
  exact List.append_nil _

end EpollCoroutine
