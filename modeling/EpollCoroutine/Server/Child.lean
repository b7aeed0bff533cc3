import EpollCoroutine.Server.Family

/-!
# The child branch of `PipedAsyncCommand::init`

What the child does between `fork` and `execvp`: its descriptors are rearranged, and the words of
the command are written to the standard output that has been put in place.

* `pipedTable`: the descriptors after the two calls of `pipe`; `PipeNumbers` says which numbers they
  can return. Any of the four may be `0` or `1` when a standard stream has been closed after the
  `IOContext` was constructed; of those missing from the start the lowest is the epoll instance.
* `childTable`: the descriptors after the `close` and `dup2` calls. `redirected_iff`: they are as
  intended unless a pipe end that the child keeps already has the number it is to be copied to, or
  one that another is to be copied to first.
* `echoed`: the text that the child writes for a command. `strip_echoed_iff`: `echo_loop` removes
  the first line, which is all of that text when the command is a single word.
-/

namespace EpollCoroutine

/-! ### Descriptors -/

/-- The end `d` of the pipe `n`. -/
abbrev endOf (n : ℕ) (d : Dir) : Option File := some (.pipeEnd n d)

/-- The table `t` after the calls `pipe(mFd_w)` and `pipe(mFd_r)`, which have created the pipes `nW`
and `nR`. -/
def pipedTable (t : Fd → Option File) (nW nR : ℕ) (mFdW mFdR : Fd × Fd) : Fd → Option File :=
  Function.update (Function.update (Function.update (Function.update t
    mFdW.1 (endOf nW .read)) mFdW.2 (endOf nW .write))
    mFdR.1 (endOf nR .read)) mFdR.2 (endOf nR .write)

/-- What two successful calls of `pipe` on the table `t` return: new pipes, under four different
numbers that were free. -/
structure PipeNumbers (t : Fd → Option File) (nW nR : ℕ) (mFdW mFdR : Fd × Fd) : Prop where
  distinct : [mFdW.1, mFdW.2, mFdR.1, mFdR.2].Nodup
  nonneg : ∀ fd ∈ [mFdW.1, mFdW.2, mFdR.1, mFdR.2], 0 ≤ fd
  free : ∀ fd ∈ [mFdW.1, mFdW.2, mFdR.1, mFdR.2], t fd = none
  ne : nW ≠ nR
  fresh : ∀ fd d, t fd ≠ endOf nW d ∧ t fd ≠ endOf nR d

/-- The table `t` of the child at `execvp`. -/
def childTable (t : Fd → Option File) (mFdW mFdR : Fd × Fd) : Fd → Option File :=
  (childActions mFdW mFdR).foldl (fun t a => a.apply t) t

/-- Standard input is the read end of the pipe `nW`, standard output the write end of the pipe `nR`,
and nothing else refers to either pipe. -/
structure Redirected (nW nR : ℕ) (t : Fd → Option File) : Prop where
  stdin : t 0 = endOf nW .read
  stdout : t 1 = endOf nR .write
  others : ∀ fd, fd ≠ 0 → fd ≠ 1 → ∀ d, t fd ≠ endOf nW d ∧ t fd ≠ endOf nR d

/-- The descriptors `a` and `d` are the ends that the child keeps, and nothing else refers to either
pipe. -/
structure Keeps (nW nR : ℕ) (a d : Fd) (t : Fd → Option File) : Prop where
  read : t a = endOf nW .read
  write : t d = endOf nR .write
  others : ∀ fd, fd ≠ a → fd ≠ d → ∀ e, t fd ≠ endOf nW e ∧ t fd ≠ endOf nR e

variable {t : Fd → Option File} {nW nR : ℕ} {mFdW mFdR : Fd × Fd}

theorem FdAction.close_apply (fd x : Fd) :
    (FdAction.close fd).apply t x = if x = fd then none else t x := by
  simp [FdAction.apply, Function.update_apply]

theorem FdAction.dup2_apply {src : Fd} {f : File} (h : t src = some f) (dst x : Fd) :
    (FdAction.dup2 src dst).apply t x = if x = dst then some f else t x := by
  simp [FdAction.apply, h, Function.update_apply]

/-- The first two calls close the ends that belong to the server. -/
theorem PipeNumbers.keeps (h : PipeNumbers t nW nR mFdW mFdR) :
    Keeps nW nR mFdW.1 mFdR.2 ((FdAction.close mFdR.1).apply
      ((FdAction.close mFdW.2).apply (pipedTable t nW nR mFdW mFdR))) := by
  obtain ⟨⟨hab, hac, had⟩, ⟨hbc, hbd⟩, hcd⟩ : (mFdW.1 ≠ mFdW.2 ∧ mFdW.1 ≠ mFdR.1 ∧
      mFdW.1 ≠ mFdR.2) ∧ (mFdW.2 ≠ mFdR.1 ∧ mFdW.2 ≠ mFdR.2) ∧ mFdR.1 ≠ mFdR.2 := by
    simpa using h.distinct
  constructor
  · simp [FdAction.close_apply, pipedTable, hab, hac, had]
  · simp [FdAction.close_apply, pipedTable, hbd.symm, hcd.symm]
  · intro fd hfa hfd e
    rw [FdAction.close_apply, FdAction.close_apply]
    split_ifs with hc hb
    · simp
    · simp
    · simpa [pipedTable, Function.update_apply, hfa, hfd, hc, hb] using h.fresh fd e

section Redirect

variable {a d : Fd}

/-- The four calls that follow, when neither end is in the other's way. -/
theorem Keeps.redirected (h : Keeps nW nR a d t) (hne : a ≠ d) (ha : a ≠ 0) (hd0 : d ≠ 0)
    (hd1 : d ≠ 1) : Redirected nW nR ((FdAction.close d).apply ((FdAction.dup2 d 1).apply
      ((FdAction.close a).apply ((FdAction.dup2 a 0).apply t)))) := by
  have hin : ∀ x, (FdAction.close a).apply ((FdAction.dup2 a 0).apply t) x =
      if x = a then none else if x = 0 then endOf nW .read else t x := fun x => by
    rw [FdAction.close_apply, FdAction.dup2_apply h.read]
  have hd : (FdAction.close a).apply ((FdAction.dup2 a 0).apply t) d = endOf nR .write := by
    rw [hin, if_neg hne.symm, if_neg hd0, h.write]
  constructor
  · rw [FdAction.close_apply, if_neg hd0.symm, FdAction.dup2_apply hd, if_neg (by decide), hin,
      if_neg ha.symm, if_pos rfl]
  · rw [FdAction.close_apply, if_neg hd1.symm, FdAction.dup2_apply hd, if_pos rfl]
  · intro fd hf0 hf1 e
    rw [FdAction.close_apply]
    split_ifs with hfd
    · simp
    · rw [FdAction.dup2_apply hd, if_neg hf1, hin]
      split_ifs with hfa
      · simp
      · exact h.others fd hfa hfd e

/-- `dup2(0, 0)`, and then standard input is closed. -/
theorem Keeps.stdin_closed (h : Keeps nW nR a d t) (hne : a ≠ d) (ha : a = 0) :
    (FdAction.close d).apply ((FdAction.dup2 d 1).apply
      ((FdAction.close a).apply ((FdAction.dup2 a 0).apply t))) 0 = none := by
  have hin : (FdAction.close a).apply ((FdAction.dup2 a 0).apply t) d = endOf nR .write := by
    rw [FdAction.close_apply, if_neg hne.symm, FdAction.dup2_apply h.read,
      if_neg (ha ▸ hne.symm), h.write]
  rw [FdAction.close_apply]
  split_ifs
  · rfl
  · rw [FdAction.dup2_apply hin, if_neg (by decide), FdAction.close_apply, if_pos ha.symm]

end Redirect

/-- **The redirection works exactly when neither end that the child keeps is in the way.** The write
end of `mFd_r` is lost when it has the number of standard input, and each end is closed again when
it has the number it is copied to. -/
theorem redirected_iff (t : Fd → Option File) (nW nR : ℕ) (mFdW mFdR : Fd × Fd)
    (h : PipeNumbers t nW nR mFdW mFdR) :
    Redirected nW nR (childTable (pipedTable t nW nR mFdW mFdR) mFdW mFdR) ↔
      mFdW.1 ≠ 0 ∧ mFdR.2 ≠ 0 ∧ mFdR.2 ≠ 1 := by
  have hk := h.keeps
  have hne : mFdW.1 ≠ mFdR.2 := by
    have hd := h.distinct
    simp only [List.nodup_cons, List.mem_cons, not_or] at hd
    exact hd.1.2.2.1
  constructor
  · intro hred
    refine ⟨fun ha => ?_, fun hd => ?_, fun hd => ?_⟩
    · have hin := hred.stdin
      rw [show childTable (pipedTable t nW nR mFdW mFdR) mFdW mFdR 0 = none from
        hk.stdin_closed hne ha] at hin
      cases hin
    · have hin : childTable (pipedTable t nW nR mFdW mFdR) mFdW mFdR 0 = none := by
        show (FdAction.close mFdR.2).apply _ 0 = none
        rw [FdAction.close_apply, if_pos hd.symm]
      rw [hred.stdin] at hin
      cases hin
    · have hout : childTable (pipedTable t nW nR mFdW mFdR) mFdW mFdR 1 = none := by
        show (FdAction.close mFdR.2).apply _ 1 = none
        rw [FdAction.close_apply, if_pos hd.symm]
      rw [hred.stdout] at hout
      cases hout
  · rintro ⟨ha, hd0, hd1⟩
    exact hk.redirected hne ha hd0 hd1

/-- A process with its three standard streams, the epoll instance `3` and the connection `4`. -/
def streamsTable (fd : Fd) : Option File :=
  if fd ∈ [0, 1, 2, 3] then some .other else if fd = 4 then some .connection else none

theorem streamsTable_ne (fd : Fd) (n : ℕ) (d : Dir) : streamsTable fd ≠ endOf n d := by
  unfold streamsTable
  split_ifs <;> simp

theorem redirected_streams :
    PipeNumbers streamsTable 0 1 (5, 6) (7, 8) ∧
      Redirected 0 1 (childTable (pipedTable streamsTable 0 1 (5, 6) (7, 8)) (5, 6) (7, 8)) := by
  have h : PipeNumbers streamsTable 0 1 (5, 6) (7, 8) :=
    ⟨by decide, by decide, by decide, by decide,
      fun fd d => ⟨streamsTable_ne fd 0 d, streamsTable_ne fd 1 d⟩⟩
  exact ⟨h, (redirected_iff streamsTable 0 1 (5, 6) (7, 8) h).2 (by decide)⟩

/-- Standard input has been closed after the `IOContext` was constructed, as a daemon does: `pipe`
returns `0`, and the child has no standard input at all. -/
theorem redirected_fails :
    ∃ t : Fd → Option File, t = Function.update streamsTable 0 none ∧
      PipeNumbers t 0 1 (0, 5) (6, 7) ∧
      childTable (pipedTable t 0 1 (0, 5) (6, 7)) (0, 5) (6, 7) 0 = none ∧
      ¬ Redirected 0 1 (childTable (pipedTable t 0 1 (0, 5) (6, 7)) (0, 5) (6, 7)) := by
  have hne : ∀ fd n d, Function.update streamsTable 0 none fd ≠ endOf n d := by
    intro fd n d
    rw [Function.update_apply]
    split_ifs
    · simp
    · exact streamsTable_ne fd n d
  have h0 : childTable (pipedTable (Function.update streamsTable 0 none) 0 1 (0, 5) (6, 7)) (0, 5)
      (6, 7) 0 = none := by
    decide
  refine ⟨_, rfl, ⟨by decide, by decide, by decide, by decide,
    fun fd d => ⟨hne fd 0 d, hne fd 1 d⟩⟩, h0, fun hred => ?_⟩
  have hin := hred.stdin
  rw [h0] at hin
  cases hin

/-- The steps of the child `pid` on its way to `execvp`, all of them. -/
theorem Procs.childStep_run {pid : Pid} {c : Child} {pr : Procs} (h : pr.children pid = some c) :
    ∃ pr', (fun o => o.bind fun pr => Procs.childStep pr pid)^[c.todo.length] (some pr) = some pr' ∧
      pr'.children pid = some { c with
        table := c.todo.foldl (fun t a => a.apply t) c.table
        todo := [] } := by
  obtain ⟨frame, table, todo⟩ := c
  induction todo generalizing pr table with
  | nil => exact ⟨pr, rfl, h⟩
  | cons a todo ih =>
    obtain ⟨pr₁, hstep, hc₁⟩ : ∃ pr₁, pr.childStep pid = some pr₁ ∧
        pr₁.children pid = some ⟨frame, a.apply table, todo⟩ := by
      simp [Procs.childStep, h]
    obtain ⟨pr', hrun, hc⟩ := ih (a.apply table) hc₁
    refine ⟨pr', ?_, hc⟩
    rw [List.length_cons, Function.iterate_succ_apply, Option.bind_some, hstep]
    exact hrun

/-- What `fork` leaves to the child is what `childTable` runs. -/
theorem Procs.forked_reaches {pr pr' : Procs} {s : Session} {pid : Pid}
    (h : pr.apply s t (.forked pid) = some pr') :
    ∃ pr'', (fun o => o.bind fun pr => Procs.childStep pr pid)^[6] (some pr') = some pr'' ∧
      pr''.children pid = some ⟨s.frame, childTable t s.mFdW s.mFdR, []⟩ := by
  dsimp only [Procs.apply] at h
  split_ifs at h
  cases h
  exact Procs.childStep_run (c := ⟨s.frame, t, childActions s.mFdW s.mFdR⟩)
    (Function.update_self ..)

/-! ### The echo of the command -/

/-- `vstrings`: the words that `std::istream_iterator` reads from `cmd`. -/
def vstrings (cmd : Bytes) : List Bytes :=
  (cmd.splitOnP fun c => isspace (Char.ofUInt8 c)).filter fun w => w ≠ []

/-- The text that the child writes before `execvp`: every word and a newline after it. -/
def echoed (cmd : Bytes) : Bytes := (vstrings cmd).flatMap fun w => w ++ [newline]

/-- The parts of a split contain no separator. -/
theorem not_mem_splitOnP {α : Type} {p : α → Bool} {x : α} (hx : p x = true) (l : List α) :
    ∀ w ∈ l.splitOnP p, x ∉ w := by
  induction l with
  | nil => simp
  | cons y l ih =>
    rw [List.splitOnP_cons_eq_if_modifyHead]
    split_ifs with hy
    · intro w hw
      rcases List.mem_cons.1 hw with rfl | hw
      · simp
      · exact ih w hw
    · obtain ⟨v, vs, hv⟩ := List.exists_cons_of_ne_nil (List.splitOnP_ne_nil p l)
      rw [hv] at ih
      rw [hv, List.modifyHead_cons]
      intro w hw
      rcases List.mem_cons.1 hw with rfl | hw
      · rw [List.mem_cons, not_or]
        refine ⟨?_, ih v List.mem_cons_self⟩
        rintro rfl
        exact hy hx
      · exact ih w (List.mem_cons_of_mem _ hw)

theorem newline_not_mem_vstrings {cmd w : Bytes} (h : w ∈ vstrings cmd) : newline ∉ w := by
  have hsp : isspace (Char.ofUInt8 newline) = true := by decide
  exact not_mem_splitOnP (p := fun c => isspace (Char.ofUInt8 c)) hsp cmd w
    (List.mem_of_mem_filter h)

/-- The words that are echoed are those of the command that `execvp` gets. -/
theorem words_map_ofUInt8 (cmd : Bytes) :
    words (cmd.map Char.ofUInt8) = (vstrings cmd).map (List.map Char.ofUInt8) := by
  have hsplit : ∀ l : Bytes, (l.map Char.ofUInt8).splitOnP isspace =
      (l.splitOnP fun c => isspace (Char.ofUInt8 c)).map (List.map Char.ofUInt8) := by
    intro l
    induction l with
    | nil => rfl
    | cons c l ih =>
      rw [List.map_cons, List.splitOnP_cons_eq_if_modifyHead, List.splitOnP_cons_eq_if_modifyHead]
      split_ifs
      · rw [List.map_cons, ih, List.map_nil]
      · rw [ih]
        cases l.splitOnP fun c => isspace (Char.ofUInt8 c) <;> simp
  rw [words, vstrings, hsplit, List.filter_map]
  congr 2
  funext w
  simp

/-- What `echo_loop` removes from the child's text is the line of the first word. -/
theorem strip_words (w : Bytes) (ws : List Bytes) (out : Bytes) (hw : newline ∉ w) (v : EchoVars)
    (hv : v.merged = ((w :: ws).flatMap fun u => u ++ [newline]) ++ out) :
    v.stripFirstLine.merged = (ws.flatMap fun u => u ++ [newline]) ++ out := by
  refine stripFirstLine_cut hw ?_
  rw [hv]
  simp

/-- **Removing the first line undoes the echo exactly when the command is a single word.** Every
further word is a line of its own that stays in front of the output. -/
theorem strip_echoed_iff (cmd out : Bytes) (v : EchoVars) (h : vstrings cmd ≠ [])
    (hv : v.merged = echoed cmd ++ out) :
    v.stripFirstLine.merged = out ↔ (vstrings cmd).length = 1 := by
  obtain ⟨w, ws, hws⟩ := List.exists_cons_of_ne_nil h
  have hw : newline ∉ w := newline_not_mem_vstrings (by rw [hws]; exact List.mem_cons_self)
  rw [echoed, hws] at hv
  rw [strip_words w ws out hw v hv, hws]
  constructor
  · intro hout
    have hnil : (ws.flatMap fun u => u ++ [newline]) = [] := List.append_left_eq_self.1 hout
    cases ws with
    | nil => rfl
    | cons u us => simp at hnil
  · intro hlen
    have hnil : ws = [] := by simpa using hlen
    rw [hnil, List.flatMap_nil, List.nil_append]

/-- The local variables of `echo_loop` when the child has written `text`. -/
def haveRead (text : Bytes) : EchoVars := { merged := text }

/-- The bytes of `"cat"`. -/
def catBytes : Bytes := [99, 97, 116]

theorem strip_echoed_cat :
    vstrings catBytes ≠ [] ∧
      (haveRead (echoed catBytes ++ [104, 105])).stripFirstLine.merged = [104, 105] := by
  have h : vstrings catBytes ≠ [] := by decide
  exact ⟨h, (strip_echoed_iff catBytes [104, 105] (haveRead (echoed catBytes ++ [104, 105])) h
    rfl).2 (by decide)⟩

/-- The command `cat x` whose program writes `"hi"`: the second word stays in front. -/
theorem strip_echoed_two_words :
    vstrings (catBytes ++ [32, 120]) ≠ [] ∧
      (haveRead (echoed (catBytes ++ [32, 120]) ++ [104, 105])).stripFirstLine.merged =
        [120, newline, 104, 105] ∧
      (haveRead (echoed (catBytes ++ [32, 120]) ++ [104, 105])).stripFirstLine.merged ≠
        [104, 105] := by
  decide

end EpollCoroutine
