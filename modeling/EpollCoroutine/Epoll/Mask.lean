import Mathlib.Tactic

/-!
# Epoll event masks

The masks of `struct epoll_event` (`uint32_t events`) and the bits that `io_context.cc` acts on. A
bit is tested as in the source, `events & EPOLLIN`, a nonzero conjunction.

`Reportable m e` says that the kernel may report the event set `e` for a descriptor registered with
the mask `m`: the bits of `m` other than the flag `EPOLLET`, and always `EPOLLERR` and `EPOLLHUP`.
-/

namespace EpollCoroutine

/-- `uint32_t events`. -/
abbrev Mask := BitVec 32

def EPOLLIN : Mask := 0x001#32
def EPOLLOUT : Mask := 0x004#32
def EPOLLERR : Mask := 0x008#32
def EPOLLHUP : Mask := 0x010#32
def EPOLLET : Mask := 0x80000000#32

/-- `m & b` is nonzero. -/
def Mask.has (m b : Mask) : Prop := m &&& b ≠ 0#32

instance (m b : Mask) : Decidable (m.has b) := inferInstanceAs (Decidable (_ ≠ _))

/-- The two directions of a blocking operation. -/
inductive Dir
  | read
  | write
  deriving DecidableEq, Repr

/-- The epoll bit of a direction. -/
def Dir.bit : Dir → Mask
  | .read => EPOLLIN
  | .write => EPOLLOUT

/-- What `epoll_wait` may report for a descriptor registered with mask `m`. -/
def Reportable (m e : Mask) : Prop :=
  e &&& ~~~((m &&& ~~~EPOLLET) ||| EPOLLERR ||| EPOLLHUP) = 0#32

instance (m e : Mask) : Decidable (Reportable m e) := inferInstanceAs (Decidable (_ = _))

namespace Mask

/-- A single-bit test reads one position of the mask. -/
theorem has_twoPow (m : Mask) (i : ℕ) (hi : i < 32) : m.has (BitVec.twoPow 32 i) ↔ m.getLsbD i := by
  unfold has
  rw [BitVec.and_twoPow]
  split_ifs with h
  · simp only [h, iff_true]
    intro h0
    have := congrArg (fun b => b.getLsbD i) h0
    simp [hi] at this
  · simp [h]

theorem has_in (m : Mask) : m.has EPOLLIN ↔ m.getLsbD 0 := has_twoPow m 0 (by decide)
theorem has_out (m : Mask) : m.has EPOLLOUT ↔ m.getLsbD 2 := has_twoPow m 2 (by decide)
theorem has_et (m : Mask) : m.has EPOLLET ↔ m.getLsbD 31 := has_twoPow m 31 (by decide)

/-- The position of a direction's bit. -/
def dirPos : Dir → ℕ
  | .read => 0
  | .write => 2

theorem has_dir (m : Mask) (d : Dir) : m.has d.bit ↔ m.getLsbD (dirPos d) := by
  cases d
  · exact has_in m
  · exact has_out m

theorem getLsbD_dir (d d' : Dir) : d'.bit.getLsbD (dirPos d) = decide (d = d') := by
  cases d <;> cases d' <;> rfl

theorem getLsbD_dir_et (d : Dir) : d.bit.getLsbD 31 = false := by
  cases d <;> rfl

theorem dirPos_lt (d : Dir) : dirPos d < 32 := by
  cases d <;> decide

/-- Setting a direction's bit. -/
theorem has_or (m : Mask) (d d' : Dir) : (m ||| d'.bit).has d.bit ↔ d = d' ∨ m.has d.bit := by
  rw [has_dir, has_dir, BitVec.getLsbD_or, getLsbD_dir, Bool.or_eq_true,
    decide_eq_true_iff, or_comm]

/-- Clearing a direction's bit. -/
theorem has_andNot (m : Mask) (d d' : Dir) :
    (m &&& ~~~d'.bit).has d.bit ↔ d ≠ d' ∧ m.has d.bit := by
  rw [has_dir, has_dir, BitVec.getLsbD_and, BitVec.getLsbD_not, getLsbD_dir]
  simp [dirPos_lt, and_comm]

theorem has_et_or (m : Mask) (d : Dir) : (m ||| d.bit).has EPOLLET ↔ m.has EPOLLET := by
  rw [has_et, has_et, BitVec.getLsbD_or, getLsbD_dir_et, Bool.or_false]

theorem has_et_andNot (m : Mask) (d : Dir) : (m &&& ~~~d.bit).has EPOLLET ↔ m.has EPOLLET := by
  rw [has_et, has_et, BitVec.getLsbD_and, BitVec.getLsbD_not, getLsbD_dir_et]
  simp

end Mask

/-- A reported direction bit is a registered one. -/
theorem Reportable.has_dir {m e : Mask} (h : Reportable m e) {d : Dir} (he : e.has d.bit) :
    m.has d.bit := by
  rw [Mask.has_dir] at he ⊢
  have hb := congrArg (fun b => b.getLsbD (Mask.dirPos d)) h
  have h1 : EPOLLET.getLsbD (Mask.dirPos d) = false := by cases d <;> rfl
  have h2 : EPOLLERR.getLsbD (Mask.dirPos d) = false := by cases d <;> rfl
  have h3 : EPOLLHUP.getLsbD (Mask.dirPos d) = false := by cases d <;> rfl
  simp only [BitVec.getLsbD_and, BitVec.getLsbD_or, BitVec.getLsbD_not, he, h1, h2, h3,
    Mask.dirPos_lt, BitVec.getLsbD_zero] at hb
  simpa using hb

end EpollCoroutine
